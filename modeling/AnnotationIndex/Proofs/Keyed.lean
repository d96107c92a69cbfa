import AnnotationIndex.Keyed
import Mathlib.Data.List.Nodup
import Mathlib.Data.List.Perm.Basic

/-!
# Laws of keyed lists

How look-up (`get?`), change (`upsert`) and the list of keys act on one another. A look-up finds the
first entry of a key, and under distinct keys that is the only one (`get?_eq_some_iff`).
-/

namespace AnnotationIndex.Keyed

variable {κ ν : Type}

/-- The key of an entry at the end is at the end of the keys. -/
theorem keys_snoc (entries : List (κ × ν)) (entry : κ × ν) :
    keys (entries ++ [entry]) = keys entries ++ [entry.1] := List.map_append

variable [DecidableEq κ]

/-- A key that is looked up and found has an entry in the list. -/
theorem mem_of_get? {key : κ} {v : ν} :
    ∀ {entries : List (κ × ν)}, get? key entries = some v → (key, v) ∈ entries
  | [], h => by simp [get?] at h
  | (k, w) :: rest, h => by
    simp only [get?] at h
    split at h
    · next hk =>
      cases h
      subst hk
      exact List.mem_cons_self
    · exact List.mem_cons_of_mem _ (mem_of_get? h)

/-- A key is looked up in vain when it is not among the keys. -/
theorem get?_eq_none_iff {key : κ} {entries : List (κ × ν)} :
    get? key entries = none ↔ key ∉ keys entries := by
  induction entries with
  | nil => simp [get?, keys]
  | cons entry rest ih =>
    obtain ⟨k, v⟩ := entry
    simp only [get?, keys, List.map_cons, List.mem_cons, not_or]
    by_cases hk : k = key
    · simp [hk]
    · simpa [hk, keys, Ne.symm hk] using ih

/-- A key has an entry when it is among the keys. -/
theorem get?_isSome_iff {key : κ} {entries : List (κ × ν)} :
    (get? key entries).isSome ↔ key ∈ keys entries := by
  rw [← not_iff_not, ← get?_eq_none_iff, Option.not_isSome_iff_eq_none]

/-- Under distinct keys every entry is found. -/
theorem get?_of_mem {key : κ} {v : ν} {entries : List (κ × ν)} (hn : (keys entries).Nodup)
    (h : (key, v) ∈ entries) : get? key entries = some v := by
  induction entries with
  | nil => cases h
  | cons entry rest ih =>
    obtain ⟨k, w⟩ := entry
    rw [keys, List.map_cons, List.nodup_cons] at hn
    cases h with
    | head => simp [get?]
    | tail _ h =>
      have hk : k ≠ key := by
        rintro rfl
        exact hn.1 (List.mem_map.2 ⟨_, h, rfl⟩)
      rw [get?, if_neg hk]
      exact ih hn.2 h

/-- Under distinct keys look-up is membership. -/
theorem get?_eq_some_iff {key : κ} {v : ν} {entries : List (κ × ν)} (hn : (keys entries).Nodup) :
    get? key entries = some v ↔ (key, v) ∈ entries :=
  ⟨mem_of_get?, get?_of_mem hn⟩

/-- Under distinct keys the order of entries does not matter to a look-up. -/
theorem get?_eq_of_mem_iff {xs ys : List (κ × ν)} (hx : (keys xs).Nodup) (hy : (keys ys).Nodup)
    (h : ∀ entry, entry ∈ xs ↔ entry ∈ ys) (key : κ) : get? key xs = get? key ys :=
  Option.ext fun v => by rw [get?_eq_some_iff hx, get?_eq_some_iff hy, h]

/-- Under distinct keys only one entry is of a key. -/
theorem flatMap_ite {β : Type} (key : κ) (f : ν → List β) {entries : List (κ × ν)}
    (hn : (keys entries).Nodup) :
    (entries.flatMap fun entry => if key = entry.1 then f entry.2 else []) =
      (get? key entries).elim [] f := by
  induction entries with
  | nil => rfl
  | cons entry rest ih =>
    obtain ⟨k, v⟩ := entry
    obtain ⟨hk, hrest⟩ := List.nodup_cons.1 hn
    rw [List.flatMap_cons, ih hrest, get?]
    by_cases h : key = k
    · subst h
      rw [if_pos rfl, if_pos rfl, get?_eq_none_iff.2 hk, Option.elim_none, List.append_nil,
        Option.elim_some]
    · rw [if_neg h, if_neg (Ne.symm h), List.nil_append]

/-- Before a key that occurs once there is no entry of it. -/
theorem get?_eq_none_of_nodup {key : κ} {v : ν} {xs ys : List (κ × ν)}
    (h : (keys (xs ++ (key, v) :: ys)).Nodup) : get? key xs = none := by
  rw [get?_eq_none_iff]
  intro hmem
  rw [keys, List.map_append] at h
  exact List.disjoint_of_nodup_append h hmem (by simp)

/-- A key that is looked up in vain can be added at the end. -/
theorem nodup_keys_snoc {key : κ} {xs : List (κ × ν)} (hn : (keys xs).Nodup)
    (h : get? key xs = none) (v : ν) : (keys (xs ++ [(key, v)])).Nodup := by
  rw [keys_snoc]
  refine hn.append (List.nodup_singleton _) ?_
  simpa using get?_eq_none_iff.1 h

/-- Changing the values of a keyed list changes what is looked up. -/
theorem get?_map {μ : Type} (key : κ) (f : κ → ν → μ) (entries : List (κ × ν)) :
    get? key (entries.map fun e => (e.1, f e.1 e.2)) = (get? key entries).map (f key) := by
  induction entries with
  | nil => rfl
  | cons e rest ih =>
    rw [List.map_cons, get?, get?]
    split
    · next he => rw [he, Option.map_some]
    · exact ih

/-- In two lists one after the other, the first list is looked up first. -/
theorem get?_append (key : κ) (xs ys : List (κ × ν)) :
    get? key (xs ++ ys) = (get? key xs).or (get? key ys) := by
  induction xs with
  | nil => simp [get?]
  | cons entry rest ih =>
    obtain ⟨k, v⟩ := entry
    by_cases hk : k = key <;> simp [get?, hk, ih]

/-- A choice of keys that keeps the key does not change its entry. -/
theorem get?_filter {key : κ} {p : κ → Bool} (hp : p key = true) (entries : List (κ × ν)) :
    get? key (entries.filter fun entry => p entry.1) = get? key entries := by
  induction entries with
  | nil => rfl
  | cons entry rest ih =>
    obtain ⟨k, v⟩ := entry
    by_cases hk : k = key
    · subst hk
      simp [get?, hp]
    · by_cases hpk : p k = true <;> simp [get?, hk, hpk, ih]

/-- After a change of a key, the changed entry is found under it. -/
@[simp] theorem get?_upsert_self (key : κ) (new : ν) (f : ν → ν) (entries : List (κ × ν)) :
    get? key (upsert key new f entries) = some (f ((get? key entries).getD new)) := by
  induction entries with
  | nil => simp [upsert, get?]
  | cons entry rest ih =>
    obtain ⟨k, v⟩ := entry
    by_cases hk : k = key <;> simp [upsert, get?, hk, ih]

/-- A change of a key does not show under another one. -/
theorem get?_upsert_of_ne {key other : κ} (h : key ≠ other) (new : ν) (f : ν → ν)
    (entries : List (κ × ν)) : get? other (upsert key new f entries) = get? other entries := by
  induction entries with
  | nil => simp [upsert, get?, h]
  | cons entry rest ih =>
    obtain ⟨k, v⟩ := entry
    by_cases hk : k = key
    · subst hk
      simp [upsert, get?, h]
    · simp [upsert, get?, hk, ih]

/-- A change depends only on what it makes of the entry that it meets. -/
theorem upsert_congr {key : κ} {new : ν} {f g : ν → ν} {entries : List (κ × ν)}
    (h : f ((get? key entries).getD new) = g ((get? key entries).getD new)) :
    upsert key new f entries = upsert key new g entries := by
  induction entries with
  | nil => simpa [upsert, get?] using h
  | cons entry rest ih =>
    obtain ⟨k, v⟩ := entry
    by_cases hk : k = key
    · simpa [upsert, get?, hk] using h
    · have := ih (by simpa [get?, hk] using h)
      simp [upsert, hk, this]

/-- Two changes of one key are one. -/
theorem upsert_upsert (key : κ) (new : ν) (f g : ν → ν) (entries : List (κ × ν)) :
    upsert key new g (upsert key new f entries) = upsert key new (fun v => g (f v)) entries := by
  induction entries with
  | nil => simp [upsert]
  | cons entry rest ih =>
    obtain ⟨k, v⟩ := entry
    by_cases hk : k = key <;> simp [upsert, hk, ih]

/-- A change adds its key at the end, unless it is there. -/
theorem keys_upsert (key : κ) (new : ν) (f : ν → ν) (entries : List (κ × ν)) :
    keys (upsert key new f entries) =
      if key ∈ keys entries then keys entries else keys entries ++ [key] := by
  induction entries with
  | nil => simp [upsert, keys]
  | cons entry rest ih =>
    obtain ⟨k, v⟩ := entry
    simp only [keys] at ih
    by_cases hk : k = key
    · simp [upsert, keys, hk]
    · by_cases hm : key ∈ rest.map (·.1)
      · simp_all [upsert, keys]
      · simp_all [upsert, keys, Ne.symm hk]

/-- A change keeps keys distinct. -/
theorem nodup_keys_upsert {key : κ} {new : ν} {f : ν → ν} {entries : List (κ × ν)}
    (h : (keys entries).Nodup) : (keys (upsert key new f entries)).Nodup := by
  rw [keys_upsert]
  split
  · exact h
  · next hk =>
    refine List.nodup_append.2 ⟨h, List.nodup_singleton _, fun a ha b hb hab => hk ?_⟩
    rwa [← List.mem_singleton.1 hb, ← hab]

/-- What a change leaves is an old entry or the changed one. -/
theorem mem_upsert {key : κ} {new : ν} {f : ν → ν} {entries : List (κ × ν)} {entry : κ × ν}
    (h : entry ∈ upsert key new f entries) :
    entry ∈ entries ∨ entry = (key, f ((get? key entries).getD new)) := by
  induction entries with
  | nil => simpa [upsert, get?] using h
  | cons first rest ih =>
    obtain ⟨k, v⟩ := first
    by_cases hk : k = key
    · subst hk
      simp only [upsert, if_true, List.mem_cons] at h
      rcases h with rfl | h
      · exact .inr (by simp [get?])
      · exact .inl (List.mem_cons_of_mem _ h)
    · simp only [upsert, if_neg hk, List.mem_cons] at h
      rcases h with rfl | h
      · exact .inl List.mem_cons_self
      · simp only [get?, if_neg hk]
        exact (ih h).imp_left (List.mem_cons_of_mem _)

/-- A change of a key of the first list stays in the first list. -/
theorem upsert_append_of_mem {key : κ} (new : ν) (f : ν → ν) {xs : List (κ × ν)}
    (h : key ∈ keys xs) (ys : List (κ × ν)) :
    upsert key new f (xs ++ ys) = upsert key new f xs ++ ys := by
  induction xs with
  | nil => cases h
  | cons entry rest ih =>
    obtain ⟨k, v⟩ := entry
    by_cases hk : k = key
    · simp [upsert, hk]
    · have hm : key ∈ keys rest := by simpa [keys, Ne.symm hk] using h
      simp [upsert, hk, ih hm]

/-- A change of a key that the first list lacks takes place in the second. -/
theorem upsert_append_of_not_mem {key : κ} (new : ν) (f : ν → ν) {xs : List (κ × ν)}
    (h : key ∉ keys xs) (ys : List (κ × ν)) :
    upsert key new f (xs ++ ys) = xs ++ upsert key new f ys := by
  induction xs with
  | nil => rfl
  | cons entry rest ih =>
    obtain ⟨k, v⟩ := entry
    simp only [keys, List.map_cons, List.mem_cons, not_or] at h
    simp [upsert, Ne.symm h.1, ih h.2]

/-- A change commutes with a choice of keys that keeps the key. -/
theorem filter_upsert_of_pos {key : κ} {p : κ → Bool} (hp : p key = true) (new : ν) (f : ν → ν)
    (entries : List (κ × ν)) :
    (upsert key new f entries).filter (fun entry => p entry.1) =
      upsert key new f (entries.filter fun entry => p entry.1) := by
  induction entries with
  | nil => simp [upsert, hp]
  | cons entry rest ih =>
    obtain ⟨k, v⟩ := entry
    by_cases hk : k = key
    · subst hk
      simp [upsert, hp]
    · by_cases hpk : p k = true <;> simp [upsert, hk, hpk, ih]

/-- A change is lost in a choice of keys that leaves the key out. -/
theorem filter_upsert_of_neg {key : κ} {p : κ → Bool} (hp : p key = false) (new : ν) (f : ν → ν)
    (entries : List (κ × ν)) :
    (upsert key new f entries).filter (fun entry => p entry.1) =
      entries.filter fun entry => p entry.1 := by
  induction entries with
  | nil => simp [upsert, hp]
  | cons entry rest ih =>
    obtain ⟨k, v⟩ := entry
    by_cases hk : k = key
    · subst hk
      simp [upsert, hp]
    · by_cases hpk : p k = true <;> simp [upsert, hk, hpk, ih]

end AnnotationIndex.Keyed
