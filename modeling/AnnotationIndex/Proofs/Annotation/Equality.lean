import AnnotationIndex.Annotation.Equality
import AnnotationIndex.Proofs.Keyed
import Mathlib.Data.List.Perm.Subperm

/-!
# Equality of annotations is symmetric and transitive

Equality of field types, definitions, annotations and values (`beq`) compares one-sidedly: each
entry of the first is looked for in the second, and the numbers of entries agree. It is transitive
(`Definition.beq_trans`), and it is symmetric when nothing occurs twice in the first
(`Definition.beq_symm`): then each entry of the second is met, because different entries of the
first are never equal to the same one. Data in which nothing occurs twice are called `Distinct`.
-/

namespace AnnotationIndex

/-! ## Entries of one list among another -/

/-- Each field of the first list is among the second, with an equal type. -/
theorem FieldType.within_iff {xs ys : List (String × FieldType)} :
    FieldType.within xs ys = true ↔
      ∀ f ∈ xs, ∃ type, Keyed.get? f.1 ys = some type ∧ f.2.beq type = true := by
  induction xs with
  | nil => simp [FieldType.within]
  | cons f rest ih =>
    obtain ⟨name, type⟩ := f
    rw [FieldType.within, Bool.and_eq_true, ih, List.forall_mem_cons]
    refine and_congr_left' ?_
    cases Keyed.get? name ys <;> simp

/-- Each annotation of the first list equals one of the second. -/
theorem Annotation.within_iff {xs ys : List Annotation} :
    Annotation.within xs ys = true ↔ ∀ a ∈ xs, ∃ b ∈ ys, a.beq b = true := by
  induction xs with
  | nil => simp [within]
  | cons a rest ih =>
    rw [within, Bool.and_eq_true, ih, List.forall_mem_cons, List.any_eq_true]

/-- Equal annotations have equal types. -/
theorem Annotation.definition_beq_of_beq {a b : Annotation} (h : a.beq b = true) :
    a.definition.beq b.definition = true := by
  cases a
  rw [beq, Bool.and_eq_true] at h
  exact h.1

/-- Each value of the first list is among the second, with an equal value. -/
theorem Value.within_iff {xs ys : List (String × Value)} :
    Value.within xs ys = true ↔
      ∀ f ∈ xs, ∃ value, Keyed.get? f.1 ys = some value ∧ f.2.beq value = true := by
  induction xs with
  | nil => simp [Value.within]
  | cons f rest ih =>
    obtain ⟨name, value⟩ := f
    rw [Value.within, Bool.and_eq_true, ih, List.forall_mem_cons]
    refine and_congr_left' ?_
    cases Keyed.get? name ys <;> simp

/-! ## Transitivity -/

/-- Equality of floating-point numbers is transitive. -/
theorem Floating.beq_trans {u v w : Width} {x : Floating u} {y : Floating v} {z : Floating w}
    (h : x.beq y = true) (h' : y.beq z = true) : x.beq z = true := by
  cases x <;> cases y <;> simp only [Floating.beq, Bool.false_eq_true] at h <;>
    cases z <;> simp only [Floating.beq, Bool.false_eq_true] at h'
  · simp_all [Floating.beq]
  · simp only [Floating.beq, Bool.or_eq_true, Bool.and_eq_true, beq_iff_eq] at h h' ⊢
    grind

mutual

/-- Equality of field types is transitive. -/
theorem FieldType.beq_trans : ∀ {x y z : FieldType},
    x.beq y = true → y.beq z = true → x.beq z = true
  | .basic _, y, z, h, h' => by
    cases y <;> cases z <;> simp_all [FieldType.beq]
  | .classToken, y, z, h, h' => by
    cases y <;> cases z <;> simp_all [FieldType.beq]
  | .enum _, y, z, h, h' => by
    cases y <;> cases z <;> simp_all [FieldType.beq]
  | .unknownArray, y, z, h, h' => by
    cases y <;> cases z <;> simp_all [FieldType.beq]
  | .nested d, y, z, h, h' => by
    cases y <;> simp only [FieldType.beq, Bool.false_eq_true] at h
    cases z <;> simp only [FieldType.beq, Bool.false_eq_true] at h'
    exact Definition.beq_trans h h'
  | .array element, y, z, h, h' => by
    cases y <;> simp only [FieldType.beq, Bool.false_eq_true] at h
    cases z <;> simp only [FieldType.beq, Bool.false_eq_true] at h'
    next element' element'' => exact FieldType.beq_trans (x := element) h h'

/-- Equality of definitions is transitive. -/
theorem Definition.beq_trans : ∀ {x y z : Definition},
    x.beq y = true → y.beq z = true → x.beq z = true
  | ⟨name, _, fields, metas⟩, ⟨name', _, fields', metas'⟩, ⟨name'', _, fields'', metas''⟩,
      h, h' => by
    simp only [Definition.beq, Bool.and_eq_true, decide_eq_true_eq, beq_iff_eq] at h h' ⊢
    obtain ⟨⟨hn, hfl, hf⟩, hml, hm⟩ := h
    obtain ⟨⟨hn', hfl', hf'⟩, hml', hm'⟩ := h'
    exact ⟨⟨hn.trans hn', hfl.trans hfl', FieldType.within_trans hf hf'⟩, hml.trans hml',
      Annotation.within_trans hm hm'⟩

/-- Being among fields of equal types is transitive. -/
theorem FieldType.within_trans : ∀ {xs ys zs : List (String × FieldType)},
    FieldType.within xs ys = true → FieldType.within ys zs = true →
      FieldType.within xs zs = true
  | [], _, _, _, _ => rfl
  | (name, type) :: rest, ys, zs, h, h' => by
    simp only [FieldType.within, Bool.and_eq_true] at h ⊢
    refine ⟨?_, FieldType.within_trans h.2 h'⟩
    have h := h.1
    cases hy : Keyed.get? name ys with
    | none => rw [hy] at h; cases h
    | some other =>
      rw [hy] at h
      obtain ⟨type'', hz, h''⟩ := FieldType.within_iff.1 h' _ (Keyed.mem_of_get? hy)
      rw [hz]
      exact FieldType.beq_trans h h''

/-- Equality of annotations is transitive. -/
theorem Annotation.beq_trans : ∀ {x y z : Annotation},
    x.beq y = true → y.beq z = true → x.beq z = true
  | ⟨definition, values⟩, ⟨definition', values'⟩, ⟨definition'', values''⟩, h, h' => by
    simp only [Bool.and_eq_true, Annotation.beq, beq_iff_eq] at h h' ⊢
    exact ⟨Definition.beq_trans h.1 h'.1, h.2.1.trans h'.2.1, Value.within_trans h.2.2 h'.2.2⟩

/-- Being among equal annotations is transitive. -/
theorem Annotation.within_trans : ∀ {xs ys zs : List Annotation},
    Annotation.within xs ys = true → Annotation.within ys zs = true →
      Annotation.within xs zs = true
  | [], _, _, _, _ => rfl
  | a :: rest, ys, zs, h, h' => by
    simp only [Bool.and_eq_true, Annotation.within, List.any_eq_true] at h ⊢
    obtain ⟨⟨b, hb, hab⟩, hrest⟩ := h
    obtain ⟨c, hc, hbc⟩ := Annotation.within_iff.1 h' b hb
    exact ⟨⟨c, hc, Annotation.beq_trans hab hbc⟩, Annotation.within_trans hrest h'⟩

/-- Equality of values is transitive. -/
theorem Value.beq_trans : ∀ {x y z : Value}, x.beq y = true → y.beq z = true → x.beq z = true
  | .boolean _, y, z, h, h' => by
    cases y <;> cases z <;> simp_all [Value.beq]
  | .integer _ _, y, z, h, h' => by
    cases y <;> cases z <;> simp_all [Value.beq]
  | .char _, y, z, h, h' => by
    cases y <;> cases z <;> simp_all [Value.beq]
  | .string _, y, z, h, h' => by
    cases y <;> cases z <;> simp_all [Value.beq]
  | .classToken _, y, z, h, h' => by
    cases y <;> cases z <;> simp_all [Value.beq]
  | .enum _, y, z, h, h' => by
    cases y <;> cases z <;> simp_all [Value.beq]
  | .floating w x, y, z, h, h' => by
    cases y <;> simp only [Value.beq, Bool.false_eq_true] at h
    cases z <;> simp only [Value.beq, Bool.false_eq_true] at h'
    simp only [Value.beq, Bool.and_eq_true, decide_eq_true_eq] at h h' ⊢
    exact ⟨h.1.trans h'.1, Floating.beq_trans h.2 h'.2⟩
  | .nested a, y, z, h, h' => by
    cases y <;> simp only [Value.beq, Bool.false_eq_true] at h
    cases z <;> simp only [Value.beq, Bool.false_eq_true] at h'
    exact Annotation.beq_trans h h'
  | .array vs, y, z, h, h' => by
    cases y <;> simp only [Value.beq, Bool.false_eq_true] at h
    cases z <;> simp only [Value.beq, Bool.false_eq_true] at h'
    exact Value.beqList_trans h h'

/-- Equality of the elements of arrays is transitive. -/
theorem Value.beqList_trans : ∀ {xs ys zs : List Value},
    Value.beqList xs ys = true → Value.beqList ys zs = true → Value.beqList xs zs = true
  | [], [], zs, _, h' => h'
  | x :: xs, y :: ys, [], _, h' => by simp [Value.beqList] at h'
  | x :: xs, y :: ys, z :: zs, h, h' => by
    simp only [Value.beqList, Bool.and_eq_true] at h h' ⊢
    exact ⟨Value.beq_trans h.1 h'.1, Value.beqList_trans h.2 h'.2⟩
  | [], _ :: _, _, h, _ => by simp [Value.beqList] at h
  | _ :: _, [], _, h, _ => by simp [Value.beqList] at h

/-- Being among equal named values is transitive. -/
theorem Value.within_trans : ∀ {xs ys zs : List (String × Value)},
    Value.within xs ys = true → Value.within ys zs = true → Value.within xs zs = true
  | [], _, _, _, _ => rfl
  | (name, value) :: rest, ys, zs, h, h' => by
    simp only [Value.within, Bool.and_eq_true] at h ⊢
    refine ⟨?_, Value.within_trans h.2 h'⟩
    have h := h.1
    cases hy : Keyed.get? name ys with
    | none => rw [hy] at h; cases h
    | some other =>
      rw [hy] at h
      obtain ⟨value'', hz, h''⟩ := Value.within_iff.1 h' _ (Keyed.mem_of_get? hy)
      rw [hz]
      exact Value.beq_trans h h''

end

/-! ## Data in which nothing occurs twice -/

mutual

/-- Nothing occurs twice in the definitions that the type holds. -/
def FieldType.Distinct : FieldType → Prop
  | .nested d => d.Distinct
  | .array element => element.Distinct
  | _ => True

/-- No field and no annotation on the type occurs twice, also further inside. -/
def Definition.Distinct : Definition → Prop
  | ⟨_, _, fields, metas⟩ =>
    (Keyed.keys fields).Nodup ∧ FieldType.AllDistinct fields ∧
      (metas.Pairwise fun a b => a.beq b = false) ∧ Annotation.AllDistinct metas

/-- Nothing occurs twice in the types of the fields. -/
def FieldType.AllDistinct : List (String × FieldType) → Prop
  | [] => True
  | (_, type) :: rest => type.Distinct ∧ FieldType.AllDistinct rest

/-- No field is given two values, also further inside. -/
def Annotation.Distinct : Annotation → Prop
  | ⟨definition, values⟩ =>
    definition.Distinct ∧ (Keyed.keys values).Nodup ∧ Value.NamedDistinct values

/-- Nothing occurs twice in the annotations. -/
def Annotation.AllDistinct : List Annotation → Prop
  | [] => True
  | a :: rest => a.Distinct ∧ Annotation.AllDistinct rest

/-- Nothing occurs twice in the annotations that the value holds. -/
def Value.Distinct : Value → Prop
  | .nested a => a.Distinct
  | .array elements => Value.AllDistinct elements
  | _ => True

/-- Nothing occurs twice in the values. -/
def Value.AllDistinct : List Value → Prop
  | [] => True
  | v :: rest => v.Distinct ∧ Value.AllDistinct rest

/-- Nothing occurs twice in the named values. -/
def Value.NamedDistinct : List (String × Value) → Prop
  | [] => True
  | (_, v) :: rest => v.Distinct ∧ Value.NamedDistinct rest

end

/-- Nothing occurs twice in several fields when nothing does in the type of each. -/
theorem FieldType.allDistinct_iff {fields : List (String × FieldType)} :
    FieldType.AllDistinct fields ↔ ∀ f ∈ fields, f.2.Distinct := by
  induction fields with
  | nil => simp [FieldType.AllDistinct]
  | cons f rest ih => rw [FieldType.AllDistinct, ih, List.forall_mem_cons]

/-- Nothing occurs twice in several annotations when nothing does in each. -/
theorem Annotation.allDistinct_iff {as : List Annotation} :
    Annotation.AllDistinct as ↔ ∀ a ∈ as, a.Distinct := by
  induction as with
  | nil => simp [AllDistinct]
  | cons a rest ih => rw [AllDistinct, ih, List.forall_mem_cons]

/-! ## Symmetry -/

/-- The entries of a list have partners of their own among others, when no two of them meet the
same one. -/
theorem exists_matching {α : Type} {r : α → α → Prop} {xs ys : List α}
    (h : ∀ a ∈ xs, ∃ b ∈ ys, r a b)
    (hp : xs.Pairwise fun a a' => ∀ b ∈ ys, r a b → ¬ r a' b) :
    ∃ zs, List.Forall₂ r xs zs ∧ List.Subperm zs ys := by
  induction xs generalizing ys with
  | nil => exact ⟨[], .nil, List.nil_subperm⟩
  | cons a xs ih =>
    rw [List.forall_mem_cons] at h
    rw [List.pairwise_cons] at hp
    obtain ⟨⟨b, hb, hab⟩, h⟩ := h
    obtain ⟨l, t, rfl⟩ := List.append_of_mem hb
    -- the partner of `a` is nobody else's, so that the others find theirs without it
    have hrest : ∀ a' ∈ xs, ∃ b' ∈ l ++ t, r a' b' := by
      intro a' ha'
      obtain ⟨b', hb', hab'⟩ := h a' ha'
      have hne : b' ≠ b := by
        rintro rfl
        exact hp.1 a' ha' b' hb hab hab'
      refine ⟨b', ?_, hab'⟩
      simpa [hne] using hb'
    have hsub : ∀ c ∈ l ++ t, c ∈ l ++ b :: t := fun c hc => by
      rw [List.mem_append, List.mem_cons]
      exact (List.mem_append.1 hc).imp_right .inr
    obtain ⟨zs, hzs, hle⟩ := ih hrest (hp.2.imp fun hne c hc => hne c (hsub c hc))
    exact ⟨b :: zs, .cons hab hzs,
      ((List.subperm_cons b).2 hle).trans List.perm_middle.symm.subperm⟩

/-- In a pointwise relation every entry on the right has one on the left. -/
theorem exists_left_of_forall₂ {α : Type} {r : α → α → Prop} {xs ys : List α}
    (h : List.Forall₂ r xs ys) : ∀ b ∈ ys, ∃ a ∈ xs, r a b := by
  induction h with
  | nil => simp
  | cons hab _ ih =>
    intro b hb
    rcases List.mem_cons.1 hb with rfl | hb
    · exact ⟨_, List.mem_cons_self, hab⟩
    · obtain ⟨a, ha, hr⟩ := ih b hb
      exact ⟨a, List.mem_cons_of_mem _ ha, hr⟩

/-- In a list of the same length every entry is met, when no two entries of the first list meet the
same one. -/
theorem exists_partner {α : Type} {r : α → α → Prop} {xs ys : List α}
    (hl : xs.length = ys.length) (h : ∀ a ∈ xs, ∃ b ∈ ys, r a b)
    (hp : xs.Pairwise fun a a' => ∀ b ∈ ys, r a b → ¬ r a' b) : ∀ b ∈ ys, ∃ a ∈ xs, r a b := by
  obtain ⟨zs, hzs, hle⟩ := exists_matching h hp
  have hperm : zs.Perm ys := hle.perm_of_length_le (Nat.le_of_eq (hl.symm.trans hzs.length_eq))
  exact fun b hb => exists_left_of_forall₂ hzs b (hperm.mem_iff.2 hb)

/-- In keyed lists of the same length every entry is met, when the keys of the first
are distinct. -/
theorem Keyed.exists_partner {κ ν : Type} [DecidableEq κ] {r : ν → ν → Prop}
    {xs ys : List (κ × ν)}
    (hn : (Keyed.keys xs).Nodup) (hl : xs.length = ys.length)
    (h : ∀ e ∈ xs, ∃ v, Keyed.get? e.1 ys = some v ∧ r e.2 v) :
    ∀ e ∈ ys, ∃ v, Keyed.get? e.1 xs = some v ∧ r v e.2 := by
  have hsub : Keyed.keys xs ⊆ Keyed.keys ys := by
    intro k hk
    obtain ⟨e, he, rfl⟩ := List.mem_map.1 hk
    obtain ⟨v, hv, -⟩ := h e he
    exact List.mem_map.2 ⟨_, Keyed.mem_of_get? hv, rfl⟩
  have hperm : (Keyed.keys xs).Perm (Keyed.keys ys) :=
    (List.subperm_of_subset hn hsub).perm_of_length_le (by simp [Keyed.keys, hl])
  intro e he
  have hk : e.1 ∈ Keyed.keys xs := hperm.mem_iff.2 (List.mem_map.2 ⟨e, he, rfl⟩)
  obtain ⟨⟨k, v⟩, hv, hkv⟩ := List.mem_map.1 hk
  obtain ⟨w, hw, hr⟩ := h _ hv
  dsimp only at hkv hw hr
  subst hkv
  have he' := Keyed.get?_of_mem (hperm.nodup hn) (show (e.1, e.2) ∈ ys from he)
  rw [hw, Option.some.injEq] at he'
  subst he'
  exact ⟨v, Keyed.get?_of_mem hn hv, hr⟩

/-- Equality of floating-point numbers is symmetric. -/
theorem Floating.beq_symm {u v : Width} {x : Floating u} {y : Floating v}
    (h : x.beq y = true) : y.beq x = true := by
  cases x <;> cases y <;> simp only [Floating.beq, Bool.false_eq_true] at h ⊢
  · simp_all
  · simp only [Bool.or_eq_true, Bool.and_eq_true, beq_iff_eq] at h ⊢
    grind

/-- Fields that are among as many others contain these, if each of their types is equal in both
directions to what it equals. -/
theorem FieldType.within_symm {xs ys : List (String × FieldType)} (hn : (Keyed.keys xs).Nodup)
    (hl : xs.length = ys.length) (hs : ∀ f ∈ xs, ∀ {y}, f.2.beq y = true → y.beq f.2 = true)
    (h : FieldType.within xs ys = true) : FieldType.within ys xs = true := by
  refine FieldType.within_iff.2 (Keyed.exists_partner (r := fun x y => y.beq x = true) hn hl
    fun f hf => ?_)
  obtain ⟨type, hget, hb⟩ := FieldType.within_iff.1 h f hf
  exact ⟨type, hget, hs f hf hb⟩

/-- Named values that are among as many others contain these, if each of them is equal in both
directions to what it equals. -/
theorem Value.within_symm {xs ys : List (String × Value)} (hn : (Keyed.keys xs).Nodup)
    (hl : xs.length = ys.length) (hs : ∀ v ∈ xs, ∀ {y}, v.2.beq y = true → y.beq v.2 = true)
    (h : Value.within xs ys = true) : Value.within ys xs = true := by
  refine Value.within_iff.2 (Keyed.exists_partner (r := fun x y => y.beq x = true) hn hl
    fun v hv => ?_)
  obtain ⟨value, hget, hb⟩ := Value.within_iff.1 h v hv
  exact ⟨value, hget, hs v hv hb⟩

/-- Annotations of which no two are equal never equal the same one, if each of them is equal in both
directions to what it equals. -/
theorem Annotation.pairwise_not_beq {xs ys : List Annotation}
    (hp : xs.Pairwise fun a b => a.beq b = false)
    (hs : ∀ a ∈ xs, ∀ {y}, a.beq y = true → y.beq a = true) :
    xs.Pairwise fun a a' => ∀ b ∈ ys, a.beq b = true → ¬ a'.beq b = true := by
  refine hp.imp_of_mem fun {a a'} _ ha' hne b _ hab hab' => ?_
  rw [beq_trans hab (hs a' ha' hab')] at hne
  cases hne

/-- Annotations of which no two are equal and that are among as many others contain these, if each
of them is equal in both directions to what it equals. -/
theorem Annotation.within_symm {xs ys : List Annotation}
    (hp : xs.Pairwise fun a b => a.beq b = false) (hl : xs.length = ys.length)
    (hs : ∀ a ∈ xs, ∀ {y}, a.beq y = true → y.beq a = true)
    (h : Annotation.within xs ys = true) : Annotation.within ys xs = true := by
  have hmet := exists_partner hl (within_iff.1 h) (pairwise_not_beq hp hs)
  refine Annotation.within_iff.2 fun b hb => ?_
  obtain ⟨a, ha, hab⟩ := hmet b hb
  exact ⟨a, ha, hs a ha hab⟩

mutual

/-- Equality of field types in which nothing occurs twice is symmetric. -/
theorem FieldType.beq_symm : ∀ {x y : FieldType}, x.Distinct → x.beq y = true → y.beq x = true
  | .basic _, y, _, h => by
    cases y <;> simp_all [FieldType.beq]
  | .classToken, y, _, h => by
    cases y <;> simp_all [FieldType.beq]
  | .enum _, y, _, h => by
    cases y <;> simp_all [FieldType.beq]
  | .unknownArray, y, _, h => by
    cases y <;> simp_all [FieldType.beq]
  | .nested d, y, hd, h => by
    cases y <;> simp only [FieldType.beq, Bool.false_eq_true] at h ⊢
    exact Definition.beq_symm hd h
  | .array element, y, hd, h => by
    cases y <;> simp only [FieldType.beq, Bool.false_eq_true] at h ⊢
    exact FieldType.beq_symm (x := element) hd h

/-- Equality of definitions is symmetric. -/
theorem Definition.beq_symm : ∀ {x y : Definition}, x.Distinct → x.beq y = true → y.beq x = true
  | ⟨name, _, fields, metas⟩, ⟨name', _, fields', metas'⟩, hd, h => by
    simp only [Definition.beq, Bool.and_eq_true, decide_eq_true_eq, beq_iff_eq] at h ⊢
    obtain ⟨⟨hn, hfl, hf⟩, hml, hm⟩ := h
    obtain ⟨hkeys, hfields, hpair, hmetas⟩ := hd
    have hsymm := Annotation.symm_of_mem hmetas
    exact ⟨⟨hn.symm, hfl.symm, FieldType.within_symm hkeys hfl (FieldType.symm_of_mem hfields) hf⟩,
      hml.symm, Annotation.within_symm hpair hml hsymm hm⟩

/-- Among fields in which nothing occurs twice, each type is equal in both directions to what it
equals. -/
theorem FieldType.symm_of_mem : ∀ {fields : List (String × FieldType)},
    FieldType.AllDistinct fields →
      ∀ f ∈ fields, ∀ {y : FieldType}, f.2.beq y = true → y.beq f.2 = true
  | [], _, _, hf, _, _ => nomatch hf
  | (_, type) :: rest, hd, f, hf, y, h => by
    rcases List.mem_cons.1 hf with he | hf
    · rw [he] at h ⊢
      exact FieldType.beq_symm (x := type) hd.1 h
    · exact FieldType.symm_of_mem hd.2 f hf h

/-- Equality of annotations is symmetric. -/
theorem Annotation.beq_symm : ∀ {x y : Annotation}, x.Distinct → x.beq y = true → y.beq x = true
  | ⟨definition, values⟩, ⟨definition', values'⟩, hd, h => by
    simp only [Bool.and_eq_true, Annotation.beq, beq_iff_eq] at h ⊢
    exact ⟨Definition.beq_symm hd.1 h.1, h.2.1.symm,
      Value.within_symm hd.2.1 h.2.1 (Value.symm_of_mem hd.2.2) h.2.2⟩

/-- Among annotations in which nothing occurs twice, each is equal in both directions to what it
equals. -/
theorem Annotation.symm_of_mem : ∀ {as : List Annotation}, Annotation.AllDistinct as →
    ∀ a ∈ as, ∀ {y : Annotation}, a.beq y = true → y.beq a = true
  | [], _, _, ha, _, _ => nomatch ha
  | a :: rest, hd, b, hb, y, h => by
    rcases List.mem_cons.1 hb with he | hb
    · rw [he] at h ⊢
      exact Annotation.beq_symm (x := a) hd.1 h
    · exact Annotation.symm_of_mem hd.2 b hb h

/-- Equality of values is symmetric. -/
theorem Value.beq_symm : ∀ {x y : Value}, x.Distinct → x.beq y = true → y.beq x = true
  | .boolean _, y, _, h => by
    cases y <;> simp_all [Value.beq]
  | .integer _ _, y, _, h => by
    cases y <;> simp_all [Value.beq]
  | .char _, y, _, h => by
    cases y <;> simp_all [Value.beq]
  | .string _, y, _, h => by
    cases y <;> simp_all [Value.beq]
  | .classToken _, y, _, h => by
    cases y <;> simp_all [Value.beq]
  | .enum _, y, _, h => by
    cases y <;> simp_all [Value.beq]
  | .floating w x, y, _, h => by
    cases y <;> simp only [Value.beq, Bool.false_eq_true] at h ⊢
    simp only [Bool.and_eq_true, decide_eq_true_eq] at h ⊢
    exact ⟨h.1.symm, Floating.beq_symm h.2⟩
  | .nested a, y, hd, h => by
    cases y <;> simp only [Value.beq, Bool.false_eq_true] at h ⊢
    exact Annotation.beq_symm hd h
  | .array vs, y, hd, h => by
    cases y <;> simp only [Value.beq, Bool.false_eq_true] at h ⊢
    exact Value.beqList_symm hd h

/-- Equality of array elements in which nothing occurs twice is symmetric. -/
theorem Value.beqList_symm : ∀ {xs ys : List Value}, Value.AllDistinct xs →
    Value.beqList xs ys = true → Value.beqList ys xs = true
  | [], [], _, _ => rfl
  | [], _ :: _, _, h => by simp [Value.beqList] at h
  | _ :: _, [], _, h => by simp [Value.beqList] at h
  | x :: xs, y :: ys, hd, h => by
    simp only [Value.beqList, Bool.and_eq_true] at h ⊢
    exact ⟨Value.beq_symm hd.1 h.1, Value.beqList_symm hd.2 h.2⟩

/-- Among values in which nothing occurs twice, each is equal in both directions to what it
equals. -/
theorem Value.symm_of_mem : ∀ {values : List (String × Value)}, Value.NamedDistinct values →
    ∀ v ∈ values, ∀ {y : Value}, v.2.beq y = true → y.beq v.2 = true
  | [], _, _, hv, _, _ => nomatch hv
  | (_, value) :: rest, hd, v, hv, y, h => by
    rcases List.mem_cons.1 hv with he | hv
    · rw [he] at h ⊢
      exact Value.beq_symm (x := value) hd.1 h
    · exact Value.symm_of_mem hd.2 v hv h

end

namespace AnnotationSet

variable {s t u : List Annotation}

/-- Of two equal sets both are empty, or neither. -/
theorem eq_nil_iff_of_beq (h : beq s t = true) : s = [] ↔ t = [] := by
  simp only [beq, Bool.and_eq_true, beq_iff_eq] at h
  rw [← List.length_eq_zero_iff, h.1, List.length_eq_zero_iff]

/-- Equality of sets is transitive. -/
theorem beq_trans (h : beq s t = true) (h' : beq t u = true) : beq s u = true := by
  simp only [beq, Bool.and_eq_true, beq_iff_eq] at h h' ⊢
  exact ⟨h.1.trans h'.1, Annotation.within_trans h.2 h'.2⟩

/-- Equality of sets in which nothing occurs twice is symmetric. -/
theorem beq_symm (hp : s.Pairwise fun a b => a.beq b = false) (hd : Annotation.AllDistinct s)
    (h : beq s t = true) : beq t s = true := by
  simp only [beq, Bool.and_eq_true, beq_iff_eq] at h ⊢
  have hsymm := Annotation.symm_of_mem hd
  exact ⟨h.1.symm, Annotation.within_symm hp h.1 hsymm h.2⟩

end AnnotationSet

end AnnotationIndex
