import AnnotationIndex.Proofs.Definition.NaN
import Mathlib.Data.List.Induction

/-!
# Sets of annotations

Data that equal anything hold no NaN, neither in their values nor in the annotations on the types
that they mention (`Annotation.nowhereNaN_of_beq`), and data that hold none equal themselves. Sets
are built by adding annotations that equal none of those present and by removing annotations; what
can be built are the sets in which nothing occurs twice (`AnnotationSet.built_iff`).
-/

namespace AnnotationIndex

/-! ## Data with a NaN equal nothing -/

mutual

/-- An annotation that equals another one holds no NaN in its values. -/
theorem Annotation.naNFree_of_beq : ∀ {a b : Annotation}, a.beq b = true → a.NaNFree
  | ⟨_, values⟩, b, h => by
    simp only [Bool.and_eq_true, Annotation.beq] at h
    exact Value.namedNaNFree_of_within h.2.2

/-- A value that equals another one holds no NaN. -/
theorem Value.naNFree_of_beq : ∀ {v w : Value}, v.beq w = true → v.NaNFree
  | .floating _ x, w, h => by
    rintro rfl
    cases w <;> simp [Value.beq, Floating.beq] at h
  | .nested a, w, h => by
    cases w <;> simp only [Value.beq, Bool.false_eq_true] at h
    exact Annotation.naNFree_of_beq (a := a) h
  | .array vs, w, h => by
    cases w <;> simp only [Value.beq, Bool.false_eq_true] at h
    exact Value.allNaNFree_of_beqList h
  | .boolean _, _, _ | .integer _ _, _, _ | .char _, _, _ | .string _, _, _ | .classToken _, _, _
  | .enum _, _, _ => trivial

/-- Elements that equal others hold no NaN. -/
theorem Value.allNaNFree_of_beqList : ∀ {vs ws : List Value},
    Value.beqList vs ws = true → Value.AllNaNFree vs
  | [], _, _ => trivial
  | _ :: _, [], h => by simp [Value.beqList] at h
  | v :: vs, w :: ws, h => by
    rw [Value.beqList, Bool.and_eq_true] at h
    exact ⟨Value.naNFree_of_beq h.1, Value.allNaNFree_of_beqList h.2⟩

/-- Values that are among equal ones hold no NaN. -/
theorem Value.namedNaNFree_of_within : ∀ {vs ws : List (String × Value)},
    Value.within vs ws = true → Value.NamedNaNFree vs
  | [], _, _ => trivial
  | (name, v) :: vs, ws, h => by
    rw [Value.within, Bool.and_eq_true] at h
    refine ⟨?_, Value.namedNaNFree_of_within h.2⟩
    have h := h.1
    cases hg : Keyed.get? name ws with
    | none => simp [hg] at h
    | some w =>
      rw [hg] at h
      exact Value.naNFree_of_beq h

end

/-- A definition that equals another one has no NaN in the annotations on types that it holds. -/
theorem Definition.naNFree_of_beq {d : Definition} :
    ∀ {e : Definition}, d.beq e = true → d.NaNFree := by
  induction d using Definition.induct with
  | h d ih =>
    intro e h
    refine .mk (fun a ha => ?_) fun x hx => ?_
    · obtain ⟨name, retention, fields, metas⟩ := d
      simp only [Definition.beq, Bool.and_eq_true] at h
      obtain ⟨b, -, hab⟩ := Annotation.within_iff.1 h.2.2 a ha
      exact Annotation.naNFree_of_beq hab
    · obtain ⟨y, -, hxy⟩ := Definition.exists_beq_of_mem_mentioned h x hx
      exact ih x hx hxy

/-- No NaN is in the values of the annotation, nor in the annotations on the types that it or an
annotation in its values has. -/
structure Annotation.NowhereNaN (a : Annotation) : Prop where
  values : a.NaNFree
  types : ∀ p ∈ a.parts, p.definition.NaNFree

/-- No NaN is in the value, nor in the annotations on the types of the annotations in it. -/
structure Value.NowhereNaN (v : Value) : Prop where
  values : v.NaNFree
  types : ∀ p ∈ v.parts, p.definition.NaNFree

/-- An annotation that equals another one has a NaN nowhere. -/
theorem Annotation.nowhereNaN_of_beq {a b : Annotation} (h : a.beq b = true) : a.NowhereNaN where
  values := naNFree_of_beq h
  types p hp := by
    obtain ⟨q, -, hpq⟩ := exists_beq_of_mem_parts h p hp
    exact Definition.naNFree_of_beq (definition_beq_of_beq hpq)

/-- A value that equals another one has a NaN nowhere. -/
theorem Value.nowhereNaN_of_beq {v w : Value} (h : v.beq w = true) : v.NowhereNaN where
  values := naNFree_of_beq h
  types p hp := by
    obtain ⟨q, -, hpq⟩ := exists_beq_of_mem_parts h p hp
    have hwhole := Annotation.nowhereNaN_of_beq hpq
    exact hwhole.types p p.mem_parts_self

/-- An annotation without NaN equals itself. -/
theorem Annotation.NowhereNaN.beq_self {a : Annotation} (h : a.NowhereNaN) (ha : a.Distinct) :
    a.beq a = true :=
  Annotation.beq_self ha h.values fun p hp =>
    Definition.beq_self (ha.part hp).definition (h.types p hp)

/-- A value without NaN equals itself. -/
theorem Value.NowhereNaN.beq_self {v : Value} (h : v.NowhereNaN) (hv : v.Distinct) :
    v.beq v = true :=
  Value.beq_self hv h.values fun p hp =>
    Definition.beq_self (Value.distinct_of_mem_parts hv hp).definition (h.types p hp)

/-! ## Sets in which nothing occurs twice -/

/-- Nothing occurs twice in a set of annotations. -/
structure AnnotationSet.Distinct (s : List Annotation) : Prop where
  unequal : s.Pairwise fun a b => a.beq b = false
  inside : ∀ a ∈ s, a.Distinct

/-- Nothing occurs twice in a definition when nothing does in its fields and in its set of
annotations. -/
theorem Definition.distinct_iff_metas {d : Definition} : d.Distinct ↔
    (Keyed.keys d.fields).Nodup ∧ (∀ f ∈ d.fields, f.2.Distinct) ∧
      AnnotationSet.Distinct d.metas := by
  rw [Definition.distinct_iff, FieldType.allDistinct_iff, Annotation.allDistinct_iff]
  exact ⟨fun ⟨hk, hf, hp, hi⟩ => ⟨hk, hf, hp, hi⟩, fun ⟨hk, hf, hp, hi⟩ => ⟨hk, hf, hp, hi⟩⟩

/-- Nothing occurs twice in several values when nothing does in each. -/
theorem Value.allDistinct_iff {vs : List Value} : Value.AllDistinct vs ↔ ∀ v ∈ vs, v.Distinct := by
  induction vs with
  | nil => simp [Value.AllDistinct]
  | cons v rest ih => rw [Value.AllDistinct, ih, List.forall_mem_cons]

/-- Nothing occurs twice in named values when nothing does in each. -/
theorem Value.namedDistinct_iff {vs : List (String × Value)} :
    Value.NamedDistinct vs ↔ ∀ v ∈ vs, v.2.Distinct := by
  induction vs with
  | nil => simp [Value.NamedDistinct]
  | cons v rest ih => rw [Value.NamedDistinct, ih, List.forall_mem_cons]

/-- Nothing occurs twice in an annotation when nothing does in its type and in its values. -/
theorem Annotation.distinct_iff {a : Annotation} : a.Distinct ↔
    a.definition.Distinct ∧ (Keyed.keys a.values).Nodup ∧ ∀ v ∈ a.values, v.2.Distinct := by
  cases a
  rw [Distinct, Value.namedDistinct_iff]

namespace AnnotationSet.Distinct

variable {s t : List Annotation}

/-- No annotation equals another one, in either direction. -/
theorem unequal_both (h : Distinct s) :
    s.Pairwise fun a b => a.beq b = false ∧ b.beq a = false := by
  refine h.unequal.imp_of_mem fun {a b} _ hb hab => ⟨hab, ?_⟩
  rw [← Bool.not_eq_true] at hab ⊢
  exact fun hba => hab <| Annotation.beq_symm (h.inside b hb) hba

/-- The order of a set in which nothing occurs twice does not matter. -/
theorem perm (h : Distinct s) (ht : s.Perm t) : Distinct t where
  unequal := ((ht.pairwise_iff fun h => h.symm).1 h.unequal_both).imp fun h => h.1
  inside a ha := h.inside a (ht.mem_iff.2 ha)

/-- An annotation may be exchanged for one that equals the same annotations. -/
theorem replace {before after : List Annotation} {a a' : Annotation}
    (h : Distinct (before ++ a :: after)) (heq : ∀ y, a'.beq y = a.beq y) (ha' : a'.Distinct) :
    Distinct (before ++ a' :: after) := by
  have hinside := h.inside
  have hunequal := h.unequal
  rw [List.forall_mem_append, List.forall_mem_cons] at hinside
  rw [List.pairwise_append, List.pairwise_cons] at hunequal
  obtain ⟨hbefore, ha, hafter⟩ := hinside
  obtain ⟨hl, ⟨hr, hrr⟩, hlr⟩ := hunequal
  refine ⟨?_, List.forall_mem_append.2 ⟨hbefore, List.forall_mem_cons.2 ⟨ha', hafter⟩⟩⟩
  rw [List.pairwise_append, List.pairwise_cons]
  refine ⟨hl, ⟨fun b hb => (heq b).trans (hr b hb), hrr⟩, fun b hb => ?_⟩
  refine List.forall_mem_cons.2 ⟨?_, fun c hc => hlr b hb c (List.mem_cons_of_mem _ hc)⟩
  -- whatever equals `a'` is equalled by it, hence by `a`
  have hab := hlr b hb a List.mem_cons_self
  rw [← Bool.not_eq_true] at hab ⊢
  intro hba'
  have hab' : a.beq b = true := (heq b).symm.trans <| Annotation.beq_symm (hbefore b hb) hba'
  exact hab <| Annotation.beq_symm ha hab'

end AnnotationSet.Distinct

/-! ## Sets as they are built -/

/-- The sets of annotations that arise by adding and removing annotations. -/
inductive AnnotationSet.Built : List Annotation → Prop where
  | empty : AnnotationSet.Built []
  | insert {s : List Annotation} {a : Annotation} (h : AnnotationSet.Built s) (ha : a.Distinct) :
      AnnotationSet.Built (AnnotationSet.insert s a)
  | remove {s : List Annotation} (h : AnnotationSet.Built s) (name : String) :
      AnnotationSet.Built (AnnotationSet.remove s name)
  | ofList {as : List Annotation} (h : ∀ a ∈ as, a.Distinct) :
      AnnotationSet.Built (AnnotationSet.ofList as)

namespace AnnotationSet

variable {s : List Annotation} {a : Annotation}

/-- Nothing occurs twice in the empty set. -/
theorem Distinct.empty : Distinct [] := ⟨.nil, nofun⟩

/-- An insertion adds nothing a second time. -/
theorem Distinct.insert (h : Distinct s) (ha : a.Distinct) : Distinct (insert s a) := by
  rw [AnnotationSet.insert]
  split
  · exact h
  · next hc =>
    simp only [contains, List.any_eq_true, not_exists, not_and, Bool.not_eq_true] at hc
    refine ⟨List.pairwise_append.2 ⟨h.unequal, List.pairwise_singleton .., fun b hb c hc' => ?_⟩,
      List.forall_mem_append.2 ⟨h.inside, by simpa using ha⟩⟩
    rw [List.mem_singleton.1 hc']
    exact hc b hb

/-- Nothing occurs twice after a removal. -/
theorem Distinct.remove (h : Distinct s) (name : String) : Distinct (remove s name) where
  unequal := h.unequal.sublist List.eraseP_sublist
  inside a ha := h.inside a (List.eraseP_sublist.mem ha)

/-- Insertions one after the other add nothing a second time. -/
theorem Distinct.foldl_insert {as : List Annotation} (h : Distinct s) (has : ∀ a ∈ as, a.Distinct) :
    Distinct (as.foldl AnnotationSet.insert s) := by
  induction as generalizing s with
  | nil => exact h
  | cons a as ih =>
    rw [List.forall_mem_cons] at has
    exact ih (h.insert has.1) has.2

/-- Annotations of which none equals a later one form a set as they are. -/
theorem ofList_eq_self (h : s.Pairwise fun a b => a.beq b = false) : ofList s = s := by
  induction s using List.reverseRecOn with
  | nil => rfl
  | append_singleton s a ih =>
    rw [List.pairwise_append] at h
    have hc : contains s a = false := by
      simpa [contains] using fun b hb => h.2.2 b hb a (List.mem_singleton_self a)
    rw [ofList, List.foldl_append, ← ofList, ih h.1]
    simp [insert, hc]

/-- The sets that can be built are those in which nothing occurs twice. -/
theorem built_iff : Built s ↔ Distinct s := by
  constructor
  · intro h
    induction h with
    | empty => exact .empty
    | insert _ ha ih => exact ih.insert ha
    | remove _ name ih => exact ih.remove name
    | ofList h => exact Distinct.empty.foldl_insert h
  · intro h
    rw [← ofList_eq_self h.unequal]
    exact .ofList h.inside

/-! ### Equality of sets -/

/-- The annotations of a set that equals another one have a NaN nowhere. -/
theorem nowhereNaN_of_beq {t : List Annotation} (h : beq s t = true) : ∀ a ∈ s, a.NowhereNaN := by
  intro a ha
  rw [beq, Bool.and_eq_true] at h
  obtain ⟨b, -, hab⟩ := Annotation.within_iff.1 h.2 a ha
  exact Annotation.nowhereNaN_of_beq hab

/-- A set in which nothing occurs twice is equal in both directions to what it equals. -/
theorem Distinct.beq_symm {t : List Annotation} (hs : Distinct s) (h : beq s t = true) :
    beq t s = true := by
  have hinside := Annotation.allDistinct_iff.2 hs.inside
  exact AnnotationSet.beq_symm hs.unequal hinside h

/-- A set in which nothing occurs twice, without NaN, equals itself. -/
theorem Distinct.beq_self (hs : Distinct s) (hn : ∀ a ∈ s, a.NowhereNaN) : beq s s = true :=
  AnnotationSet.beq_self fun a ha => (hn a ha).beq_self (hs.inside a ha)

/-! ### Membership -/

/-- A set contains an annotation when one of its own equals it. -/
theorem contains_iff : contains s a = true ↔ ∃ b ∈ s, b.beq a = true := by
  rw [contains, List.any_eq_true]

/-- An annotation that is added is in the set, and so is what equals it. -/
theorem contains_insert {b : Annotation} :
    contains (insert s a) b = true ↔ contains s b = true ∨ a.beq b = true := by
  rw [insert]
  split
  · next hc =>
    refine ⟨.inl, fun h => h.elim id fun hab => ?_⟩
    obtain ⟨c, hcs, hca⟩ := contains_iff.1 hc
    exact contains_iff.2 ⟨c, hcs, Annotation.beq_trans hca hab⟩
  · simp [contains]

/-- After an insertion, what was in the set is in it, and the annotation, unless another one equals
it. -/
theorem mem_insert_iff {b : Annotation}
    (h : ∀ c ∈ s, c.beq a = true → c = a) : b ∈ insert s a ↔ b ∈ s ∨ b = a := by
  rw [insert]
  split
  · next hc =>
    obtain ⟨c, hcs, hca⟩ := contains_iff.1 hc
    refine ⟨.inl, fun hb => hb.elim id fun hb => ?_⟩
    rw [hb, ← h c hcs hca]
    exact hcs
  · rw [List.mem_append, List.mem_singleton]

/-- Adding an annotation that equals itself twice is adding it once. -/
theorem insert_insert_self (h : a.beq a = true) : insert (insert s a) a = insert s a := by
  rw [insert, if_pos (contains_insert.2 (.inr h))]

/-- No two annotations of a set in which nothing occurs twice equal the same one. -/
theorem Distinct.pairwise_not_beq {t : List Annotation} (hs : Distinct s) :
    s.Pairwise fun a a' => ∀ b ∈ t, a.beq b = true → ¬ a'.beq b = true :=
  Annotation.pairwise_not_beq hs.unequal fun a ha => Annotation.beq_symm (hs.inside a ha)

/-- A set in which nothing occurs twice is no larger than one that it is among. -/
theorem Distinct.length_le {t : List Annotation} (hs : Distinct s)
    (h : Annotation.within s t = true) : s.length ≤ t.length := by
  have hmeet := Annotation.within_iff.1 h
  obtain ⟨zs, hzs, hle⟩ := exists_matching hmeet hs.pairwise_not_beq
  exact hzs.length_eq ▸ hle.length_le

/-- A set without NaN is among another one that contains what it contains. -/
theorem Distinct.within_of_contains {t : List Annotation} (hs : Distinct s) (ht : Distinct t)
    (hn : ∀ a ∈ s, a.NowhereNaN) (h : ∀ a, contains s a = true → contains t a = true) :
    Annotation.within s t = true := by
  refine Annotation.within_iff.2 fun a ha => ?_
  obtain ⟨b, hb, hba⟩ := contains_iff.1 (h a
    (contains_iff.2 ⟨a, ha, (hn a ha).beq_self (hs.inside a ha)⟩))
  exact ⟨b, hb, Annotation.beq_symm (ht.inside b hb) hba⟩

/-- What a set contains, a set that it is among contains. -/
theorem Distinct.contains_of_within {t : List Annotation} (hs : Distinct s)
    (h : Annotation.within s t = true) (a : Annotation) (ha : contains s a = true) :
    contains t a = true := by
  obtain ⟨b, hb, hba⟩ := contains_iff.1 ha
  obtain ⟨c, hc, hbc⟩ := Annotation.within_iff.1 h b hb
  have hcb := Annotation.beq_symm (hs.inside b hb) hbc
  exact contains_iff.2 ⟨c, hc, Annotation.beq_trans hcb hba⟩

/-- Sets without NaN are equal when they hold the same annotations. -/
theorem Distinct.beq_iff_contains {t : List Annotation} (hs : Distinct s) (ht : Distinct t)
    (hns : ∀ a ∈ s, a.NowhereNaN) (hnt : ∀ a ∈ t, a.NowhereNaN) :
    beq s t = true ↔ ∀ a, contains s a = true ↔ contains t a = true := by
  constructor
  · intro h a
    have h' := hs.beq_symm h
    rw [beq, Bool.and_eq_true] at h h'
    exact ⟨hs.contains_of_within h.2 a, ht.contains_of_within h'.2 a⟩
  · intro h
    have hst := hs.within_of_contains ht hns fun a => (h a).1
    have hts := ht.within_of_contains hs hnt fun a => (h a).2
    rw [beq, Bool.and_eq_true, beq_iff_eq]
    exact ⟨Nat.le_antisymm (hs.length_le hst) (ht.length_le hts), hst⟩

end AnnotationSet

end AnnotationIndex
