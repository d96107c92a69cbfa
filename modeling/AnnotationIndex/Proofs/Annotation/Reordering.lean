import AnnotationIndex.Proofs.Annotation.Set

/-!
# The order of entries does not count

Fields, values and annotations stand in lists. `Reorders` relates data that differ in the order of
one such list, at any depth. They equal the same data (`Definition.Reorders.beq_eq`), and as long as
nothing occurs twice in the one, nothing does in the other (`Definition.Reorders.distinct`).
-/

namespace AnnotationIndex

/-! ## Reordering -/

mutual

/-- A list inside the type is put into another order. -/
inductive FieldType.Reorders : FieldType → FieldType → Prop where
  | nested {d d' : Definition} (h : d.Reorders d') : FieldType.Reorders (.nested d) (.nested d')
  | array {type type' : FieldType} (h : type.Reorders type') :
      FieldType.Reorders (.array type) (.array type')

/-- The fields of a definition, the annotations on it, or a list inside one of them, are put into
another order. -/
inductive Definition.Reorders : Definition → Definition → Prop where
  | fields {name : String} {retention : Option Retention}
      {fields fields' : List (String × FieldType)} {metas : List Annotation}
      (h : fields.Perm fields') :
      Definition.Reorders ⟨name, retention, fields, metas⟩ ⟨name, retention, fields', metas⟩
  | field {name field : String} {retention : Option Retention}
      {before after : List (String × FieldType)} {type type' : FieldType} {metas : List Annotation}
      (h : type.Reorders type') :
      Definition.Reorders ⟨name, retention, before ++ (field, type) :: after, metas⟩
        ⟨name, retention, before ++ (field, type') :: after, metas⟩
  | metas {name : String} {retention : Option Retention} {fields : List (String × FieldType)}
      {metas metas' : List Annotation} (h : AnnotationSet.Reorders metas metas') :
      Definition.Reorders ⟨name, retention, fields, metas⟩ ⟨name, retention, fields, metas'⟩

/-- Annotations, or a list inside one of them, are put into another order. -/
inductive AnnotationSet.Reorders : List Annotation → List Annotation → Prop where
  | order {as as' : List Annotation} (h : as.Perm as') : AnnotationSet.Reorders as as'
  | inside {before after : List Annotation} {a a' : Annotation} (h : a.Reorders a') :
      AnnotationSet.Reorders (before ++ a :: after) (before ++ a' :: after)

/-- The values of an annotation, or a list inside one of them or inside its type, are put into
another order. -/
inductive Annotation.Reorders : Annotation → Annotation → Prop where
  | definition {d d' : Definition} {values : List (String × Value)} (h : d.Reorders d') :
      Annotation.Reorders ⟨d, values⟩ ⟨d', values⟩
  | values {d : Definition} {values values' : List (String × Value)} (h : values.Perm values') :
      Annotation.Reorders ⟨d, values⟩ ⟨d, values'⟩
  | value {d : Definition} {field : String} {before after : List (String × Value)} {v v' : Value}
      (h : v.Reorders v') :
      Annotation.Reorders ⟨d, before ++ (field, v) :: after⟩ ⟨d, before ++ (field, v') :: after⟩

/-- A list inside the value is put into another order. The elements of an array keep theirs. -/
inductive Value.Reorders : Value → Value → Prop where
  | nested {a a' : Annotation} (h : a.Reorders a') : Value.Reorders (.nested a) (.nested a')
  | array {before after : List Value} {v v' : Value} (h : v.Reorders v') :
      Value.Reorders (.array (before ++ v :: after)) (.array (before ++ v' :: after))

end

/-! ## What is reordered equals the same -/

/-- The order of fields does not matter to what they are among. -/
theorem FieldType.within_perm {xs xs' : List (String × FieldType)} (h : xs.Perm xs')
    (ys : List (String × FieldType)) : FieldType.within xs' ys = FieldType.within xs ys := by
  rw [Bool.eq_iff_iff]
  simp only [FieldType.within_iff, h.mem_iff]

/-- The order of named values does not matter to what they are among. -/
theorem Value.within_perm {xs xs' : List (String × Value)} (h : xs.Perm xs')
    (ys : List (String × Value)) : Value.within xs' ys = Value.within xs ys := by
  rw [Bool.eq_iff_iff]
  simp only [Value.within_iff, h.mem_iff]

/-- The order of annotations does not matter to what they are among. -/
theorem Annotation.within_perm {xs xs' : List Annotation} (h : xs.Perm xs')
    (ys : List Annotation) : Annotation.within xs' ys = Annotation.within xs ys := by
  rw [Bool.eq_iff_iff]
  simp only [h.mem_iff, within_iff]

/-- An element of an array may be exchanged for one that equals the same. -/
theorem Value.beqList_congr {v v' : Value} (h : ∀ y, v'.beq y = v.beq y) (after : List Value) :
    ∀ before ys : List Value, Value.beqList (before ++ v' :: after) ys =
      Value.beqList (before ++ v :: after) ys
  | [], [] => rfl
  | _ :: _, [] => rfl
  | [], y :: ys => by simp only [List.nil_append, Value.beqList, h]
  | w :: before, y :: ys => by
    simp only [List.cons_append, Value.beqList, Value.beqList_congr h after before ys]

mutual

/-- A reordered field type equals the same types. -/
theorem FieldType.Reorders.beq_eq : ∀ {x x' : FieldType}, x.Reorders x' → ∀ y, x'.beq y = x.beq y
  | _, _, .nested h, y => by
    cases y <;> simp only [FieldType.beq, h.beq_eq]
  | _, _, .array h, y => by
    cases y <;> simp only [FieldType.beq, h.beq_eq]

/-- A reordered definition equals the same definitions. -/
theorem Definition.Reorders.beq_eq : ∀ {x x' : Definition}, x.Reorders x' → ∀ y, x'.beq y = x.beq y
  | _, _, .fields h, y => by
    simp only [Definition.beq, FieldType.within_perm h, h.length_eq]
  | _, _, .field h, y => by
    rw [Bool.eq_iff_iff]
    simp only [Definition.beq, Bool.and_eq_true, FieldType.within_iff,
      List.forall_mem_append, List.forall_mem_cons, h.beq_eq, List.length_append, List.length_cons]
  | _, _, .metas h, y => by
    have h := h.beq_eq y.metas
    simp only [AnnotationSet.beq] at h
    simp only [Definition.beq, h]

/-- A reordered set equals the same sets. -/
theorem AnnotationSet.Reorders.beq_eq : ∀ {xs xs' : List Annotation},
    AnnotationSet.Reorders xs xs' → ∀ ys, AnnotationSet.beq xs' ys = AnnotationSet.beq xs ys
  | _, _, .order h, ys => by
    rw [AnnotationSet.beq, AnnotationSet.beq, Annotation.within_perm h, h.length_eq]
  | _, _, .inside h, ys => by
    rw [Bool.eq_iff_iff]
    simp only [AnnotationSet.beq, Bool.and_eq_true, Annotation.within_iff,
      List.forall_mem_append, List.forall_mem_cons, h.beq_eq, List.length_append, List.length_cons]

/-- A reordered annotation equals the same annotations. -/
theorem Annotation.Reorders.beq_eq : ∀ {x x' : Annotation}, x.Reorders x' → ∀ y, x'.beq y = x.beq y
  | _, _, .definition h, y => by
    simp only [h.beq_eq, Annotation.beq]
  | _, _, .values h, y => by
    simp only [Value.within_perm h, h.length_eq, Annotation.beq]
  | _, _, .value h, y => by
    rw [Bool.eq_iff_iff]
    simp only [Bool.and_eq_true, Annotation.beq, Value.within_iff,
      List.forall_mem_append, List.forall_mem_cons, h.beq_eq, List.length_append, List.length_cons]

/-- A reordered value equals the same values. -/
theorem Value.Reorders.beq_eq : ∀ {x x' : Value}, x.Reorders x' → ∀ y, x'.beq y = x.beq y
  | _, _, .nested h, y => by
    cases y <;> simp only [Value.beq, h.beq_eq]
  | _, _, .array h, y => by
    cases y <;> simp only [Value.beq, Value.beqList_congr h.beq_eq]

end

/-! ## What is reordered still holds nothing twice -/

mutual

/-- Nothing occurs twice in a reordered field type. -/
theorem FieldType.Reorders.distinct : ∀ {x x' : FieldType},
    x.Reorders x' → x.Distinct → x'.Distinct
  | _, _, .nested h, hd => h.distinct hd
  | _, _, .array h, hd => h.distinct hd

/-- Nothing occurs twice in a reordered definition. -/
theorem Definition.Reorders.distinct : ∀ {x x' : Definition},
    x.Reorders x' → x.Distinct → x'.Distinct
  | _, _, .fields h, hd => by
    obtain ⟨hkeys, hfields, hmetas⟩ := Definition.distinct_iff_metas.1 hd
    exact Definition.distinct_iff_metas.2
      ⟨(h.map _).nodup_iff.1 hkeys, fun f hf => hfields f (h.mem_iff.2 hf), hmetas⟩
  | _, _, .field h, hd => by
    obtain ⟨hkeys, hfields, hmetas⟩ := Definition.distinct_iff_metas.1 hd
    simp only [List.forall_mem_append, List.forall_mem_cons] at hfields
    refine Definition.distinct_iff_metas.2 ⟨by simpa [Keyed.keys] using hkeys, ?_, hmetas⟩
    simp only [List.forall_mem_append, List.forall_mem_cons]
    exact ⟨hfields.1, h.distinct hfields.2.1, hfields.2.2⟩
  | _, _, .metas h, hd => by
    obtain ⟨hkeys, hfields, hmetas⟩ := Definition.distinct_iff_metas.1 hd
    exact Definition.distinct_iff_metas.2 ⟨hkeys, hfields, h.distinct hmetas⟩

/-- Nothing occurs twice in a reordered set. -/
theorem AnnotationSet.Reorders.distinct : ∀ {xs xs' : List Annotation},
    AnnotationSet.Reorders xs xs' → AnnotationSet.Distinct xs → AnnotationSet.Distinct xs'
  | _, _, .order h, hd => hd.perm h
  | _, _, .inside h, hd =>
    hd.replace h.beq_eq (h.distinct (hd.inside _ (List.mem_append_right _ List.mem_cons_self)))

/-- Nothing occurs twice in a reordered annotation. -/
theorem Annotation.Reorders.distinct : ∀ {x x' : Annotation},
    x.Reorders x' → x.Distinct → x'.Distinct
  | _, _, .definition h, hd => ⟨h.distinct hd.1, hd.2⟩
  | _, _, .values h, hd => by
    obtain ⟨hdefinition, hkeys, hvalues⟩ := Annotation.distinct_iff.1 hd
    exact Annotation.distinct_iff.2
      ⟨hdefinition, (h.map _).nodup_iff.1 hkeys, fun v hv => hvalues v (h.mem_iff.2 hv)⟩
  | _, _, .value h, hd => by
    obtain ⟨hdefinition, hkeys, hvalues⟩ := Annotation.distinct_iff.1 hd
    simp only [List.forall_mem_append, List.forall_mem_cons] at hvalues
    refine Annotation.distinct_iff.2 ⟨hdefinition, by simpa [Keyed.keys] using hkeys, ?_⟩
    simp only [List.forall_mem_append, List.forall_mem_cons]
    exact ⟨hvalues.1, h.distinct hvalues.2.1, hvalues.2.2⟩

/-- Nothing occurs twice in a reordered value. -/
theorem Value.Reorders.distinct : ∀ {x x' : Value}, x.Reorders x' → x.Distinct → x'.Distinct
  | _, _, .nested h, hd => h.distinct hd
  | _, _, .array h, hd => by
    rw [Value.Distinct, Value.allDistinct_iff, List.forall_mem_append, List.forall_mem_cons] at hd ⊢
    exact ⟨hd.1, h.distinct hd.2.1, hd.2.2⟩

end

end AnnotationIndex
