import AnnotationIndex.Proofs.Definition.Collection

/-!
# Definitions and annotations without NaN

Only a NaN makes data differ from itself. Annotations in which nothing occurs twice and that hold no
NaN equal themselves, and so do definitions (`Annotation.beq_self`, `Definition.beq_self`); a
definition then unifies with itself (`Definition.unify_self`).
-/

namespace AnnotationIndex

/-! ## Data without NaN -/

mutual

/-- No number in the values of the annotation is NaN. -/
def Annotation.NaNFree : Annotation → Prop
  | ⟨_, values⟩ => Value.NamedNaNFree values

/-- No number in the value is NaN. -/
def Value.NaNFree : Value → Prop
  | .floating _ x => x ≠ .nan
  | .nested a => a.NaNFree
  | .array elements => Value.AllNaNFree elements
  | _ => True

/-- No number in the values is NaN. -/
def Value.AllNaNFree : List Value → Prop
  | [] => True
  | v :: rest => v.NaNFree ∧ Value.AllNaNFree rest

/-- No number in the named values is NaN. -/
def Value.NamedNaNFree : List (String × Value) → Prop
  | [] => True
  | (_, v) :: rest => v.NaNFree ∧ Value.NamedNaNFree rest

end

/-- No annotation on the type holds a NaN, nor does one on a type that is mentioned. -/
inductive Definition.NaNFree : Definition → Prop where
  | mk {d : Definition} (metas : ∀ a ∈ d.metas, a.NaNFree)
      (inside : ∀ x ∈ d.mentioned, NaNFree x) : NaNFree d

/-! ## What equals itself -/

/-- A floating-point number equals itself unless it is NaN. -/
theorem Floating.beq_self {w : Width} {x : Floating w} (h : x ≠ .nan) : x.beq x = true := by
  cases x with
  | nan => exact absurd rfl h
  | infinite => simp [beq]
  | finite => simp [beq]

/-- A type equals itself when the definition that it holds does. -/
theorem FieldType.beq_self : ∀ {type : FieldType},
    (∀ d, type.annotationType? = some d → d.beq d = true) → type.beq type = true
  | .nested d, h => by
    rw [FieldType.beq]
    exact h d rfl
  | .array element, h => by
    rw [FieldType.annotationType?] at h
    rw [FieldType.beq]
    exact FieldType.beq_self h
  | .basic _, _ | .classToken, _ | .enum _, _ | .unknownArray, _ => by simp [FieldType.beq]

mutual

/-- An annotation without NaN equals itself when the definitions of the annotations in it do. -/
theorem Annotation.beq_self : ∀ {a : Annotation}, a.Distinct → a.NaNFree →
    (∀ p ∈ a.parts, p.definition.beq p.definition = true) → a.beq a = true
  | ⟨definition, values⟩, hd, hn, hp => by
    unfold Annotation.NaNFree at hn
    unfold Annotation.parts at hp
    simp only [Bool.and_eq_true, Annotation.beq, beq_self_eq_true, true_and]
    refine ⟨hp _ List.mem_cons_self, Value.within_iff.2 fun v hv => ?_⟩
    exact ⟨v.2, Keyed.get?_of_mem hd.2.1 hv, Value.beq_self_of_mem hd.2.2 hn
      (fun p hpm => hp p (List.mem_cons_of_mem _ hpm)) v hv⟩

/-- A value without NaN equals itself when the types of the annotations in it do. -/
theorem Value.beq_self : ∀ {v : Value}, v.Distinct → v.NaNFree →
    (∀ p ∈ v.parts, p.definition.beq p.definition = true) → v.beq v = true
  | .floating _ x, _, hn, _ => by
    rw [Value.NaNFree] at hn
    simp [Value.beq, Floating.beq_self hn]
  | .nested a, hd, hn, hp => by
    rw [Value.Distinct] at hd
    rw [Value.NaNFree] at hn
    rw [Value.parts] at hp
    rw [Value.beq]
    exact Annotation.beq_self hd hn hp
  | .array vs, hd, hn, hp => by
    rw [Value.Distinct] at hd
    rw [Value.NaNFree] at hn
    rw [Value.parts] at hp
    rw [Value.beq]
    exact Value.beqList_self hd hn hp
  | .boolean _, _, _, _ | .integer _ _, _, _, _ | .char _, _, _, _ | .string _, _, _, _
  | .classToken _, _, _, _ | .enum _, _, _, _ => by simp [Value.beq]

/-- Array elements without NaN equal themselves when the types of the annotations in them do. -/
theorem Value.beqList_self : ∀ {vs : List Value}, Value.AllDistinct vs → Value.AllNaNFree vs →
    (∀ p ∈ Value.partsAll vs, p.definition.beq p.definition = true) → Value.beqList vs vs = true
  | [], _, _, _ => rfl
  | v :: vs, hd, hn, hp => by
    rw [Value.partsAll] at hp
    rw [Value.beqList, Bool.and_eq_true]
    exact ⟨Value.beq_self hd.1 hn.1 fun p hpm => hp p (List.mem_append_left _ hpm),
      Value.beqList_self hd.2 hn.2 fun p hpm => hp p (List.mem_append_right _ hpm)⟩

/-- Each of several named values without NaN equals itself when the types in them do. -/
theorem Value.beq_self_of_mem : ∀ {values : List (String × Value)}, Value.NamedDistinct values →
    Value.NamedNaNFree values →
    (∀ p ∈ Value.partsNamed values, p.definition.beq p.definition = true) →
    ∀ v ∈ values, v.2.beq v.2 = true
  | [], _, _, _, _, hv => nomatch hv
  | (_, value) :: rest, hd, hn, hp, v, hv => by
    rw [Value.partsNamed] at hp
    rcases List.mem_cons.1 hv with rfl | hv
    · exact Value.beq_self hd.1 hn.1 fun p hpm => hp p (List.mem_append_left _ hpm)
    · exact Value.beq_self_of_mem hd.2 hn.2 (fun p hpm => hp p (List.mem_append_right _ hpm)) v hv

end

/-- Annotations that equal themselves make up sets that do. -/
theorem AnnotationSet.beq_self {as : List Annotation} (h : ∀ a ∈ as, a.beq a = true) :
    AnnotationSet.beq as as = true := by
  rw [AnnotationSet.beq, beq_self_eq_true, Bool.true_and]
  exact Annotation.within_iff.2 fun a ha => ⟨a, ha, h a ha⟩

namespace Definition

/-- The annotations on a type equal themselves when all that the definition mentions does. -/
theorem metas_beq_self {d : Definition} (hd : d.Distinct) (hn : d.NaNFree)
    (h : ∀ x ∈ d.mentioned, x.beq x = true) : AnnotationSet.beq d.metas d.metas = true := by
  cases hn with
  | mk metas _ =>
    refine AnnotationSet.beq_self fun a ha => ?_
    have hinside := Annotation.allDistinct_iff.1 (distinct_iff.1 hd).2.2.2 a ha
    refine Annotation.beq_self hinside (metas a ha) fun p hp => ?_
    exact h _ (mem_mentioned_iff.2 (.inr ⟨a, ha, p, hp, rfl⟩))

/-- **A definition without NaN equals itself**, if nothing occurs twice in it. -/
theorem beq_self {d : Definition} : d.Distinct → d.NaNFree → d.beq d = true := by
  induction d using Definition.induct with
  | h d ih =>
    intro hd hn
    have hinside : ∀ x ∈ d.mentioned, x.beq x = true := fun x hx => by
      cases hn with
      | mk _ inside => exact ih x hx (hd.mentioned hx) (inside x hx)
    have hmetas := metas_beq_self hd hn hinside
    obtain ⟨hkeys, -⟩ := distinct_iff.1 hd
    obtain ⟨name, retention, fields, metas⟩ := d
    rw [AnnotationSet.beq] at hmetas
    rw [Definition.beq, hmetas]
    simp only [decide_true, beq_self_eq_true, Bool.true_and, Bool.and_true]
    refine FieldType.within_iff.2 fun f hf => ⟨f.2, Keyed.get?_of_mem hkeys hf, ?_⟩
    exact FieldType.beq_self fun x hx => hinside x (mem_mentioned_iff.2 (.inl ⟨f, hf, hx⟩))

end Definition

/-! ## What unifies with itself -/

/-- A type unifies with itself to itself when the definition that it holds does. -/
theorem FieldType.unify_self : ∀ {type : FieldType},
    (∀ d, type.annotationType? = some d → d.unify d = some d) → type.unify type = some type
  | .nested d, h => by
    rw [FieldType.unify, h d rfl]
    rfl
  | .array element, h => by
    rw [FieldType.annotationType?] at h
    rw [FieldType.unify, FieldType.unify_self h]
    rfl
  | .basic _, _ | .classToken, _ | .enum _, _ | .unknownArray, _ => by simp [FieldType.unify]

/-- Fields that are among others unify with these to themselves. -/
theorem FieldType.unifyFields_self {fields others : List (String × FieldType)}
    (h : ∀ f ∈ fields, Keyed.get? f.1 others = some f.2 ∧ f.2.unify f.2 = some f.2) :
    FieldType.unifyFields fields others = some fields := by
  induction fields with
  | nil => rfl
  | cons f fields ih =>
    obtain ⟨⟨hget, hunify⟩, hrest⟩ := List.forall_mem_cons.1 h
    rw [FieldType.unifyFields, hget]
    simp only [hunify, ih hrest, Option.map_some]

/-- **A definition without NaN unifies with itself to itself**, if nothing occurs twice in it. -/
theorem Definition.unify_self {d : Definition} : d.Distinct → d.NaNFree → d.unify d = some d := by
  induction d using Definition.induct with
  | h d ih =>
    intro hd hn
    have hmetas : AnnotationSet.beq d.metas d.metas = true := by
      cases hn with
      | mk metas inside =>
        exact metas_beq_self hd (.mk metas inside) fun x hx =>
          beq_self (hd.mentioned hx) (inside x hx)
    obtain ⟨hkeys, -⟩ := distinct_iff.1 hd
    have hfields : FieldType.unifyFields d.fields d.fields = some d.fields := by
      refine FieldType.unifyFields_self fun f hf => ⟨Keyed.get?_of_mem hkeys hf, ?_⟩
      refine FieldType.unify_self fun x hx => ?_
      have hmem := mem_mentioned_iff.2 (.inl ⟨f, hf, hx⟩)
      cases hn with
      | mk _ inside => exact ih x hmem (hd.mentioned hmem) (inside x hmem)
    obtain ⟨name, retention, fields, metas⟩ := d
    simp only at hmetas hfields
    simp [Definition.unify, hmetas, Retention.unify_self, hfields]

/-! ## Reachable definitions -/

namespace Scene.Reaches

variable {s : Scene}

/-- Without NaN in the annotations on the types that are reached, there is none further inside. -/
theorem naNFree (hn : ∀ d, s.Reaches d → ∀ a ∈ d.metas, a.NaNFree) (d : Definition) :
    s.Reaches d → d.NaNFree := by
  induction d using Definition.induct with
  | h d ih => exact fun h => .mk (hn d h) fun x hx => ih x hx (h.mentioned hx)

/-- The annotations on a type that a scene reaches equal themselves when none of them holds a
NaN. -/
theorem metas_beq_self (hs : s.Distinct) (hn : ∀ d, s.Reaches d → ∀ a ∈ d.metas, a.NaNFree)
    {d : Definition} (h : s.Reaches d) : AnnotationSet.beq d.metas d.metas = true :=
  Definition.metas_beq_self (h.distinct hs) (naNFree hn d h) fun x hx =>
    Definition.beq_self ((h.mentioned hx).distinct hs) (naNFree hn x (h.mentioned hx))

end Scene.Reaches

end AnnotationIndex
