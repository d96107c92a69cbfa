import AnnotationIndex.Definitions
import AnnotationIndex.Proofs.Annotation.Equality

/-!
# What a definition mentions

A definition mentions the definitions in its fields, and those of the annotations on the type with
all annotations in their values (`Definition.mentioned`). Definitions are finite trees, so that an
induction over what is mentioned reaches every definition (`Definition.induct`). `Definition.All`
says something of a definition and of everything below it; what equality respects passes to an equal
definition (`Definition.All.of_beq`).
-/

namespace AnnotationIndex

/-! ## Annotations inside annotations -/

mutual

/-- The annotation and the annotations in its values, at any depth. -/
def Annotation.parts : Annotation → List Annotation
  | ⟨definition, values⟩ => ⟨definition, values⟩ :: Value.partsNamed values

/-- The annotations in a value, at any depth. -/
def Value.parts : Value → List Annotation
  | .nested a => a.parts
  | .array elements => Value.partsAll elements
  | _ => []

/-- The annotations in several values. -/
def Value.partsAll : List Value → List Annotation
  | [] => []
  | v :: rest => v.parts ++ Value.partsAll rest

/-- The annotations in named values. -/
def Value.partsNamed : List (String × Value) → List Annotation
  | [] => []
  | (_, v) :: rest => v.parts ++ Value.partsNamed rest

end

/-- What is inside named values is inside one of them. -/
theorem Value.mem_partsNamed_iff {values : List (String × Value)} {a : Annotation} :
    a ∈ Value.partsNamed values ↔ ∃ v ∈ values, a ∈ v.2.parts := by
  induction values with
  | nil => simp [Value.partsNamed]
  | cons v rest ih => rw [Value.partsNamed, List.mem_append, ih, List.exists_mem_cons_iff]

/-- What is in an annotation is the annotation itself or is in its values. -/
theorem Annotation.mem_parts_iff {a p : Annotation} :
    p ∈ a.parts ↔ p = a ∨ p ∈ Value.partsNamed a.values := by
  cases a
  rw [parts, List.mem_cons]

/-- An annotation is one of its own parts. -/
theorem Annotation.mem_parts_self (a : Annotation) : a ∈ a.parts := by
  rw [mem_parts_iff]
  exact .inl rfl

/-- The type of an annotation is smaller than the annotation. -/
theorem Annotation.sizeOf_definition_lt (a : Annotation) : sizeOf a.definition < sizeOf a := by
  cases a
  simp only [mk.sizeOf_spec]
  omega

/-- The values of an annotation are smaller than the annotation. -/
theorem Annotation.sizeOf_values_lt (a : Annotation) : sizeOf a.values < sizeOf a := by
  cases a
  simp only [mk.sizeOf_spec]
  omega

mutual

/-- What is inside an annotation is no larger. -/
theorem Annotation.sizeOf_le_of_mem_parts : ∀ {a p : Annotation},
    p ∈ a.parts → sizeOf p ≤ sizeOf a
  | ⟨definition, values⟩, p, h => by
    rcases Annotation.mem_parts_iff.1 h with rfl | h
    · exact Nat.le_refl _
    · have hself := Annotation.sizeOf_values_lt ⟨definition, values⟩
      exact Nat.le_trans (Value.sizeOf_le_of_mem_partsNamed h) (Nat.le_of_lt hself)

/-- What is inside a value is no larger. -/
theorem Value.sizeOf_le_of_mem_parts : ∀ {v : Value} {p : Annotation},
    p ∈ v.parts → sizeOf p ≤ sizeOf v
  | .nested a, p, h => by
    have := Annotation.sizeOf_le_of_mem_parts (a := a) h
    simp only [Value.nested.sizeOf_spec]
    omega
  | .array elements, p, h => by
    rw [Value.parts] at h
    have := Value.sizeOf_le_of_mem_partsAll h
    simp only [Value.array.sizeOf_spec]
    omega
  | .boolean _, _, h | .integer _ _, _, h | .char _, _, h | .floating _ _, _, h
  | .string _, _, h | .classToken _, _, h | .enum _, _, h => by simp [Value.parts] at h

/-- What is inside array elements is no larger. -/
theorem Value.sizeOf_le_of_mem_partsAll : ∀ {vs : List Value} {p : Annotation},
    p ∈ Value.partsAll vs → sizeOf p ≤ sizeOf vs
  | [], _, h => nomatch h
  | v :: rest, p, h => by
    rw [Value.partsAll, List.mem_append] at h
    simp only [List.cons.sizeOf_spec]
    rcases h with h | h
    · have := Value.sizeOf_le_of_mem_parts h
      omega
    · have := Value.sizeOf_le_of_mem_partsAll h
      omega

/-- What is inside named values is no larger. -/
theorem Value.sizeOf_le_of_mem_partsNamed : ∀ {vs : List (String × Value)} {p : Annotation},
    p ∈ Value.partsNamed vs → sizeOf p ≤ sizeOf vs
  | [], _, h => nomatch h
  | (_, v) :: rest, p, h => by
    rw [Value.partsNamed, List.mem_append] at h
    simp only [List.cons.sizeOf_spec, Prod.mk.sizeOf_spec]
    rcases h with h | h
    · have := Value.sizeOf_le_of_mem_parts h
      omega
    · have := Value.sizeOf_le_of_mem_partsNamed h
      omega

end

/-! ## Definitions inside definitions -/

/-- The definition that a type holds is smaller. -/
theorem FieldType.sizeOf_lt_of_annotationType? : ∀ {type : FieldType} {d : Definition},
    type.annotationType? = some d → sizeOf d < sizeOf type
  | .nested _, d, h => by
    cases h
    simp
  | .array element, d, h => by
    rw [FieldType.annotationType?] at h
    have := FieldType.sizeOf_lt_of_annotationType? h
    simp only [FieldType.array.sizeOf_spec]
    omega
  | .basic _, _, h | .classToken, _, h | .enum _, _, h | .unknownArray, _, h => nomatch h

namespace Definition

/-- The definitions in the fields of a definition, and those of the annotations on the type and in
their values. -/
def mentioned (d : Definition) : List Definition :=
  d.fields.filterMap (fun f => f.2.annotationType?) ++
    (d.metas.flatMap Annotation.parts).map (·.definition)

/-- A definition mentions what its fields hold, and the types of what is inside its annotations. -/
theorem mem_mentioned_iff {d x : Definition} :
    x ∈ d.mentioned ↔ (∃ f ∈ d.fields, f.2.annotationType? = some x) ∨
      ∃ a ∈ d.metas, ∃ p ∈ a.parts, p.definition = x := by
  simp only [mentioned, List.mem_append, List.mem_filterMap, List.mem_map, List.mem_flatMap]
  grind

/-- What a definition mentions is smaller. -/
theorem sizeOf_lt_of_mem_mentioned {d x : Definition} (h : x ∈ d.mentioned) :
    sizeOf x < sizeOf d := by
  obtain ⟨name, retention, fields, metas⟩ := d
  rw [Definition.mk.sizeOf_spec]
  rcases mem_mentioned_iff.1 h with ⟨⟨n, type⟩, hf, hx⟩ | ⟨a, ha, p, hp, rfl⟩
  · have h1 := List.sizeOf_lt_of_mem hf
    have h2 := FieldType.sizeOf_lt_of_annotationType? hx
    simp only [Prod.mk.sizeOf_spec] at h1 h2
    omega
  · have h1 := List.sizeOf_lt_of_mem ha
    have h2 := Annotation.sizeOf_le_of_mem_parts hp
    have h3 := p.sizeOf_definition_lt
    simp only at h1
    omega

/-- Every definition satisfies what passes to a definition from all that it mentions. -/
theorem induct {P : Definition → Prop} (h : ∀ d, (∀ x ∈ d.mentioned, P x) → P d)
    (d : Definition) : P d :=
  h d fun x hx =>
    have := sizeOf_lt_of_mem_mentioned hx
    induct h x
termination_by sizeOf d

/-- The names that a definition mentions are names of definitions that it mentions. -/
theorem exists_of_mem_mentions {d : Definition} {n : String} (h : n ∈ d.mentions) :
    ∃ x ∈ d.mentioned, x.name = n := by
  rw [mentions, List.mem_append, List.mem_filterMap, List.mem_map] at h
  rcases h with ⟨f, hf, hn⟩ | ⟨a, ha, hn⟩
  · obtain ⟨x, hx, rfl⟩ := Option.map_eq_some_iff.1 hn
    exact ⟨x, mem_mentioned_iff.2 (.inl ⟨f, hf, hx⟩), rfl⟩
  · exact ⟨a.definition, mem_mentioned_iff.2 (.inr ⟨a, ha, a, a.mem_parts_self, rfl⟩), hn⟩

/-- The property holds of a definition and of everything below it. -/
inductive All (P : Definition → Prop) : Definition → Prop where
  | mk {d : Definition} (self : P d) (inside : ∀ x ∈ d.mentioned, All P x) : All P d

namespace All

variable {P Q : Definition → Prop} {d : Definition}

/-- What holds of everything in a definition holds of it. -/
theorem self (h : d.All P) : P d := by
  cases h with | mk h => exact h

/-- What holds of everything in a definition holds of everything in what it mentions. -/
theorem inside (h : d.All P) : ∀ x ∈ d.mentioned, x.All P := by
  cases h with | mk _ h => exact h

/-- What holds of everything in a definition holds there of whatever follows from it. -/
theorem mono (hPQ : ∀ d, P d → Q d) (h : d.All P) : d.All Q := by
  induction h with
  | mk hd _ ih => exact .mk (hPQ _ hd) ih

end All

end Definition

/-! ## Equal definitions mention equal definitions -/

/-- A type that equals one which holds a definition holds an equal one. -/
theorem FieldType.annotationType?_beq : ∀ {x y : FieldType}, x.beq y = true →
    ∀ {d : Definition}, x.annotationType? = some d →
      ∃ d', y.annotationType? = some d' ∧ d.beq d' = true
  | .nested _, y, h, d, hd => by
    cases hd
    cases y <;> simp only [FieldType.beq, Bool.false_eq_true] at h
    exact ⟨_, rfl, h⟩
  | .array element, y, h, d, hd => by
    cases y <;> simp only [FieldType.beq, Bool.false_eq_true] at h
    exact FieldType.annotationType?_beq (x := element) h hd
  | .basic _, _, _, _, hd | .classToken, _, _, _, hd | .enum _, _, _, _, hd
  | .unknownArray, _, _, _, hd => nomatch hd

mutual

/-- What is inside one of two equal annotations equals something inside the other. -/
theorem Annotation.exists_beq_of_mem_parts : ∀ {a b : Annotation}, a.beq b = true →
    ∀ p ∈ a.parts, ∃ q ∈ b.parts, p.beq q = true
  | ⟨definition, values⟩, ⟨definition', values'⟩, h, p, hp => by
    rcases Annotation.mem_parts_iff.1 hp with rfl | hp
    · exact ⟨_, Annotation.mem_parts_self _, h⟩
    · simp only [Bool.and_eq_true, Annotation.beq, beq_iff_eq] at h
      obtain ⟨q, hq, hpq⟩ := Value.exists_beq_of_mem_partsNamed h.2.2 p hp
      exact ⟨q, List.mem_cons_of_mem _ hq, hpq⟩

/-- What is inside one of two equal values equals something inside the other. -/
theorem Value.exists_beq_of_mem_parts : ∀ {v w : Value}, v.beq w = true →
    ∀ p ∈ v.parts, ∃ q ∈ w.parts, p.beq q = true
  | .nested a, w, h, p, hp => by
    cases w <;> simp only [Value.beq, Bool.false_eq_true] at h
    exact Annotation.exists_beq_of_mem_parts h p hp
  | .array vs, w, h, p, hp => by
    cases w <;> simp only [Value.beq, Bool.false_eq_true] at h
    exact Value.exists_beq_of_mem_partsAll h p hp
  | .boolean _, _, _, _, hp | .integer _ _, _, _, _, hp | .char _, _, _, _, hp
  | .floating _ _, _, _, _, hp | .string _, _, _, _, hp | .classToken _, _, _, _, hp
  | .enum _, _, _, _, hp => by simp [Value.parts] at hp

/-- What is inside array elements equals something inside equal ones. -/
theorem Value.exists_beq_of_mem_partsAll : ∀ {vs ws : List Value}, Value.beqList vs ws = true →
    ∀ p ∈ Value.partsAll vs, ∃ q ∈ Value.partsAll ws, p.beq q = true
  | [], _, _, _, hp => nomatch hp
  | _ :: _, [], h, _, _ => by simp [Value.beqList] at h
  | v :: vs, w :: ws, h, p, hp => by
    simp only [Value.beqList, Bool.and_eq_true] at h
    rw [Value.partsAll, List.mem_append] at hp
    simp only [Value.partsAll, List.mem_append]
    rcases hp with hp | hp
    · obtain ⟨q, hq, hpq⟩ := Value.exists_beq_of_mem_parts h.1 p hp
      exact ⟨q, .inl hq, hpq⟩
    · obtain ⟨q, hq, hpq⟩ := Value.exists_beq_of_mem_partsAll h.2 p hp
      exact ⟨q, .inr hq, hpq⟩

/-- What is inside named values equals something inside those that they are among. -/
theorem Value.exists_beq_of_mem_partsNamed : ∀ {vs ws : List (String × Value)},
    Value.within vs ws = true → ∀ p ∈ Value.partsNamed vs, ∃ q ∈ Value.partsNamed ws, p.beq q = true
  | [], _, _, _, hp => nomatch hp
  | (name, v) :: vs, ws, h, p, hp => by
    rw [Value.partsNamed, List.mem_append] at hp
    rw [Value.within, Bool.and_eq_true] at h
    rcases hp with hp | hp
    · have h := h.1
      cases hg : Keyed.get? name ws with
      | none => simp [hg] at h
      | some w =>
        rw [hg] at h
        obtain ⟨q, hq, hpq⟩ := Value.exists_beq_of_mem_parts h p hp
        exact ⟨q, Value.mem_partsNamed_iff.2 ⟨_, Keyed.mem_of_get? hg, hq⟩, hpq⟩
    · exact Value.exists_beq_of_mem_partsNamed h.2 p hp

end

namespace Definition

/-- What one of two equal definitions mentions, the other mentions as well. -/
theorem exists_beq_of_mem_mentioned {x y : Definition} (h : x.beq y = true) :
    ∀ d ∈ x.mentioned, ∃ d' ∈ y.mentioned, d.beq d' = true := by
  obtain ⟨name, retention, fields, metas⟩ := x
  simp only [Definition.beq, Bool.and_eq_true, decide_eq_true_eq, beq_iff_eq] at h
  intro d hd
  rcases mem_mentioned_iff.1 hd with ⟨f, hf, hd⟩ | ⟨a, ha, p, hp, rfl⟩
  · obtain ⟨type, hget, hb⟩ := FieldType.within_iff.1 h.1.2.2 f hf
    obtain ⟨d', hd', hdd'⟩ := FieldType.annotationType?_beq hb hd
    exact ⟨d', mem_mentioned_iff.2 (.inl ⟨_, Keyed.mem_of_get? hget, hd'⟩), hdd'⟩
  · obtain ⟨b, hb, hab⟩ := Annotation.within_iff.1 h.2.2 a ha
    obtain ⟨q, hq, hpq⟩ := Annotation.exists_beq_of_mem_parts hab p hp
    refine ⟨q.definition, mem_mentioned_iff.2 (.inr ⟨b, hb, q, hq, rfl⟩), ?_⟩
    exact Annotation.definition_beq_of_beq hpq

/-- Equal definitions have the same name. -/
theorem name_eq_of_beq {x y : Definition} (h : x.beq y = true) : x.name = y.name := by
  cases x
  simp only [Definition.beq, Bool.and_eq_true, decide_eq_true_eq] at h
  exact h.1.1

/-- What holds of everything in a definition holds of everything in one that equals it. -/
theorem All.of_beq {P : Definition → Prop} (hP : ∀ x y : Definition, x.beq y = true → P y → P x)
    (x : Definition) : ∀ {y : Definition}, x.beq y = true → y.All P → x.All P := by
  induction x using Definition.induct with
  | h x ih =>
    intro y h hy
    refine .mk (hP x y h hy.self) fun d hd => ?_
    obtain ⟨d', hd', hb⟩ := exists_beq_of_mem_mentioned h d hd
    exact ih d hd hb (hy.inside d' hd')

end Definition

end AnnotationIndex
