import AnnotationIndex.Proofs.Definition.NaN

/-!
# The order of what definitions say

A definition is below another one when that one says the same and perhaps more: it may know a policy
or the element type of an array where the first does not. The order of field types is that of the
definitions that they hold. Definitions which are below one another agree in all that they say
(`Definition.Below.agrees`): they are equal and have the same policies, their own and those of the
definitions in their fields.
-/

namespace AnnotationIndex

/-! ## Types and what they hold -/

namespace FieldType

/-- A type holds a definition if one that fits it does. -/
theorem Fits.exists_annotationType? {x y : FieldType} (h : x.Fits y) {d : Definition}
    (hd : x.annotationType? = some d) : ∃ e, y.annotationType? = some e := by
  induction h with
  | nested => exact ⟨_, rfl⟩
  | array _ ih => exact ih hd
  | basic | classToken | enum | unknown | known => cases hd

/-- Types that fit one another are equal, if the definitions that they hold are. -/
theorem Fits.beq {x y : FieldType} (h : x.Fits y) (h' : y.Fits x)
    (hd : ∀ d e, x.annotationType? = some d → y.annotationType? = some e → d.beq e = true) :
    x.beq y = true := by
  induction h with
  | basic | classToken | enum | unknown => simp [FieldType.beq]
  | nested =>
    rw [FieldType.beq]
    exact hd _ _ rfl rfl
  | array _ ih =>
    cases h' with
    | array h' =>
      rw [FieldType.beq]
      exact ih h' hd
  | known => cases h'

end FieldType

/-! ## Definitions that can be compared -/

/-- At any depth nothing occurs twice in the definition, and no annotation on a type holds a NaN. -/
structure Definition.Comparable (d : Definition) : Prop where
  distinct : d.Distinct
  naNFree : d.NaNFree

/-- The definition that the type holds, if any, can be compared. -/
def FieldType.Comparable (type : FieldType) : Prop :=
  ∀ d, type.annotationType? = some d → d.Comparable

namespace Definition

variable {x d e : Definition}

/-- A definition mentions what the type of a field holds. -/
theorem mem_mentioned_of_field {field : String} {type : FieldType}
    (ht : Keyed.get? field d.fields = some type) (hx : type.annotationType? = some x) :
    x ∈ d.mentioned :=
  mem_mentioned_iff.2 (.inl ⟨_, Keyed.mem_of_get? ht, hx⟩)

/-- The annotations on a type without NaN hold none in their values. -/
theorem NaNFree.metas (h : d.NaNFree) : ∀ a ∈ d.metas, a.NaNFree := by
  cases h with | mk h => exact h

/-- What a definition without NaN mentions is without NaN. -/
theorem NaNFree.inside (h : d.NaNFree) : ∀ x ∈ d.mentioned, x.NaNFree := by
  cases h with | mk _ h => exact h

namespace Comparable

/-- A definition that can be compared has no field twice. -/
theorem nodup (h : d.Comparable) : (Keyed.keys d.fields).Nodup := (distinct_iff.1 h.distinct).1

/-- The types of the fields of a definition that can be compared can be compared. -/
theorem field (h : d.Comparable) {field : String} {type : FieldType}
    (ht : Keyed.get? field d.fields = some type) : type.Comparable := fun x hx =>
  ⟨h.distinct.of_field (Keyed.mem_of_get? ht) hx,
    h.naNFree.inside x (mem_mentioned_of_field ht hx)⟩

/-- The annotations on a type equal themselves when the definition can be compared. -/
theorem metas_beq_self (h : d.Comparable) : AnnotationSet.beq d.metas d.metas = true :=
  Definition.metas_beq_self h.distinct h.naNFree fun x hx =>
    beq_self (h.distinct.mentioned hx) (h.naNFree.inside x hx)

/-- Equality of the annotations on a type is symmetric when the definition can be compared. -/
theorem metas_symm (h : d.Comparable) {as : List Annotation}
    (hd : AnnotationSet.beq d.metas as = true) : AnnotationSet.beq as d.metas = true := by
  obtain ⟨-, -, hpair, hmetas⟩ := distinct_iff.1 h.distinct
  exact AnnotationSet.beq_symm hpair hmetas hd

end Comparable

end Definition

/-! ## The order -/

/-- The second definition says what the first says, and perhaps more. -/
inductive Definition.Below : Definition → Definition → Prop where
  | mk {d e : Definition} (name : d.name = e.name) (retains : d.Retains e)
      (metas : AnnotationSet.beq d.metas e.metas = true)
      (length : d.fields.length = e.fields.length)
      (fields : ∀ field type, Keyed.get? field d.fields = some type →
        ∃ type', Keyed.get? field e.fields = some type' ∧ type.Fits type')
      (inside : ∀ field type type' x y, Keyed.get? field d.fields = some type →
        Keyed.get? field e.fields = some type' → type.annotationType? = some x →
        type'.annotationType? = some y → Below x y) : Below d e

/-- The second type fits what the first fits, and the definition that it holds says what that of the
first says. -/
structure FieldType.Below (x y : FieldType) : Prop where
  fits : x.Fits y
  inside : ∀ d e, x.annotationType? = some d → y.annotationType? = some e → d.Below e

namespace Definition

variable {d e : Definition}

/-- A definition is below another one when they agree in all but policies and types, and it has no
policy, or the same, and lower types. -/
theorem below_iff : d.Below e ↔ d.name = e.name ∧ d.Retains e ∧
    AnnotationSet.beq d.metas e.metas = true ∧ d.fields.length = e.fields.length ∧
    ∀ field type, Keyed.get? field d.fields = some type →
      ∃ type', Keyed.get? field e.fields = some type' ∧ type.Below type' := by
  constructor
  · rintro ⟨name, retains, metas, length, fields, inside⟩
    refine ⟨name, retains, metas, length, fun field type ht => ?_⟩
    obtain ⟨type', ht', hfits⟩ := fields field type ht
    exact ⟨type', ht', hfits, fun x y => inside field type type' x y ht ht'⟩
  · rintro ⟨name, retains, metas, length, fields⟩
    refine .mk name retains metas length (fun field type ht => ?_)
      fun field type type' x y ht ht' hx hy => ?_
    · obtain ⟨type', ht', hbelow⟩ := fields field type ht
      exact ⟨type', ht', hbelow.fits⟩
    · obtain ⟨_, hget, hbelow⟩ := fields field type ht
      cases hget.symm.trans ht'
      exact hbelow.inside x y hx hy

/-- A field of a definition has a lower type than the field of what is above it. -/
theorem Below.fields (h : d.Below e) {field : String} {type : FieldType}
    (ht : Keyed.get? field d.fields = some type) :
    ∃ type', Keyed.get? field e.fields = some type' ∧ type.Below type' :=
  (below_iff.1 h).2.2.2.2 field type ht

end Definition

/-- A type is below itself if the definition that it holds is. -/
theorem FieldType.below_refl {type : FieldType}
    (h : ∀ d, type.annotationType? = some d → d.Below d) : type.Below type :=
  ⟨.refl type, fun d e hd he => by
    cases hd.symm.trans he
    exact h d hd⟩

/-- A definition that can be compared is below itself. -/
theorem Definition.below_refl {d : Definition} : d.Comparable → d.Below d := by
  induction d using Definition.induct with
  | h d ih =>
    intro hd
    refine below_iff.2 ⟨rfl, .refl d, hd.metas_beq_self, rfl, fun field type ht => ?_⟩
    refine ⟨type, ht, FieldType.below_refl fun x hx => ?_⟩
    exact ih x (mem_mentioned_of_field ht hx) (hd.field ht x hx)

/-- The order of definitions is transitive. -/
theorem Definition.Below.trans {d e g : Definition} (h : d.Below e) (h' : e.Below g) :
    d.Below g := by
  induction h generalizing g with
  | mk name retains metas length fields _ ih =>
    obtain ⟨name', retains', metas', length', fields', inside'⟩ := h'
    refine .mk (name.trans name') (retains.trans retains') (AnnotationSet.beq_trans metas metas')
      (length.trans length') (fun field type ht => ?_) fun field type type'' x z ht ht'' hx hz => ?_
    · obtain ⟨type', ht', hfits⟩ := fields field type ht
      obtain ⟨type'', ht'', hfits'⟩ := fields' field type' ht'
      exact ⟨type'', ht'', hfits.trans hfits'⟩
    · obtain ⟨type', ht', hfits⟩ := fields field type ht
      obtain ⟨y, hy⟩ := hfits.exists_annotationType? hx
      exact ih field type type' x y ht ht' hx hy (inside' field type' type'' y z ht' ht'' hy hz)

/-- The order of types is transitive. -/
theorem FieldType.Below.trans {x y z : FieldType} (h : x.Below y) (h' : y.Below z) : x.Below z := by
  refine ⟨h.fits.trans h'.fits, fun d g hd hg => ?_⟩
  obtain ⟨e, he⟩ := h.fits.exists_annotationType? hd
  exact (h.inside d e hd he).trans (h'.inside e g he hg)

/-! ## What is below both ways -/

namespace Definition

/-- The definition that a chain of fields leads to, from each to the one that the field holds. -/
def nested? : Definition → List String → Option Definition
  | d, [] => some d
  | d, field :: rest =>
    ((Keyed.get? field d.fields).bind FieldType.annotationType?).bind fun e => e.nested? rest

/-- The policy of the definition that a chain of fields leads to. -/
def retentionAt (d : Definition) (chain : List String) : Option (Option Retention) :=
  (d.nested? chain).map (·.retention)

/-- The definitions are equal, and so are their policies and those of all definitions that they hold
in fields. -/
structure Agrees (d e : Definition) : Prop where
  beq : d.beq e = true
  retentionAt (chain : List String) : d.retentionAt chain = e.retentionAt chain

end Definition

/-- The types are equal, and so are the policies of all definitions in them. -/
structure FieldType.Agrees (x y : FieldType) : Prop where
  beq : x.beq y = true
  retentionAt (chain : List String) :
    (x.annotationType?.bind fun d => d.retentionAt chain) =
      y.annotationType?.bind fun d => d.retentionAt chain

/-- Of two types below one another both hold a definition or neither does. -/
theorem FieldType.Below.annotationType?_cases {x y : FieldType} (h : x.Below y) (h' : y.Below x) :
    x.annotationType? = none ∧ y.annotationType? = none ∨
      ∃ d e, x.annotationType? = some d ∧ y.annotationType? = some e ∧ d.Below e ∧ e.Below d := by
  cases hx : x.annotationType? with
  | some d =>
    obtain ⟨e, he⟩ := h.fits.exists_annotationType? hx
    exact .inr ⟨d, e, rfl, he, h.inside d e hx he, h'.inside e d he hx⟩
  | none =>
    cases hy : y.annotationType? with
    | none => exact .inl ⟨rfl, rfl⟩
    | some e =>
      obtain ⟨d, hd⟩ := h'.fits.exists_annotationType? hy
      cases hx.symm.trans hd

namespace Definition

variable {d e : Definition}

/-- Definitions below one another are equal. -/
theorem Below.beq : ∀ {e : Definition}, d.Distinct → d.Below e → e.Below d → d.beq e = true := by
  induction d using Definition.induct with
  | h d ih =>
    intro e hd h h'
    obtain ⟨hname, -, hmetas, hlength, hfields⟩ := below_iff.1 h
    have hwithin : FieldType.within d.fields e.fields = true := by
      refine FieldType.within_iff.2 fun f hf => ?_
      have hget := Keyed.get?_of_mem (distinct_iff.1 hd).1 hf
      obtain ⟨type', ht', hbelow⟩ := hfields f.1 f.2 hget
      obtain ⟨_, hget', hbelow'⟩ := h'.fields ht'
      cases hget.symm.trans hget'
      refine ⟨type', ht', hbelow.fits.beq hbelow'.fits fun x y hx hy => ?_⟩
      exact ih x (mem_mentioned_iff.2 (.inl ⟨f, hf, hx⟩)) (hd.of_field hf hx)
        (hbelow.inside x y hx hy) (hbelow'.inside y x hy hx)
    obtain ⟨name, retention, fields, metas⟩ := d
    rw [AnnotationSet.beq] at hmetas
    simp only at hname hlength hmetas hwithin
    simp [Definition.beq, hname, hlength, hmetas, hwithin]

/-- Definitions below one another have the same policies, also further inside. -/
theorem Below.retentionAt (chain : List String) : ∀ {d e : Definition}, d.Below e → e.Below d →
    d.retentionAt chain = e.retentionAt chain := by
  induction chain with
  | nil =>
    intro d e h h'
    have hretention : d.retention = e.retention :=
      Option.ext fun r => ⟨(below_iff.1 h).2.1 r, (below_iff.1 h').2.1 r⟩
    simp [Definition.retentionAt, nested?, hretention]
  | cons field rest ih =>
    intro d e h h'
    simp only [Definition.retentionAt, nested?]
    cases hd : Keyed.get? field d.fields with
    | none =>
      cases he : Keyed.get? field e.fields with
      | none => rfl
      | some type' =>
        obtain ⟨type, hget, -⟩ := h'.fields he
        cases hd.symm.trans hget
    | some type =>
      obtain ⟨type', he, hbelow⟩ := h.fields hd
      obtain ⟨_, hget, hbelow'⟩ := h'.fields he
      cases hd.symm.trans hget
      rw [he, Option.bind_some, Option.bind_some]
      rcases hbelow.annotationType?_cases hbelow' with ⟨hx, hy⟩ | ⟨x, y, hx, hy, hxy, hyx⟩
      · rw [hx, hy]
      · rw [hx, hy]
        exact ih hxy hyx

/-- Definitions below one another agree. -/
theorem Below.agrees (hd : d.Comparable) (h : d.Below e) (h' : e.Below d) : d.Agrees e :=
  ⟨h.beq hd.distinct h', fun chain => Below.retentionAt chain h h'⟩

end Definition

/-- Types below one another agree. -/
theorem FieldType.Below.agrees {x y : FieldType} (hx : x.Comparable) (h : x.Below y)
    (h' : y.Below x) : x.Agrees y := by
  refine ⟨h.fits.beq h'.fits fun d e hd he => ?_, fun chain => ?_⟩
  · exact (h.inside d e hd he).beq (hx d hd).distinct (h'.inside e d he hd)
  · rcases h.annotationType?_cases h' with ⟨hx, hy⟩ | ⟨d, e, hd, he, hde, hed⟩
    · rw [hx, hy]
    · rw [hd, he, Option.bind_some, Option.bind_some]
      exact Definition.Below.retentionAt chain hde hed

end AnnotationIndex
