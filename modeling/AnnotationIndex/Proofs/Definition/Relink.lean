import AnnotationIndex.Proofs.Definition.Declared

/-!
# Relinked annotations

Texts may know a type by different definitions. An annotation is relinked by putting the definitions
of a list in place of those that it holds. This does not show in its text
(`Annotation.text_relink`), and where its definitions fit those of the list, a typed annotation is
typed over the list (`Annotation.Typed.relink`).
-/

namespace AnnotationIndex

mutual

/-- The annotation, with the definition of that name among those given in place of the one it holds,
and so for the annotations in its values. -/
def Annotation.relink (definitions : List (String × Definition)) : Annotation → Annotation
  | ⟨definition, values⟩ =>
    ⟨(Keyed.get? definition.name definitions).getD definition, Value.relinkNamed definitions values⟩

/-- The value with its annotations relinked. -/
def Value.relink (definitions : List (String × Definition)) : Value → Value
  | .nested a => .nested (a.relink definitions)
  | .array elements => .array (Value.relinkAll definitions elements)
  | v => v

/-- The values with their annotations relinked. -/
def Value.relinkAll (definitions : List (String × Definition)) : List Value → List Value
  | [] => []
  | v :: rest => v.relink definitions :: Value.relinkAll definitions rest

/-- The named values with their annotations relinked. -/
def Value.relinkNamed (definitions : List (String × Definition)) :
    List (String × Value) → List (String × Value)
  | [] => []
  | (name, v) :: rest => (name, v.relink definitions) :: Value.relinkNamed definitions rest

end

/-- The definition with its fields and its annotations relinked. -/
def Definition.relinkAll (definitions : List (String × Definition)) (d : Definition) : Definition :=
  { d.relink definitions with metas := d.metas.map <| Annotation.relink definitions }

/-! ## The text stays -/

variable {definitions : List (String × Definition)}

/-- Every definition of the list stands under its name. -/
def Keyed.Named (definitions : List (String × Definition)) : Prop :=
  ∀ e ∈ definitions, e.2.name = e.1

/-- What is found under a name has that name. -/
theorem Keyed.Named.name_getD (hn : Keyed.Named definitions) (d : Definition) :
    ((Keyed.get? d.name definitions).getD d).name = d.name := by
  cases hg : Keyed.get? d.name definitions with
  | none => rfl
  | some e => exact hn _ (Keyed.mem_of_get? hg)

/-- Relinking keeps the names of values. -/
theorem Value.keys_relinkNamed (values : List (String × Value)) :
    Keyed.keys (Value.relinkNamed definitions values) = Keyed.keys values := by
  induction values with
  | nil => rfl
  | cons v rest ih => exact congrArg (v.1 :: ·) ih

/-- A relinked annotation has the type that is found under its name. -/
theorem Annotation.definition_relink (a : Annotation) : (a.relink definitions).definition =
    (Keyed.get? a.definition.name definitions).getD a.definition := by
  cases a
  rfl

/-- Relinking keeps the name of the type of an annotation. -/
theorem Annotation.name_relink (hn : Keyed.Named definitions) (a : Annotation) :
    (a.relink definitions).definition.name = a.definition.name := by
  rw [a.definition_relink]
  exact hn.name_getD _

mutual

/-- Relinking an annotation does not show in its text. -/
theorem Annotation.text_relink (hn : Keyed.Named definitions) :
    ∀ a : Annotation, (a.relink definitions).text = a.text
  | ⟨d, []⟩ => by
    simp only [hn.name_getD, Annotation.relink, Value.relinkNamed, Annotation.text]
  | ⟨d, (name, v) :: rest⟩ => by
    have hv := Value.text_relink hn v
    have hrest := Value.assignments_relinkNamed hn rest
    simp only [hn.name_getD, Annotation.relink, Value.relinkNamed, Annotation.text,
      Value.assignments, hv, hrest]

/-- Relinking a value does not show in its text. -/
theorem Value.text_relink (hn : Keyed.Named definitions) :
    ∀ v : Value, (v.relink definitions).text = v.text
  | .nested a => Annotation.text_relink hn a
  | .array elements => by
    rw [Value.relink, Value.text, Value.text, Value.texts_relinkAll hn elements]
  | .boolean _ | .integer _ _ | .char _ | .floating _ _ | .string _ | .classToken _ | .enum _ => rfl

/-- Relinking array elements does not show in their texts. -/
theorem Value.texts_relinkAll (hn : Keyed.Named definitions) :
    ∀ vs : List Value, Value.texts (Value.relinkAll definitions vs) = Value.texts vs
  | [] => rfl
  | v :: rest => by
    rw [Value.relinkAll, Value.texts, Value.texts, Value.text_relink hn v,
      Value.texts_relinkAll hn rest]

/-- Relinking named values does not show in their texts. -/
theorem Value.assignments_relinkNamed (hn : Keyed.Named definitions) :
    ∀ values : List (String × Value),
      Value.assignments (Value.relinkNamed definitions values) = Value.assignments values
  | [] => rfl
  | (name, v) :: rest => by
    rw [Value.relinkNamed, Value.assignments, Value.assignments, Value.text_relink hn v,
      Value.assignments_relinkNamed hn rest]

end

/-- Relinking a type does not show in its text. -/
theorem FieldType.text_relink (hn : Keyed.Named definitions) :
    ∀ type : FieldType, (type.relink definitions).text = type.text
  | .nested d => by
    rw [FieldType.relink, FieldType.text_nested, FieldType.text_nested, hn.name_getD]
  | .array element => by
    rw [FieldType.relink, FieldType.text_array, FieldType.text_array,
      FieldType.text_relink hn element]
  | .basic _ | .classToken | .enum _ | .unknownArray => rfl

/-- A relinked definition has the same lines. -/
theorem Definition.lines_relinkAll (hn : Keyed.Named definitions) (d : Definition) :
    (d.relinkAll definitions).lines = d.lines := by
  simp only [lines, relinkAll, relink, package, basename, headerText, List.map_map,
    Function.comp_def, Annotation.text_relink hn, FieldType.text_relink hn]

/-- Relinking a definition does not show in its lines. -/
theorem Definition.lines_relink (hn : Keyed.Named definitions) (d : Definition) :
    (d.relink definitions).lines = d.lines := by
  simp only [lines, relink, package, basename, headerText, List.map_map,
    Function.comp_def, FieldType.text_relink hn]

/-! ## What is relinked fits -/

/-- A type fits what it is relinked to. -/
theorem FieldType.fits_relink (hn : Keyed.Named definitions) :
    ∀ type : FieldType, type.Fits (type.relink definitions)
  | .nested d => .nested (hn.name_getD d).symm
  | .array element => .array (FieldType.fits_relink hn element)
  | .basic kind => .basic kind
  | .classToken => .classToken
  | .enum name => .enum name
  | .unknownArray => .unknown

/-- A definition fits what it is when it has been relinked. -/
theorem Definition.fits_relinkAll (hn : Keyed.Named definitions) (d : Definition) :
    d.Fits (d.relinkAll definitions) := by
  refine ⟨rfl, fun field type h => ⟨type.relink definitions, ?_, type.fits_relink hn⟩⟩
  rw [relinkAll, relink, Keyed.get?_map field (fun _ => FieldType.relink definitions), h,
    Option.map_some]

/-! ## Types -/

/-- The definition that the type holds, if any, is in the list. -/
def FieldType.LinkedTo (definitions : List (String × Definition)) (type : FieldType) : Prop :=
  ∀ x, type.annotationType? = some x → Keyed.get? x.name definitions = some x

/-- The definitions of the list stand under their names, and what their fields hold is in the
list. -/
structure Linked (definitions : List (String × Definition)) : Prop where
  named : Keyed.Named definitions
  fields : ∀ e ∈ definitions, ∀ f ∈ e.2.fields, f.2.LinkedTo definitions

/-- The definitions of the annotations fit those of the list, for the types that it has. -/
def FitAll (definitions : List (String × Definition)) (as : List Annotation) : Prop :=
  ∀ a ∈ as, ∀ e, Keyed.get? a.definition.name definitions = some e → a.definition.Fits e

/-- Annotations in two lists fit where those of each list do. -/
theorem fitAll_append {as bs : List Annotation} :
    FitAll definitions (as ++ bs) ↔ FitAll definitions as ∧ FitAll definitions bs :=
  List.forall_mem_append

mutual

/-- **A typed annotation is typed over a linked list** that has its type, where the definitions in
it fit those of the list. -/
theorem Annotation.Typed.relink {ds : List Definition} (hl : Linked definitions) :
    ∀ {a : Annotation}, a.Typed ds → FitAll definitions a.parts → ∀ {e : Definition},
      Keyed.get? a.definition.name definitions = some e →
        (a.relink definitions).Typed (definitions.map (·.2))
  | ⟨d, values⟩, ⟨_, hkeys, hvalues⟩, hfit, e, he => by
    have hd := hfit _ List.mem_cons_self e he
    have hmem := Keyed.mem_of_get? he
    unfold Annotation.relink
    rw [he, Option.getD_some]
    refine ⟨List.mem_map_of_mem (f := (·.2)) hmem, ?_, ?_⟩
    · rwa [Value.keys_relinkNamed]
    · exact Value.NamedTyped.relink hl hvalues (fun p hp => hfit p (List.mem_cons_of_mem _ hp))
        hd.fields (hl.fields _ hmem)

/-- A typed value is typed over a linked list, for a type that its own type fits. -/
theorem Value.Typed.relink {ds : List Definition} (hl : Linked definitions) :
    ∀ {v : Value} {type type' : FieldType}, v.Typed ds type → FitAll definitions v.parts →
      type.Fits type' → type'.LinkedTo definitions →
        (v.relink definitions).Typed (definitions.map (·.2)) type'
  | .nested a, type, type', h, hfit, ht, hlink => by
    cases type <;> simp only [Value.Typed] at h
    · simp [BasicKind.accepts] at h
    · cases ht with
      | @nested d d' hname =>
        have ha : a.definition.name = d'.name := h.2.trans hname
        rw [Value.relink, Value.Typed]
        refine ⟨?_, (a.name_relink hl.named).trans ha⟩
        exact Annotation.Typed.relink hl h.1 hfit (ha ▸ hlink d' rfl)
  | .array vs, type, type', h, hfit, ht, hlink => by
    cases type <;> simp only [Value.Typed] at h
    · simp [BasicKind.accepts] at h
    · cases ht with
      | array ht =>
        rw [Value.relink, Value.Typed]
        exact Value.AllTyped.relink hl h hfit ht hlink
    · rw [h, Value.relink, Value.relinkAll]
      cases ht with
      | unknown => rfl
      | known => trivial
  | .boolean _, type, _, h, _, ht, _ | .integer _ _, type, _, h, _, ht, _
  | .char _, type, _, h, _, ht, _ | .floating _ _, type, _, h, _, ht, _
  | .string _, type, _, h, _, ht, _ | .classToken _, type, _, h, _, ht, _
  | .enum _, type, _, h, _, ht, _ => by
    cases type <;> simp only [Value.Typed] at h <;> cases ht <;> exact h

/-- Typed elements are typed over a linked list, for a type that their own type fits. -/
theorem Value.AllTyped.relink {ds : List Definition} (hl : Linked definitions) :
    ∀ {vs : List Value} {type type' : FieldType}, Value.AllTyped ds type vs →
      FitAll definitions (Value.partsAll vs) → type.Fits type' → type'.LinkedTo definitions →
        Value.AllTyped (definitions.map (·.2)) type' (Value.relinkAll definitions vs)
  | [], _, _, _, _, _, _ => trivial
  | _ :: _, _, _, ⟨hv, hvs⟩, hfit, ht, hlink =>
    have ⟨hfirst, hrest⟩ := fitAll_append.1 hfit
    ⟨Value.Typed.relink hl hv hfirst ht hlink, Value.AllTyped.relink hl hvs hrest ht hlink⟩

/-- Typed named values are typed over a linked list, for fields that their own fields fit. -/
theorem Value.NamedTyped.relink {ds : List Definition} (hl : Linked definitions)
    {fields fields' : List (String × FieldType)} :
    ∀ {values : List (String × Value)}, Value.NamedTyped ds fields values →
      FitAll definitions (Value.partsNamed values) →
      (∀ field type, Keyed.get? field fields = some type →
        ∃ type', Keyed.get? field fields' = some type' ∧ type.Fits type') →
      (∀ f ∈ fields', f.2.LinkedTo definitions) →
        Value.NamedTyped (definitions.map (·.2)) fields' (Value.relinkNamed definitions values)
  | [], _, _, _, _ => trivial
  | (name, _) :: _, ⟨⟨hi, type, hg, hv⟩, hvs⟩, hfit, hfields, hlink => by
    obtain ⟨hfirst, hrest⟩ := fitAll_append.1 hfit
    obtain ⟨type', hg', ht⟩ := hfields name type hg
    exact ⟨⟨hi, type', hg', Value.Typed.relink hl hv hfirst ht (hlink _ (Keyed.mem_of_get? hg'))⟩,
      Value.NamedTyped.relink hl hvs hrest hfields hlink⟩

end

end AnnotationIndex
