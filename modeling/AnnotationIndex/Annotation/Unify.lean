import AnnotationIndex.Annotation.Equality

/-!
# Unification of definitions

Two definitions of one annotation type are merged when they agree on everything but what one of them
does not know: the element type of an array, or the retention policy.
-/

namespace AnnotationIndex

/-- The retention policy that two definitions have together; `none` when they differ. -/
def Retention.unify : Option Retention → Option Retention → Option (Option Retention)
  | some a, some b => if a = b then some (some a) else none
  | some a, none => some (some a)
  | none, b => some b

mutual

/-- The type that two field types have together. -/
def FieldType.unify : FieldType → FieldType → Option FieldType
  | .unknownArray, .unknownArray => some .unknownArray
  | .unknownArray, .array element => some (.array element)
  | .array element, .unknownArray => some (.array element)
  | .array element, .array element' => (element.unify element').map .array
  | .nested d, .nested d' => (d.unify d').map .nested
  | .basic kind, .basic kind' => if kind = kind' then some (.basic kind) else none
  | .classToken, .classToken => some .classToken
  | .enum name, .enum name' => if name = name' then some (.enum name) else none
  | _, _ => none

/-- The definition that two definitions have together. Names, annotations on the type and field
names must agree; the order of the fields is that of the first. -/
def Definition.unify : Definition → Definition → Option Definition
  | ⟨name, retention, fields, metas⟩, d =>
    if name ≠ d.name ∨ AnnotationSet.beq metas d.metas = false then none
    else if fields.length ≠ d.fields.length then none
    else
      match Retention.unify retention d.retention with
      | none => none
      | some retention =>
        (FieldType.unifyFields fields d.fields).map fun fields => ⟨name, retention, fields, metas⟩

/-- The fields, each with the type that it has together with the field of that name among the
others. -/
def FieldType.unifyFields :
    List (String × FieldType) → List (String × FieldType) → Option (List (String × FieldType))
  | [], _ => some []
  | (name, type) :: rest, others =>
    match Keyed.get? name others with
    | none => none
    | some other =>
      match type.unify other with
      | none => none
      | some type => (FieldType.unifyFields rest others).map ((name, type) :: ·)

end

end AnnotationIndex
