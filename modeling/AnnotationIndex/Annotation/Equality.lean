import AnnotationIndex.Annotation.Basic

/-!
# Equality of annotations

Structural equality of field types, definitions, annotations and values. The order of fields, of
values and of annotations does not count, nor does the retention policy of a definition; numbers
compare as in IEEE, so that a value with a NaN in it differs from itself.
-/

namespace AnnotationIndex

mutual

/-- Equality of field types. -/
def FieldType.beq : FieldType → FieldType → Bool
  | .basic kind, .basic kind' => kind = kind'
  | .classToken, .classToken => true
  | .enum name, .enum name' => name = name'
  | .nested d, .nested d' => d.beq d'
  | .array element, .array element' => element.beq element'
  | .unknownArray, .unknownArray => true
  | _, _ => false
termination_by structural x => x

/-- Equality of definitions: the same name, fields and annotations on the type. -/
def Definition.beq : Definition → Definition → Bool
  | ⟨name, _, fields, metas⟩, d =>
    name = d.name && (fields.length == d.fields.length && FieldType.within fields d.fields) &&
      (metas.length == d.metas.length && Annotation.within metas d.metas)
termination_by structural x => x

/-- Each of the fields is among the others, with an equal type. -/
def FieldType.within : List (String × FieldType) → List (String × FieldType) → Bool
  | [], _ => true
  | (name, type) :: rest, others =>
    (match Keyed.get? name others with
      | some other => type.beq other
      | none => false) && FieldType.within rest others
termination_by structural x => x

/-- Equality of annotations: an equal type and the same values. -/
def Annotation.beq : Annotation → Annotation → Bool
  | ⟨definition, values⟩, a =>
    definition.beq a.definition &&
      (values.length == a.values.length && Value.within values a.values)
termination_by structural x => x

/-- Each of the annotations equals one of the others. -/
def Annotation.within : List Annotation → List Annotation → Bool
  | [], _ => true
  | a :: rest, others => (others.any fun other => a.beq other) && Annotation.within rest others
termination_by structural x => x

/-- Equality of values. -/
def Value.beq : Value → Value → Bool
  | .boolean b, .boolean b' => b == b'
  | .integer kind n, .integer kind' n' => kind = kind' && n.val = n'.val
  | .char c, .char c' => c = c'
  | .floating width x, .floating width' x' => width = width' && x.beq x'
  | .string s, .string s' => s = s'
  | .classToken name, .classToken name' => name = name'
  | .enum name, .enum name' => name = name'
  | .nested a, .nested a' => a.beq a'
  | .array elements, .array elements' => Value.beqList elements elements'
  | _, _ => false
termination_by structural x => x

/-- Equality of lists of values, in order. -/
def Value.beqList : List Value → List Value → Bool
  | [], [] => true
  | v :: vs, w :: ws => v.beq w && Value.beqList vs ws
  | _, _ => false
termination_by structural x => x

/-- Each of the named values is among the others, with an equal value. -/
def Value.within : List (String × Value) → List (String × Value) → Bool
  | [], _ => true
  | (name, value) :: rest, others =>
    (match Keyed.get? name others with
      | some other => value.beq other
      | none => false) && Value.within rest others
termination_by structural x => x

end

namespace AnnotationSet

/-- Equality of sets of annotations. -/
def beq (s t : List Annotation) : Bool := s.length == t.length && Annotation.within s t

/-- The set holds an annotation equal to `a`. -/
def contains (s : List Annotation) (a : Annotation) : Bool := s.any fun b => b.beq a

/-- Adds an annotation at the end, unless an equal one is present. -/
def insert (s : List Annotation) (a : Annotation) : List Annotation :=
  if contains s a then s else s ++ [a]

/-- The annotations in order, without those that equal an earlier one. -/
def ofList (l : List Annotation) : List Annotation := l.foldl insert []

/-- The first annotation whose type has the given name. -/
def find? (s : List Annotation) (name : String) : Option Annotation :=
  List.find? (fun a => a.name = name) s

/-- Removes the first annotation whose type has the given name. -/
def remove (s : List Annotation) (name : String) : List Annotation :=
  s.eraseP fun a => a.name = name

end AnnotationSet

end AnnotationIndex
