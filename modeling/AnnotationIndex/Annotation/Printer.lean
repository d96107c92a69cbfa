import AnnotationIndex.Annotation.Basic
import AnnotationIndex.Location

/-!
# Text of annotations

The text of field types, values and annotations, as it stands in an index.
-/

namespace AnnotationIndex

/-- The text of a field type. -/
def FieldType.text : FieldType → String
  | .basic kind => kind.keyword
  | .classToken => "Class"
  | .enum name => "enum " ++ name
  | .nested d => "annotation-field " ++ d.name
  | .array element => element.text ++ "[]"
  | .unknownArray => "unknown[]"

/-- The text of an enumeration is its name after a keyword. -/
@[simp] theorem FieldType.text_enum (name : String) :
    (FieldType.enum name).text = "enum " ++ name := rfl

/-- The text of the type of a nested annotation is its name after a keyword. -/
@[simp] theorem FieldType.text_nested (d : Definition) :
    (FieldType.nested d).text = "annotation-field " ++ d.name := rfl

/-- The text of an array type is that of its elements with brackets. -/
@[simp] theorem FieldType.text_array (element : FieldType) :
    (FieldType.array element).text = element.text ++ "[]" := rfl

/-- An array of unknown elements has a text of its own. -/
@[simp] theorem FieldType.text_unknownArray : FieldType.unknownArray.text = "unknown[]" := rfl

mutual

/-- The text of a value. -/
def Value.text : Value → String
  | .boolean b => if b then "true" else "false"
  | .integer _ n => Numeral.integerText n.val
  | .char c => String.ofList (Text.encode '\'' [c])
  | .floating _ x => x.text
  | .string s => String.ofList (Text.encode '"' s.toList)
  | .classToken name => name ++ ".class"
  | .enum name => name
  | .nested a => a.text
  | .array elements => "\x7b" ++ joinWith ", " (Value.texts elements) ++ "\x7d"

/-- The texts of several values. -/
def Value.texts : List Value → List String
  | [] => []
  | v :: vs => v.text :: Value.texts vs

/-- The text of an annotation: the name of its type after `@`, then the given values in
parentheses. -/
def Annotation.text : Annotation → String
  | ⟨definition, values⟩ =>
    match values with
    | [] => "@" ++ definition.name
    | _ => "@" ++ definition.name ++ "(" ++ joinWith ", " (Value.assignments values) ++ ")"

/-- The texts of named values, each after its name and `=`. -/
def Value.assignments : List (String × Value) → List String
  | [] => []
  | (name, value) :: rest => (name ++ "=" ++ value.text) :: Value.assignments rest

end

end AnnotationIndex
