import AnnotationIndex.Keyed
import AnnotationIndex.Numeral.Decimal
import AnnotationIndex.Numeral.Integer

/-!
# Annotations

Annotation types with their declared fields (`Definition`), the types of those fields (`FieldType`),
and annotations with the values that they give to fields (`Annotation`, `Value`). Fields and values
are keyed lists. The four types refer to one another, because a field may hold an annotation and a
definition may itself be annotated.
-/

namespace AnnotationIndex

/-- How long an annotation is kept. -/
inductive Retention where
  | classFile | runtime | source
  deriving DecidableEq, Repr

namespace Retention

/-- The keyword of a retention policy. -/
def keyword : Retention → String
  | .classFile => "invisible"
  | .runtime => "visible"
  | .source => "source"

/-- The retention policy that a keyword names. -/
def ofKeyword? (word : String) : Option Retention :=
  [classFile, runtime, source].find? fun r => r.keyword = word

end Retention

/-- The primitive types and `String`. -/
inductive BasicKind where
  | boolean
  | integer (kind : IntegerKind)
  | char
  | floating (width : Width)
  | string
  deriving DecidableEq, Repr

namespace BasicKind

/-- Every basic kind. -/
def all : List BasicKind :=
  [boolean, integer .byte, char, integer .short, integer .int, integer .long, floating .single,
   floating .double, string]

/-- The keyword of a basic kind. -/
def keyword : BasicKind → String
  | .boolean => "boolean"
  | .integer kind => kind.keyword
  | .char => "char"
  | .floating width => width.keyword
  | .string => "String"

/-- The basic kind that a keyword names; `String` may be written with its package. -/
def ofKeyword? (word : String) : Option BasicKind :=
  if word = "java.lang.String" then some string else all.find? fun kind => kind.keyword = word

end BasicKind

mutual

/-- The declared type of a field. The element type of an array is unknown when only empty arrays
have been seen. -/
inductive FieldType where
  | basic (kind : BasicKind)
  | classToken
  | enum (name : String)
  | nested (definition : Definition)
  | array (element : FieldType)
  | unknownArray

/-- An annotation type: its qualified name, how long its annotations are kept, its fields, and the
annotations on the type itself. -/
structure Definition where
  name : String
  retention : Option Retention
  fields : List (String × FieldType)
  metas : List Annotation

/-- An annotation: its type, and the values of the fields that are given. -/
structure Annotation where
  definition : Definition
  values : List (String × Value)

/-- The value of a field. A class token is held without its final `.class`. -/
inductive Value where
  | boolean (b : Bool)
  | integer (kind : IntegerKind) (n : kind.Range)
  | char (c : Char)
  | floating (width : Width) (x : Floating width)
  | string (s : String)
  | classToken (name : String)
  | enum (name : String)
  | nested (a : Annotation)
  | array (elements : List Value)

end

instance : Inhabited Definition := ⟨⟨"", none, [], []⟩⟩

/-- Splits a qualified name at its last point into the package, which may be empty, and the name
inside the package. -/
def splitQualified (name : String) : String × String :=
  let base := (name.toList.reverse.takeWhile (· ≠ '.')).reverse
  let package := name.toList.take (name.toList.length - base.length - 1)
  (String.ofList package, String.ofList base)

/-- The full name of what is called `name` in a package. -/
def qualify (package name : String) : String :=
  if package = "" then name else package ++ "." ++ name

namespace FieldType

/-- The definition of the annotations that a field or its elements hold. -/
def annotationType? : FieldType → Option Definition
  | .nested d => some d
  | .array element => element.annotationType?
  | _ => none

/-- The type is an array of unknown element type. -/
def isUnknownArray : FieldType → Bool
  | .unknownArray => true
  | _ => false

end FieldType

namespace Definition

/-- Annotations of this type may stand on elements. -/
def isTopLevel (d : Definition) : Bool := d.retention.isSome

/-- The package that the type belongs to. -/
def package (d : Definition) : String := (splitQualified d.name).1

/-- The name of the type inside its package. -/
def basename (d : Definition) : String := (splitQualified d.name).2

end Definition

namespace Annotation

/-- The name of the annotation's type. -/
def name (a : Annotation) : String := a.definition.name

end Annotation

namespace BasicKind

/-- The value is of this kind. -/
def accepts : BasicKind → Value → Bool
  | .boolean, .boolean _ => true
  | .integer kind, .integer kind' _ => kind = kind'
  | .char, .char _ => true
  | .floating width, .floating width' _ => width = width'
  | .string, .string _ => true
  | _, _ => false

end BasicKind

/-- The value has the shape that the type prescribes. Of an annotation the name of its type alone
counts, and of an enumeration nothing. -/
def FieldType.accepts : FieldType → Value → Bool
  | .basic kind, v => kind.accepts v
  | .classToken, .classToken _ => true
  | .enum _, .enum _ => true
  | .nested d, .nested a => a.definition.name = d.name
  | .unknownArray, .array elements => elements.isEmpty
  | .array element, .array elements => elements.all fun v => element.accepts v
  | _, _ => false

end AnnotationIndex
