import AnnotationIndex.Numeral.Kind

/-!
# Reading errors

What can be wrong with an index text. `Cause` has one constructor for each way, `Cause.message`
holds the wording, and a `ReadError` adds the line.
-/

namespace AnnotationIndex

/-- What is wrong. -/
inductive Cause where
  /-- A literal runs into the end of its line or of the text. -/
  | unterminatedLiteral (quote : Char)
  /-- A character literal is empty or holds several characters. -/
  | singleCharacterExpected
  /-- The text ends after a backslash. -/
  | unterminatedEscape
  /-- A `\u` escape without four hexadecimal digits. -/
  | hexDigitsExpected
  /-- The first half of a surrogate pair before an escape that is not the second half. -/
  | invalidSurrogatePair
  /-- Half of a surrogate pair that stands alone. -/
  | invalidUnicodeEscape
  /-- No escape sequence starts with this character. -/
  | invalidEscape (c : Char)
  /-- This symbol or keyword is missing. -/
  | expected (spelling : String)
  | identifierExpected
  | naturalExpected
  /-- Neither a new package nor a definition nor a class starts here. -/
  | statementExpected
  | fieldTypeExpected (found : String)
  | booleanExpected
  | characterExpected
  | stringExpected
  | integerExpected (kind : IntegerKind)
  | floatingExpected
  | malformedFloating (width : Width) (text : String)
  /-- An array of unknown element type that holds something. -/
  | emptyArrayExpected
  | interfaceExpected
  /-- A method key is empty. -/
  | signatureExpected
  /-- A method key holds a literal or is cut off. -/
  | signatureEndExpected
  /-- The position of an expression is neither an offset nor an index. -/
  | positionExpected
  | duplicateDefinition (name : String)
  | duplicateField (field definition : String)
  /-- The definition that a field type names is missing. -/
  | undefinedFieldType (name : String)
  /-- The definition of an annotation is missing. -/
  | annotationUndefined (name : String)
  /-- The definition of a top-level annotation has no retention policy. -/
  | retentionMissing (name : String)
  | unknownField (field definition : String)
  | duplicateValue (field : String)
  /-- The annotation inside a value has another type than its field. -/
  | annotationMismatch (wanted found : String)
  | annotationTwice (name : String)
  | conflictingCastTypes (existing found : String)
  deriving DecidableEq, Repr

/-- The wording of a cause. -/
def Cause.message : Cause → String
  | .unterminatedLiteral quote => "Unterminated literal; expected `" ++ quote.toString ++ "'"
  | .singleCharacterExpected => "Expected a single character in character literal"
  | .unterminatedEscape => "Unterminated escape sequence"
  | .hexDigitsExpected => "Expected four hex digits in unicode escape"
  | .invalidSurrogatePair => "Invalid surrogate pair in escape"
  | .invalidUnicodeEscape => "Invalid unicode escape"
  | .invalidEscape c => "Invalid escape sequence `\\" ++ c.toString ++ "'"
  | .expected spelling => "Expected `" ++ spelling ++ "'"
  | .identifierExpected => "Expected an identifier"
  | .naturalExpected => "Expected a non-negative integer"
  | .statementExpected => "Expected `package', `annotation' or `class'"
  | .fieldTypeExpected found => "Expected an annotation field type, found " ++ found
  | .booleanExpected => "Expected `true' or `false'"
  | .characterExpected => "Expected a character literal"
  | .stringExpected => "Expected a string literal"
  | .integerExpected kind => "Expected a " ++ kind.keyword ++ " literal"
  | .floatingExpected => "Expected a floating-point literal"
  | .malformedFloating width text => "Expected a " ++ width.keyword ++ " literal, found " ++ text
  | .emptyArrayExpected => "Expected `\x7d': an array of unknown element type must be empty"
  | .interfaceExpected => "Expected an interface index"
  | .signatureExpected => "Expected a method signature"
  | .signatureEndExpected => "Expected a method signature followed by `:'"
  | .positionExpected => "Expected `#' or `*'"
  | .duplicateDefinition name => "Duplicate definition of annotation type " ++ name
  | .duplicateField field definition =>
    "Duplicate field " ++ field ++ " in definition of " ++ definition
  | .undefinedFieldType name =>
    "No definition for annotation type " ++ name ++ " used as a field type"
  | .annotationUndefined name => "No definition for annotation type " ++ name
  | .retentionMissing name =>
    "No top-level definition for annotation type " ++ name ++
      "; did you forget the retention policy?"
  | .unknownField field definition =>
    "Unknown field " ++ field ++ " in annotation type " ++ definition
  | .duplicateValue field => "Duplicate value for field " ++ field
  | .annotationMismatch wanted found =>
    "Expected annotation of type " ++ wanted ++ ", found " ++ found
  | .annotationTwice name => "Duplicate annotation of type " ++ name
  | .conflictingCastTypes existing found =>
    "Conflicting cast types " ++ existing ++ " and " ++ found

/-- An index text that cannot be read, and the line at which that shows. -/
structure ReadError where
  line : Nat
  cause : Cause
  deriving DecidableEq, Repr

end AnnotationIndex
