import AnnotationIndex.Numeral.Digits

/-!
# Integer literals

An integer literal is decimal, hexadecimal after `0x`, or octal after a further leading `0`. It may
have a minus sign in front, one `l` or `L` at the end, and underscores anywhere.
-/

namespace AnnotationIndex.Numeral

/-- The number that digits with their radix mark denote. -/
def magnitude? : List Char → Option Nat
  | '0' :: 'x' :: ds => value? 16 ds
  | '0' :: 'X' :: ds => value? 16 ds
  | '0' :: d :: ds => value? 8 (d :: ds)
  | ds => value? 10 ds

/-- A word without its last character, if that is `l` or `L`. -/
def dropLongMark (cs : List Char) : List Char :=
  match cs.getLast? with
  | some 'l' => cs.dropLast
  | some 'L' => cs.dropLast
  | _ => cs

/-- The integer that a literal denotes. -/
def integer? (word : String) : Option Int :=
  match (dropLongMark word.toList).filter (· ≠ '_') with
  | '-' :: ds => (magnitude? ds).map fun n => -(n : Int)
  | ds => (magnitude? ds).map fun n => (n : Int)

/-- The value of an integer type that a literal denotes; `none` outside the range of the type. -/
def inRange? (kind : IntegerKind) (word : String) : Option kind.Range :=
  match integer? word with
  | some n => if h : kind.Admits n then some ⟨n, h⟩ else none
  | none => none

/-- An integer as decimal digits, after a minus sign when it is negative. -/
def integerText (n : Int) : String :=
  match n with
  | .ofNat n => String.ofList (decimal n)
  | .negSucc n => String.ofList ('-' :: decimal (n + 1))

end AnnotationIndex.Numeral
