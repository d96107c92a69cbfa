import AnnotationIndex.Text.Escape

/-!
# Digits

Natural numbers as digit sequences in a base up to 16.
-/

namespace AnnotationIndex.Numeral

/-- The value of a digit sequence after the value `acc`; `none` when some character is no digit of
the base. -/
def valueAfter? (base : Nat) : Nat → List Char → Option Nat
  | acc, [] => some acc
  | acc, c :: cs =>
    match Text.digitValue? base c with
    | some d => valueAfter? base (acc * base + d) cs
    | none => none

/-- The value of a digit sequence that is not empty. -/
def value? (base : Nat) : List Char → Option Nat
  | [] => none
  | cs => valueAfter? base 0 cs

/-- The decimal digits of a number. -/
def decimal (n : Nat) : List Char :=
  if n < 10 then [Text.hexDigit n] else decimal (n / 10) ++ [Text.hexDigit (n % 10)]

/-- A number below 2³², written as decimal digits. -/
def natural? (word : String) : Option UInt32 :=
  match value? 10 word.toList with
  | some n => if n < UInt32.size then some (UInt32.ofNat n) else none
  | none => none

end AnnotationIndex.Numeral
