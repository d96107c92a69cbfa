import AnnotationIndex.Numeral.Binary
import AnnotationIndex.Numeral.Digits

/-!
# Decimal text of floating-point values

Reading rounds the decimal number to the nearest value. Writing gives the fewest digits that read
back, the nearest of them, always in positional notation.
-/

namespace AnnotationIndex

/-- The decimal number `digits / 10 ^ places`. -/
structure Decimal where
  digits : Nat
  places : Nat
  deriving DecidableEq, Repr

namespace Decimal

/-- The number times a power of ten. -/
def shift (d : Decimal) (exponent : Int) : Decimal :=
  let places : Int := d.places - exponent
  if places ≤ 0 then ⟨d.digits * Nat.pow 10 (-places).toNat, 0⟩ else ⟨d.digits, places.toNat⟩

/-- The same number without final zeros after the point. -/
def trim : (digits places : Nat) → Decimal
  | digits, 0 => ⟨digits, 0⟩
  | digits, places + 1 =>
    if digits % 10 = 0 then trim (digits / 10) places else ⟨digits, places + 1⟩

/-- Positional notation: at least one digit before the point, and no point without places. -/
def text (d : Decimal) : List Char :=
  let ds := Numeral.decimal d.digits
  if d.places = 0 then ds
  else
    let ds := List.replicate (d.places + 1 - ds.length) '0' ++ ds
    ds.take (ds.length - d.places) ++ '.' :: ds.drop (ds.length - d.places)

/-- The number `m · 2 ^ e`, exactly. -/
def ofBinary (m : Nat) (e : Int) : Decimal :=
  trim (m * Nat.pow 2 e.toNat * Nat.pow 5 (-e).toNat) (-e).toNat

end Decimal

namespace Floating

/-- The value nearest to a decimal number. -/
def ofDecimal (w : Width) (negative : Bool) (d : Decimal) : Floating w :=
  ofRatio w negative d.digits (Nat.pow 10 d.places)

/-! ## Reading -/

/-- A decimal exponent cut down to a range outside which the number, whose digits and places are
given, is beyond every finite value or below half of the least positive one. -/
def cutExponent (d : Decimal) (exponent : Int) : Int :=
  max (-(d.digits.log2 + 401 : Int)) (min exponent (d.places + 400 : Int))

/-- The value of a digit sequence, which may be empty. -/
def digitsValue (ds : List Char) : Nat := (Numeral.valueAfter? 10 0 ds).getD 0

/-- Reads an exponent: a sign, which may be missing, and one or more digits. -/
def exponent? : List Char → Option Int
  | '-' :: ds => (Numeral.value? 10 ds).map fun n => -(n : Int)
  | '+' :: ds => (Numeral.value? 10 ds).map fun n => (n : Int)
  | ds => (Numeral.value? 10 ds).map fun n => (n : Int)

/-- Splits an unsigned number at its point: the digits before it, those after it, and the rest. -/
def splitPoint (cs : List Char) : List Char × List Char × List Char :=
  let whole := cs.takeWhile Char.isDigit
  match cs.dropWhile Char.isDigit with
  | '.' :: rest => (whole, rest.takeWhile Char.isDigit, rest.dropWhile Char.isDigit)
  | rest => (whole, [], rest)

/-- Reads an unsigned decimal number: digits with at most one point, and an exponent, which may be
missing. -/
def unsigned? (w : Width) (negative : Bool) (cs : List Char) : Option (Floating w) :=
  let (whole, fraction, rest) := splitPoint cs
  let d : Decimal := ⟨digitsValue (whole ++ fraction), fraction.length⟩
  if whole = [] ∧ fraction = [] then none
  else
    match rest with
    | [] => some (ofDecimal w negative d)
    | c :: rest =>
      if c = 'e' ∨ c = 'E' then
        (exponent? rest).map fun e => ofDecimal w negative (d.shift (cutExponent d e))
      else none

/-- Reads an unsigned number or one of the words for infinity and NaN, in any case. -/
def magnitude? (w : Width) (negative : Bool) (cs : List Char) : Option (Floating w) :=
  let word := cs.map Char.toLower
  if word = ['i', 'n', 'f'] ∨ word = ['i', 'n', 'f', 'i', 'n', 'i', 't', 'y'] then
    some (.infinite negative)
  else if word = ['n', 'a', 'n'] then some .nan
  else unsigned? w negative cs

/-- Reads a number with a sign, which may be missing. -/
def ofText? (w : Width) : List Char → Option (Floating w)
  | '-' :: cs => magnitude? w true cs
  | '+' :: cs => magnitude? w false cs
  | cs => magnitude? w false cs

/-! ## Writing -/

/-- The exponent of the greatest power of ten that is at most `num / den`. -/
def decimalOrder (num den : Nat) : Int :=
  if den ≤ num then ((Numeral.decimal (num / den)).length : Int) - 1
  else
    let n := (Numeral.decimal (den / num)).length
    if den ≤ num * Nat.pow 10 (n - 1) then -((n : Int) - 1) else -(n : Int)

/-- The number `digits · 10 ^ exponent`. -/
def onGrid (digits : Nat) (exponent : Int) : Decimal :=
  if 0 ≤ exponent then ⟨digits * Nat.pow 10 exponent.toNat, 0⟩
  else Decimal.trim digits (-exponent).toNat

/-- The neighbours of `num / den` among the multiples of `10 ^ exponent`, the nearer one first; of
two equally near the greater one first. -/
def neighbours (num den : Nat) (exponent : Int) : List Decimal :=
  let num := num * Nat.pow 10 (-exponent).toNat
  let den := den * Nat.pow 10 exponent.toNat
  let below := onGrid (num / den) exponent
  let above := onGrid (num / den + 1) exponent
  if 2 * (num % den) < den then [below, above] else [above, below]

/-- The first decimal number that reads back as `m · 2 ^ e` among the neighbours of that value with
one significant digit, with two, and so on; the exact number when none does. -/
def shortest (w : Width) (negative : Bool) (m : Nat) (e : Int) : Decimal :=
  let num := m * Nat.pow 2 e.toNat
  let den := Nat.pow 2 (-e).toNat
  let order := decimalOrder num den
  let candidates :=
    (List.range w.decimalDigits).flatMap fun (n : Nat) => neighbours num den (order - n)
  let readsBack (d : Decimal) : Bool :=
    match ofDecimal w negative d with
    | .finite _ n f _ => n == m && f == e
    | _ => false
  (candidates.find? readsBack).getD (.ofBinary m e)

/-- The text of a value. -/
def text {w : Width} : Floating w → String
  | .nan => "NaN"
  | .infinite negative => if negative then "-inf" else "inf"
  | .finite negative m e _ =>
    let digits := if m = 0 then ['0'] else (shortest w negative m e).text
    String.ofList (if negative then '-' :: digits else digits)

end Floating

end AnnotationIndex
