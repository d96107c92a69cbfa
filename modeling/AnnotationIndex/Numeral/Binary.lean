import AnnotationIndex.Numeral.Kind

/-!
# Binary floating-point values

The values of the two IEEE binary formats, each in one canonical form, and the rounding of a
positive rational number to the nearest of them.
-/

namespace AnnotationIndex

/-- `significand · 2 ^ exponent` is the canonical form of a finite value: the significand has at
most the precision's bits, and uses all of them unless the exponent is least. -/
def Width.Canonical (w : Width) (significand : Nat) (exponent : Int) : Prop :=
  significand < Nat.pow 2 w.precision ∧ w.minExponent ≤ exponent ∧ exponent ≤ w.maxExponent ∧
    (exponent = w.minExponent ∨ Nat.pow 2 (w.precision - 1) ≤ significand)

instance (w : Width) (m : Nat) (e : Int) : Decidable (w.Canonical m e) :=
  inferInstanceAs (Decidable (_ ∧ _))

/-- A value of a floating-point type. -/
inductive Floating (w : Width) where
  | nan
  | infinite (negative : Bool)
  | finite (negative : Bool) (significand : Nat) (exponent : Int)
      (canonical : w.Canonical significand exponent)
  deriving DecidableEq

namespace Floating

/-- Zero of either sign. -/
def zero (w : Width) (negative : Bool) : Floating w :=
  .finite negative 0 w.minExponent (by cases w <;> decide)

/-- The comparison of IEEE: a NaN differs from everything, and the two zeros are equal. -/
def beq {v w : Width} : Floating v → Floating w → Bool
  | .infinite s, .infinite t => s == t
  | .finite s m e _, .finite t n f _ => (m == 0 && n == 0) || (s == t && m == n && e == f)
  | _, _ => false

/-- `num / den` rounded to a natural number, an exact half to the even neighbour. -/
def roundHalfEven (num den : Nat) : Nat :=
  let q := num / den
  let r := num % den
  if 2 * r < den then q else if den < 2 * r then q + 1 else q + q % 2

/-- The exponent of the greatest power of two that is at most `num / den`. -/
def binaryOrder (num den : Nat) : Int :=
  let k : Int := (num.log2 : Int) - (den.log2 : Int)
  if den * Nat.pow 2 k.toNat ≤ num * Nat.pow 2 (-k).toNat then k else k - 1

/-- The value nearest to `num / den`, with the given sign. A tie goes to the even significand, and
what exceeds the greatest finite value by half a unit or more is infinite. -/
def ofRatio (w : Width) (negative : Bool) (num den : Nat) : Floating w :=
  if num = 0 then zero w negative
  else
    let e := max w.minExponent (binaryOrder num den - (w.precision - 1 : Nat))
    let m := roundHalfEven (num * Nat.pow 2 (-e).toNat) (den * Nat.pow 2 e.toNat)
    let (m, e) :=
      if m = Nat.pow 2 w.precision then (Nat.pow 2 (w.precision - 1), e + 1) else (m, e)
    if h : w.Canonical m e then .finite negative m e h else .infinite negative

end Floating

end AnnotationIndex
