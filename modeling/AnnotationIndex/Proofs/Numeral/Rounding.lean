import AnnotationIndex.Numeral.Binary
import Mathlib.Algebra.Order.GroupWithZero.Basic
import Mathlib.Algebra.Order.Field.Basic
import Mathlib.Algebra.Order.Field.Power
import Mathlib.Data.Rat.Cast.Order
import Mathlib.Tactic.FieldSimp
import Mathlib.Tactic.GCongr
import Mathlib.Tactic.Linarith
import Mathlib.Tactic.NormNum
import Mathlib.Tactic.Positivity
import Mathlib.Tactic.Ring

/-!
# Rounding is exact on values

A ratio that is the value of a canonical significand and exponent is rounded to that value
(`Floating.ofRatio_eq`). The binary order of such a ratio fixes the exponent
(`Floating.binaryOrder_eq`), and at that exponent the division leaves no remainder.
-/

namespace AnnotationIndex

namespace Floating

/-- A power with an integer exponent as a ratio of two powers. -/
theorem zpow_eq_div (e : Int) : (2 : ℚ) ^ e = 2 ^ e.toNat / 2 ^ (-e).toNat := by
  cases e with
  | ofNat n => simp
  | negSucc n =>
    rw [zpow_negSucc, Int.toNat_negSucc, Int.neg_negSucc, Int.toNat_natCast, pow_zero, one_div]

/-- The exponent of the greatest power of two that is at most the ratio. -/
theorem binaryOrder_eq {num den : Nat} (hnum : num ≠ 0) (hden : den ≠ 0) {j : Int}
    (h : (2 : ℚ) ^ j ≤ num / den) (h' : (num / den : ℚ) < 2 ^ (j + 1)) :
    binaryOrder num den = j := by
  have hden0 : (0 : ℚ) < den := by exact_mod_cast Nat.pos_of_ne_zero hden
  have h2 : (1 : ℚ) < 2 := by norm_num
  -- the quotient of the leading powers is off by one at most
  have hlow : (2 : ℚ) ^ ((num.log2 : Int) - den.log2 - 1) < num / den := by
    have h1 : (2 : ℚ) ^ num.log2 ≤ num := by exact_mod_cast Nat.log2_self_le hnum
    have h3 : (den : ℚ) < 2 ^ (den.log2 + 1) := by exact_mod_cast Nat.lt_log2_self
    rw [lt_div_iff₀ hden0]
    calc (2 : ℚ) ^ ((num.log2 : Int) - den.log2 - 1) * den
        < (2 : ℚ) ^ ((num.log2 : Int) - den.log2 - 1) * 2 ^ (den.log2 + 1) := by gcongr
      _ = (2 : ℚ) ^ num.log2 := by
          rw [← zpow_natCast, ← zpow_natCast, ← zpow_add₀ (by norm_num)]
          congr 1
          push_cast
          ring
      _ ≤ num := h1
  have hhigh : (num / den : ℚ) < 2 ^ ((num.log2 : Int) - den.log2 + 1) := by
    have h1 : (num : ℚ) < 2 ^ (num.log2 + 1) := by exact_mod_cast Nat.lt_log2_self
    have h3 : (2 : ℚ) ^ den.log2 ≤ den := by exact_mod_cast Nat.log2_self_le hden
    rw [div_lt_iff₀ hden0]
    calc (num : ℚ) < 2 ^ (num.log2 + 1) := h1
      _ = (2 : ℚ) ^ ((num.log2 : Int) - den.log2 + 1) * 2 ^ den.log2 := by
          rw [← zpow_natCast, ← zpow_natCast, ← zpow_add₀ (by norm_num)]
          congr 1
          push_cast
          ring
      _ ≤ (2 : ℚ) ^ ((num.log2 : Int) - den.log2 + 1) * den := by gcongr
  rw [binaryOrder]
  generalize (num.log2 : Int) - den.log2 = k at hlow hhigh ⊢
  have htest : den * Nat.pow 2 k.toNat ≤ num * Nat.pow 2 (-k).toNat ↔ (2 : ℚ) ^ k ≤ num / den := by
    rw [zpow_eq_div, div_le_div_iff₀ (by positivity) hden0, mul_comm den]
    exact_mod_cast Iff.rfl
  have hj : k - 1 < j + 1 := (zpow_lt_zpow_iff_right₀ h2).1 (hlow.trans h')
  have hj' : j < k + 1 := (zpow_lt_zpow_iff_right₀ h2).1 (h.trans_lt hhigh)
  split
  · next ht =>
    have := (zpow_lt_zpow_iff_right₀ h2).1 ((htest.1 ht).trans_lt h')
    omega
  · next ht =>
    have := (zpow_lt_zpow_iff_right₀ h2).1 (h.trans_lt (not_le.1 fun hk => ht (htest.2 hk)))
    omega

/-- A multiple of the divisor is divided without rounding. -/
theorem roundHalfEven_mul {den : Nat} (hden : den ≠ 0) (m : Nat) :
    roundHalfEven (m * den) den = m := by
  have hpos := Nat.pos_of_ne_zero hden
  rw [roundHalfEven]
  simp [Nat.mul_div_cancel m hpos, hpos]

/-- A ratio that is exactly a value of the format is rounded to that value. -/
theorem ofRatio_eq {w : Width} {m : Nat} {e : Int} (hc : w.Canonical m e) (hm : m ≠ 0)
    (negative : Bool) {num den : Nat} (hden : den ≠ 0)
    (h : num * 2 ^ (-e).toNat = m * (den * 2 ^ e.toNat)) :
    ofRatio w negative num den = .finite negative m e hc := by
  obtain ⟨hlt, hmin, hmax, hfull⟩ := hc
  have hden0 : (0 : ℚ) < den := by exact_mod_cast Nat.pos_of_ne_zero hden
  have hnum : num ≠ 0 := by
    rintro rfl
    rw [Nat.zero_mul] at h
    have hpow : 2 ^ e.toNat ≠ 0 := (Nat.pow_pos (by decide)).ne'
    exact Nat.mul_ne_zero hm (Nat.mul_ne_zero hden hpow) h.symm
  have hvalue : (num / den : ℚ) = m * 2 ^ e := by
    have h : (num : ℚ) * 2 ^ (-e).toNat = m * (den * 2 ^ e.toNat) := by exact_mod_cast h
    rw [zpow_eq_div]
    field_simp
    linarith
  have horder : binaryOrder num den = m.log2 + e := by
    have h2 : (0 : ℚ) < 2 ^ e := by positivity
    refine binaryOrder_eq hnum hden ?_ ?_
    · rw [hvalue, zpow_add₀ (by norm_num), zpow_natCast]
      have : (2 : ℚ) ^ m.log2 ≤ m := by exact_mod_cast Nat.log2_self_le hm
      gcongr
    · rw [hvalue, show (m.log2 : Int) + e + 1 = (m.log2 + 1 : Nat) + e by push_cast; ring,
        zpow_add₀ (by norm_num), zpow_natCast]
      have : (m : ℚ) < 2 ^ (m.log2 + 1) := by exact_mod_cast Nat.lt_log2_self
      gcongr
  have hlog : m.log2 < w.precision := (Nat.log2_lt hm).2 hlt
  have hexp : max w.minExponent (binaryOrder num den - (w.precision - 1 : Nat)) = e := by
    rw [horder]
    rcases hfull with hfull | hfull
    · rw [hfull]
      refine max_eq_left ?_
      omega
    · have hlog' : w.precision - 1 ≤ m.log2 := (Nat.le_log2 hm).2 hfull
      rw [max_eq_right (by omega)]
      omega
  have hround : roundHalfEven (num * Nat.pow 2 (-e).toNat) (den * Nat.pow 2 e.toNat) = m := by
    have hscaled : den * Nat.pow 2 e.toNat ≠ 0 :=
      Nat.mul_ne_zero hden (Nat.pow_pos (by decide : 0 < 2)).ne'
    rw [show num * Nat.pow 2 (-e).toNat = m * (den * Nat.pow 2 e.toNat) from h]
    exact roundHalfEven_mul hscaled m
  rw [ofRatio, if_neg hnum]
  simp only [hexp, hround, if_neg hlt.ne]
  exact dif_pos ⟨hlt, hmin, hmax, hfull⟩

/-- A finite value that a ratio is rounded to has the sign that was asked for. -/
theorem negative_eq_of_ofRatio {w : Width} {negative s : Bool} {num den m : Nat} {e : Int}
    {hc : w.Canonical m e} (h : ofRatio w negative num den = .finite s m e hc) : s = negative := by
  rw [ofRatio] at h
  split at h
  · cases h
    rfl
  · dsimp only at h
    split at h <;> split at h <;> cases h <;> rfl

end Floating

end AnnotationIndex
