import AnnotationIndex.Numeral.Decimal
import AnnotationIndex.Proofs.Numeral.Digits
import AnnotationIndex.Proofs.Numeral.Rounding

/-!
# Floating-point text is read back

The written decimal number of a value is rounded to that value (`Floating.ofDecimal_shortest`): it
has been tried out, or else it is the exact number, which is not rounded at all. Its positional
notation is read as that decimal number (`Floating.unsigned?_text`). Together the text of every
value is read back as the value (`Floating.ofText?_text`).
-/

namespace AnnotationIndex

open Numeral

namespace Decimal

/-- Zeros at the end do not count. -/
theorem trim_eq (digits places : Nat) :
    (trim digits places).digits * 10 ^ places = digits * 10 ^ (trim digits places).places := by
  fun_induction trim digits places with
  | case1 => rfl
  | case2 digits places h ih =>
    rw [Nat.pow_succ, ← Nat.mul_assoc, ih, Nat.mul_right_comm]
    congr 1
    omega
  | case3 => rfl

/-- The exact number of a value is not rounded. -/
theorem ofDecimal_ofBinary {w : Width} {m : Nat} {e : Int} (hc : w.Canonical m e) (hm : m ≠ 0)
    (negative : Bool) :
    Floating.ofDecimal w negative (ofBinary m e) = .finite negative m e hc := by
  refine Floating.ofRatio_eq hc hm negative (Nat.pow_pos (by decide : 0 < 10)).ne' ?_
  have h := trim_eq (m * Nat.pow 2 e.toNat * Nat.pow 5 (-e).toNat) (-e).toNat
  rw [← ofBinary, show (10 : Nat) ^ (-e).toNat = 2 ^ (-e).toNat * 5 ^ (-e).toNat from
    Nat.mul_pow 2 5 _, ← Nat.mul_assoc, Nat.mul_right_comm _ (Nat.pow 5 _)] at h
  have := Nat.eq_of_mul_eq_mul_right (Nat.pow_pos (by decide : 0 < 5)) h
  rw [this, Nat.mul_assoc, Nat.mul_comm (Nat.pow 2 _)]
  rfl

end Decimal

namespace Floating

/-- The written decimal number of a value is rounded to that value. -/
theorem ofDecimal_shortest {w : Width} {m : Nat} {e : Int} (hc : w.Canonical m e) (hm : m ≠ 0)
    (negative : Bool) :
    ofDecimal w negative (shortest w negative m e) = .finite negative m e hc := by
  rw [shortest]
  generalize (List.range w.decimalDigits).flatMap _ = candidates
  cases hf : candidates.find? _ with
  | none => exact Decimal.ofDecimal_ofBinary hc hm negative
  | some d =>
    have hd := List.find?_some hf
    simp only [Option.getD_some] at hd ⊢
    split at hd
    · next s n f hc' he =>
      simp only [Bool.and_eq_true, beq_iff_eq] at hd
      obtain ⟨rfl, rfl⟩ := hd
      rw [he, negative_eq_of_ofRatio he]
    · cases hd

/-! ## Positional notation -/

/-- Digits are taken up to what is no digit. -/
theorem takeWhile_isDigit {ds : List Char} (h : ∀ c ∈ ds, c.isDigit = true) (rest : List Char)
    (hr : ∀ c ∈ rest.head?, c.isDigit = false) :
    (ds ++ rest).takeWhile Char.isDigit = ds ∧ (ds ++ rest).dropWhile Char.isDigit = rest := by
  rw [List.takeWhile_append_of_pos h, List.dropWhile_append_of_pos h]
  cases rest with
  | nil => simp
  | cons c rest => simp [hr c (by simp)]

/-- The digits of a decimal number, with at least one before the point. -/
def paddedDigits (d : Decimal) : List Char :=
  List.replicate (d.places + 1 - (decimal d.digits).length) '0' ++ decimal d.digits

/-- Padding adds digits only. -/
theorem isDigit_of_mem_paddedDigits {d : Decimal} : ∀ c ∈ paddedDigits d, c.isDigit = true := by
  intro c hc
  rcases List.mem_append.1 hc with hc | hc
  · rw [(List.mem_replicate.1 hc).2]
    decide
  · exact isDigit_of_mem_decimal c hc

/-- Padding does not change the value of the digits. -/
theorem digitsValue_paddedDigits (d : Decimal) : digitsValue (paddedDigits d) = d.digits := by
  have hzeros : ∀ n, valueAfter? 10 0 (List.replicate n '0') = some 0 := by
    intro n
    induction n with
    | zero => rfl
    | succ n ih => exact ih
  rw [digitsValue, paddedDigits, valueAfter?_append, hzeros, Option.bind_some, valueAfter?_decimal,
    Option.getD_some]

/-- Padded digits are more than the places behind the point. -/
theorem lt_length_paddedDigits (d : Decimal) : d.places < (paddedDigits d).length := by
  rw [paddedDigits, List.length_append, List.length_replicate]
  omega

/-- The text of a decimal number: its digits up to the point and, if there are places, the point and
the digits after it. -/
theorem text_eq (d : Decimal) : ∃ whole fraction,
    whole ≠ [] ∧ (∀ c ∈ whole, c.isDigit = true) ∧ (∀ c ∈ fraction, c.isDigit = true) ∧
    digitsValue (whole ++ fraction) = d.digits ∧ fraction.length = d.places ∧
    d.text = if fraction = [] then whole else whole ++ '.' :: fraction := by
  by_cases hp : d.places = 0
  · refine ⟨decimal d.digits, [], decimal_ne_nil _, isDigit_of_mem_decimal, by simp, ?_, hp.symm,
      ?_⟩
    · rw [List.append_nil, digitsValue, valueAfter?_decimal, Option.getD_some]
    · rw [Decimal.text, if_pos hp, if_pos rfl]
  · have hlt := lt_length_paddedDigits d
    refine ⟨(paddedDigits d).take ((paddedDigits d).length - d.places),
      (paddedDigits d).drop ((paddedDigits d).length - d.places), ?_,
      fun c hc => isDigit_of_mem_paddedDigits c (List.mem_of_mem_take hc),
      fun c hc => isDigit_of_mem_paddedDigits c (List.mem_of_mem_drop hc), ?_, ?_, ?_⟩
    · rw [← List.length_pos_iff, List.length_take]
      omega
    · rw [List.take_append_drop, digitsValue_paddedDigits]
    · rw [List.length_drop]
      omega
    · rw [Decimal.text, if_neg hp, if_neg]
      · rfl
      · rw [← List.length_eq_zero_iff, List.length_drop]
        omega

/-- Positional notation is read as the decimal number. -/
theorem unsigned?_text (w : Width) (negative : Bool) (d : Decimal) :
    unsigned? w negative d.text = some (ofDecimal w negative d) := by
  obtain ⟨whole, fraction, hne, hw, hf, hvalue, hlen, htext⟩ := text_eq d
  have hsplit : splitPoint d.text = (whole, fraction, []) := by
    by_cases he : fraction = []
    · obtain ⟨h1, h2⟩ := takeWhile_isDigit hw [] (by simp)
      rw [List.append_nil] at h1 h2
      rw [splitPoint, htext, if_pos he, h1, h2, he]
    · obtain ⟨h1, h2⟩ := takeWhile_isDigit hw ('.' :: fraction) (by simp)
      obtain ⟨h3, h4⟩ := takeWhile_isDigit hf [] (by simp)
      rw [List.append_nil] at h3 h4
      rw [splitPoint, htext, if_neg he, h1, h2]
      simp only [h3, h4]
  rw [unsigned?, hsplit]
  simp only [hne, false_and, if_false, hvalue, hlen]

/-- What starts with a digit is no word for infinity or NaN. -/
theorem magnitude?_of_isDigit {c : Char} (hc : c.isDigit = true) (w : Width) (negative : Bool)
    (cs : List Char) : magnitude? w negative (c :: cs) = unsigned? w negative (c :: cs) := by
  have hlower : c.toLower = c := by
    refine dif_neg ?_
    simp only [Char.isDigit, Bool.and_eq_true, decide_eq_true_eq] at hc
    have h2 : c.val.toNat ≤ 57 := hc.2
    rintro ⟨h3, -⟩
    have h3 : 65 ≤ c.val.toNat := h3
    omega
  have hne : ∀ d : Char, d.isDigit = false → c ≠ d := by
    rintro d hd rfl
    simp [hc] at hd
  rw [magnitude?]
  simp only [List.map_cons, hlower, List.cons.injEq, hne 'i' (by decide), hne 'n' (by decide),
    false_and, or_self, if_false]

/-- The text of a value starts with a digit, after a sign. -/
theorem ofText?_append_sign (w : Width) (negative : Bool) {cs : List Char}
    (h : ∀ c ∈ cs.head?, c.isDigit = true) (hne : cs ≠ []) :
    ofText? w (if negative then '-' :: cs else cs) = unsigned? w negative cs := by
  cases cs with
  | nil => exact absurd rfl hne
  | cons c cs =>
    have hc := h c (by simp)
    rw [← magnitude?_of_isDigit hc w negative cs]
    cases negative with
    | true => rfl
    | false =>
      have hminus : c ≠ '-' := by
        rintro rfl
        exact absurd hc (by decide)
      have hplus : c ≠ '+' := by
        rintro rfl
        exact absurd hc (by decide)
      rw [if_neg (by decide), ofText?]
      · intro _ h
        cases h
        exact hminus rfl
      · intro _ h
        cases h
        exact hplus rfl

/-- The digits of a finite value, without its sign. -/
def magnitudeText (w : Width) (negative : Bool) (m : Nat) (e : Int) : List Char :=
  if m = 0 then ['0'] else (shortest w negative m e).text

/-- The text of a magnitude is digits and, if there are any behind a point, the point and these. -/
theorem magnitudeText_eq (w : Width) (negative : Bool) (m : Nat) (e : Int) : ∃ whole fraction,
    whole ≠ [] ∧ (∀ c ∈ whole, c.isDigit = true) ∧ (∀ c ∈ fraction, c.isDigit = true) ∧
    magnitudeText w negative m e = if fraction = [] then whole else whole ++ '.' :: fraction := by
  rw [magnitudeText]
  split
  · exact ⟨['0'], [], by simp, by simp, by simp, by simp⟩
  · obtain ⟨whole, fraction, hne, hw, hf, -, -, htext⟩ := text_eq (shortest w negative m e)
    exact ⟨whole, fraction, hne, hw, hf, htext⟩

/-- The text of a magnitude is read back, with the sign that was taken from it. -/
theorem unsigned?_magnitudeText {w : Width} {m : Nat} {e : Int} (hc : w.Canonical m e)
    (negative : Bool) :
    unsigned? w negative (magnitudeText w negative m e) = some (.finite negative m e hc) := by
  rw [magnitudeText]
  split
  · next hm =>
    subst hm
    -- only the least exponent makes zero canonical
    obtain rfl : e = w.minExponent :=
      hc.2.2.2.resolve_right (Nat.not_le.2 (Nat.pow_pos (by decide : 0 < 2)))
    have : unsigned? w negative ['0'] = some (zero w negative) := by
      cases negative <;> cases w <;> rfl
    rw [this]
    rfl
  · next hm => rw [unsigned?_text, ofDecimal_shortest hc hm]

/-- The text of every value is read back as the value. -/
theorem ofText?_text {w : Width} (x : Floating w) : ofText? w x.text.toList = some x := by
  cases x with
  | nan =>
    have hlower : ['N', 'a', 'N'].map Char.toLower = ['n', 'a', 'n'] := by decide
    simp [text, ofText?, magnitude?, hlower]
  | infinite negative =>
    have hlower : ['i', 'n', 'f'].map Char.toLower = ['i', 'n', 'f'] := by decide
    cases negative <;> simp [text, ofText?, magnitude?, hlower]
  | finite negative m e hc =>
    obtain ⟨whole, fraction, hne, hw, -, htext⟩ := magnitudeText_eq w negative m e
    have hhead : ∀ c ∈ (magnitudeText w negative m e).head?, c.isDigit = true := by
      intro c hc
      refine hw c ?_
      cases whole with
      | nil => exact absurd rfl hne
      | cons d whole =>
        rw [htext] at hc
        split at hc <;> simp_all
    have hnil : magnitudeText w negative m e ≠ [] := by
      rw [htext]
      split <;> simp [hne]
    rw [text, String.toList_ofList]
    exact (ofText?_append_sign w negative hhead hnil).trans (unsigned?_magnitudeText hc negative)

end Floating

end AnnotationIndex
