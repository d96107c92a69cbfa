import AnnotationIndex.Location
import AnnotationIndex.Numeral.Integer
import AnnotationIndex.Proofs.Text.Word

/-!
# Numbers are read back

The decimal digits of a number denote it (`value?_decimal`), so that written numbers and integers
are read back (`natural?_numberText`, `integer?_integerText`). Both are words.
-/

namespace AnnotationIndex

open Text

namespace Numeral

/-! ## Digits -/

/-- Numbers below ten have decimal digits. -/
theorem isDigit_hexDigit {n : Nat} (h : n < 10) : (hexDigit n).isDigit = true := by
  have hall : ∀ n < 10, (hexDigit n).isDigit = true := by decide
  exact hall n h

/-- A decimal digit has the value that it was made for. -/
theorem digitValue?_hexDigit {n : Nat} (h : n < 10) : digitValue? 10 (hexDigit n) = some n := by
  have hall : ∀ n < 10, digitValue? 10 (hexDigit n) = some n := by decide
  exact hall n h

/-- A digit is a word character. -/
theorem isWordChar_of_isDigit {c : Char} (h : c.isDigit = true) : isWordChar c = true := by
  have hlt : c.toNat < 0x80 := by
    simp only [Char.isDigit, Bool.and_eq_true, decide_eq_true_eq] at h
    have h2 : c.val.toNat ≤ 57 := h.2
    exact Nat.lt_of_le_of_lt h2 (by decide)
  simp [isWordChar, isNumeral, hlt, h]

/-- A number is written with digits only. -/
theorem isDigit_of_mem_decimal {n : Nat} : ∀ c ∈ decimal n, c.isDigit = true := by
  fun_induction decimal n with
  | case1 n h => simpa using isDigit_hexDigit h
  | case2 n h ih =>
    intro c hc
    rcases List.mem_append.1 hc with hc | hc
    · exact ih c hc
    · rw [List.mem_singleton.1 hc]
      exact isDigit_hexDigit (Nat.mod_lt _ (by decide))

/-- A number has at least one digit. -/
theorem decimal_ne_nil (n : Nat) : decimal n ≠ [] := by
  fun_induction decimal n <;> simp

/-- The value of two lists of digits goes on from the value of the first. -/
theorem valueAfter?_append (base acc : Nat) (xs ys : List Char) :
    valueAfter? base acc (xs ++ ys) =
      (valueAfter? base acc xs).bind fun acc => valueAfter? base acc ys := by
  induction xs generalizing acc with
  | nil => rfl
  | cons c xs ih =>
    simp only [List.cons_append, valueAfter?]
    cases digitValue? base c with
    | none => rfl
    | some d => exact ih _

/-- The digits of a number denote it. -/
theorem valueAfter?_decimal (n : Nat) : valueAfter? 10 0 (decimal n) = some n := by
  fun_induction decimal n with
  | case1 n h => simp [valueAfter?, digitValue?_hexDigit h]
  | case2 n h ih =>
    have hmod := digitValue?_hexDigit (Nat.mod_lt n (by decide : 10 > 0))
    simp only [valueAfter?_append, ih, Option.bind_some, valueAfter?, hmod, Option.some.injEq]
    omega

/-- The value of digits starts from zero. -/
theorem value?_eq_valueAfter? {base : Nat} {cs : List Char} (h : cs ≠ []) :
    value? base cs = valueAfter? base 0 cs := by
  cases cs with
  | nil => exact absurd rfl h
  | cons c cs => rfl

/-- A number that is written with digits is read back. -/
theorem value?_decimal (n : Nat) : value? 10 (decimal n) = some n := by
  rw [value?_eq_valueAfter? (decimal_ne_nil n), valueAfter?_decimal]

/-- Only the digits of zero start with a zero. -/
theorem decimal_eq_zero_or_head (n : Nat) :
    decimal n = ['0'] ∨ ∃ c cs, decimal n = c :: cs ∧ c ≠ '0' := by
  fun_induction decimal n with
  | case1 n h =>
    have hall : ∀ n < 10, hexDigit n = '0' ∨ hexDigit n ≠ '0' := by decide
    rcases hall n h with h | h
    · exact .inl (by rw [h])
    · exact .inr ⟨_, _, rfl, h⟩
  | case2 n h ih =>
    rcases ih with ih | ⟨c, cs, ih, hc⟩
    · have h0 := valueAfter?_decimal (n / 10)
      rw [ih] at h0
      have h0 : some 0 = some (n / 10) := h0
      rw [Option.some.injEq] at h0
      omega
    · exact .inr ⟨c, cs ++ [hexDigit (n % 10)], by rw [ih]; rfl, hc⟩

end Numeral

open Numeral

/-! ## Numbers of 32 bits -/

/-- The digits of a number are a word. -/
theorem isWord_ofList_decimal (n : Nat) : IsWord (String.ofList (decimal n)) where
  nonempty := by simpa using decimal_ne_nil n
  chars c hc := isWordChar_of_isDigit (isDigit_of_mem_decimal c (by simpa using hc))

/-- The text of a number of 32 bits is a word. -/
theorem isWord_numberText (n : UInt32) : IsWord (numberText n) := isWord_ofList_decimal _

/-- A written number is read back. -/
theorem natural?_numberText (n : UInt32) : natural? (numberText n) = some n := by
  rw [natural?, numberText, String.toList_ofList, value?_decimal]
  simp [n.toNat_lt_size]

/-! ## Integers -/

/-- The text of an integer is a word. -/
theorem isWord_integerText (n : Int) : IsWord (integerText n) := by
  cases n with
  | ofNat n => exact isWord_ofList_decimal n
  | negSucc n =>
    refine ⟨by simp [integerText], fun c hc => ?_⟩
    rw [integerText, String.toList_ofList, List.mem_cons] at hc
    rcases hc with rfl | hc
    · decide +kernel
    · exact isWordChar_of_isDigit (isDigit_of_mem_decimal c hc)

/-- Digits have no mark for long integers. -/
theorem dropLongMark_append_decimal (cs : List Char) (n : Nat) :
    dropLongMark (cs ++ decimal n) = cs ++ decimal n := by
  have hc : (decimal n).getLast? = some _ := List.getLast?_eq_some_getLast (decimal_ne_nil n)
  generalize (decimal n).getLast (decimal_ne_nil n) = c at hc
  have hd := isDigit_of_mem_decimal c (List.mem_of_mem_getLast? hc)
  have hlast : (cs ++ decimal n).getLast? = some c := by rw [List.getLast?_append, hc]; rfl
  rw [dropLongMark, hlast]
  split
  · next h =>
    cases h
    exact absurd hd (by decide)
  · next h =>
    cases h
    exact absurd hd (by decide)
  · rfl

/-- No digit is an underscore. -/
theorem filter_decimal (n : Nat) : (decimal n).filter (· ≠ '_') = decimal n := by
  refine List.filter_eq_self.2 fun c hc => ?_
  have hd := isDigit_of_mem_decimal c hc
  rw [decide_eq_true_eq]
  rintro rfl
  revert hd
  decide

/-- The digits of a number are read as its magnitude. -/
theorem magnitude?_decimal (n : Nat) : magnitude? (decimal n) = some n := by
  rcases decimal_eq_zero_or_head n with h | ⟨c, cs, h, hc⟩
  · have := value?_decimal n
    rw [h] at this ⊢
    exact this
  · have := value?_decimal n
    rw [h] at this ⊢
    rw [magnitude?]
    · exact this
    all_goals
      intros
      simp_all

/-- A written integer is read back. -/
theorem integer?_integerText (n : Int) : integer? (integerText n) = some n := by
  cases n with
  | ofNat n =>
    rw [integer?, integerText, String.toList_ofList,
      show dropLongMark (decimal n) = decimal n from dropLongMark_append_decimal [] n,
      filter_decimal]
    split
    · next h =>
      have := isDigit_of_mem_decimal '-' (by rw [h]; exact List.mem_cons_self)
      exact absurd this (by decide)
    · simp [magnitude?_decimal]
  | negSucc n =>
    rw [integer?, integerText, String.toList_ofList, ← List.singleton_append,
      dropLongMark_append_decimal, List.filter_append, filter_decimal]
    rw [show ['-'].filter (fun c => decide (c ≠ '_')) = ['-'] from rfl]
    simp [magnitude?_decimal]
    omega

/-- The text of an integer in the range of its type is read back. -/
theorem inRange?_integerText {kind : IntegerKind} (n : kind.Range) :
    inRange? kind (integerText n.val) = some n := by
  rw [inRange?, integer?_integerText]
  simp [n.property]

end AnnotationIndex
