import AnnotationIndex.Annotation.Printer
import AnnotationIndex.Proofs.Numeral.Digits
import AnnotationIndex.Reader.Value
import Mathlib.Data.Nat.Digits.Defs

/-!
# Integer literals

What an integer literal is and which integer it denotes, as a grammar: `IsLiteral`. The value of a
digit sequence is `Nat.ofDigits`, of unbounded length, and a literal is signed before anything is
cut to a width. The main statement is `Reader.integer_iff_isLiteral`: a word is read as a value of
an integer type exactly when it is a literal whose integer lies in the range of the type, and the
value is that integer.
-/

namespace AnnotationIndex

open Text

namespace Numeral

/-! ## The grammar -/

/-- The character is the digit `d` of the base, in either case. -/
def IsDigit (base : Nat) (c : Char) (d : Nat) : Prop := d < base ∧ c.toLower = hexDigit d

/-- The characters are the digits of the number in the base, one at least. -/
def IsNatural (base : Nat) (cs : List Char) (n : Nat) : Prop :=
  cs ≠ [] ∧ ∃ ds, List.Forall₂ (IsDigit base) cs ds ∧ n = Nat.ofDigits base ds.reverse

/-- The characters denote the number, in the base that their beginning tells. -/
inductive IsMagnitude : List Char → Nat → Prop
  | hexadecimal {x : Char} {ds : List Char} {n : Nat} (hx : x = 'x' ∨ x = 'X')
      (h : IsNatural 16 ds n) : IsMagnitude ('0' :: x :: ds) n
  | octal {ds : List Char} {n : Nat} (h : IsNatural 8 ds n) : IsMagnitude ('0' :: ds) n
  | decimal {ds : List Char} {n : Nat} (hzero : ds = ['0'] ∨ ds.head? ≠ some '0')
      (h : IsNatural 10 ds n) : IsMagnitude ds n

/-- The characters denote the integer: at most one minus sign, and a magnitude. -/
inductive IsInteger : List Char → Int → Prop
  | positive {cs : List Char} {n : Nat} (h : IsMagnitude cs n) : IsInteger cs n
  | negative {cs : List Char} {n : Nat} (h : IsMagnitude cs n) : IsInteger ('-' :: cs) (-n)

/-- What is left of a word without its mark for long integers, which is its last character. -/
inductive IsUnmarked : (word cs : List Char) → Prop
  | plain {cs : List Char} (h : cs.getLast? ≠ some 'l') (h' : cs.getLast? ≠ some 'L') :
      IsUnmarked cs cs
  | marked {cs : List Char} {mark : Char} (h : mark = 'l' ∨ mark = 'L') :
      IsUnmarked (cs ++ [mark]) cs

/-- The word is a literal of the integer. Underscores say nothing. -/
def IsLiteral (word : String) (n : Int) : Prop :=
  ∃ cs, IsUnmarked word.toList cs ∧ IsInteger (cs.filter (· ≠ '_')) n

/-! ## Digits and magnitudes -/

/-- Beyond the ASCII characters there are no digits. -/
theorem not_isDigit {c : Char} (hc : 128 ≤ c.toNat) {d : Nat} (hd : d < 16) :
    digitValue? 16 c ≠ some d ∧ c.toLower ≠ hexDigit d := by
  have hgt {b : Char} (hb : b.toNat < 128) : ¬ c ≤ b := fun hle =>
    absurd (Nat.le_trans hc (show c.toNat ≤ b.toNat from hle)) (by omega)
  constructor
  · simp [digitValue?, hgt (b := '9') (by decide), hgt (b := 'f') (by decide),
      hgt (b := 'F') (by decide)]
  · have hdigit : ∀ d < 16, (hexDigit d).toNat < 128 := by decide
    have hlower : c.toLower = c := dif_neg fun h => hgt (b := 'Z') (by decide) h.2
    rw [hlower]
    rintro rfl
    exact absurd (hdigit d hd) (by omega)

/-- The value of a character is the one that it has as a digit. -/
theorem digitValue?_eq_some_iff {base : Nat} (hb : base ≤ 16) {c : Char} {d : Nat} :
    digitValue? base c = some d ↔ IsDigit base c d := by
  have hbase : digitValue? base c = some d ↔ d < base ∧ digitValue? 16 c = some d := by
    simp only [digitValue?]
    generalize (if '0' ≤ c ∧ c ≤ '9' then c.toNat - 48
      else if 'a' ≤ c ∧ c ≤ 'f' then c.toNat - 87
      else if 'A' ≤ c ∧ c ≤ 'F' then c.toNat - 55
      else 16) = n
    split <;> split <;> grind
  have hascii : ∀ n < 128, ∀ d < 16,
      digitValue? 16 (Char.ofNat n) = some d ↔ (Char.ofNat n).toLower = hexDigit d := by
    decide +kernel
  rw [hbase, IsDigit]
  refine and_congr_right fun hd => ?_
  by_cases hc : c.toNat < 128
  · have := hascii c.toNat hc d (by omega)
    rwa [Char.ofNat_toNat] at this
  · have := not_isDigit (c := c) (by omega) (d := d) (by omega)
    exact iff_of_false this.1 this.2

/-- The value of digits, from a value of what comes before, is that of positional notation. -/
theorem valueAfter?_eq_some_iff {base : Nat} (hb : base ≤ 16) {acc n : Nat} {cs : List Char} :
    valueAfter? base acc cs = some n ↔
      ∃ ds, List.Forall₂ (IsDigit base) cs ds ∧
        n = Nat.ofDigits base ds.reverse + base ^ ds.length * acc := by
  induction cs generalizing acc with
  | nil => simp [valueAfter?, eq_comm]
  | cons c cs ih =>
    have hstep (d : Nat) (ds : List Nat) :
        Nat.ofDigits base (d :: ds).reverse + base ^ (d :: ds).length * acc =
          Nat.ofDigits base ds.reverse + base ^ ds.length * (acc * base + d) := by
      rw [List.reverse_cons, Nat.ofDigits_append, Nat.ofDigits_singleton, List.length_reverse,
        List.length_cons, Nat.pow_succ]
      ring
    rw [valueAfter?]
    cases hc : digitValue? base c with
    | none =>
      refine iff_of_false (by simp) ?_
      rintro ⟨ds, hds, -⟩
      cases hds with
      | cons hd _ =>
        rw [(digitValue?_eq_some_iff hb).2 hd] at hc
        cases hc
    | some d =>
      have hd := (digitValue?_eq_some_iff hb).1 hc
      constructor
      · intro h
        obtain ⟨ds, hds, rfl⟩ := ih.1 h
        exact ⟨d :: ds, .cons hd hds, (hstep d ds).symm⟩
      · rintro ⟨ds, hds, rfl⟩
        cases hds with
        | @cons _ d' _ ds hd' hds =>
          rw [(digitValue?_eq_some_iff hb).2 hd', Option.some.injEq] at hc
          subst hc
          exact ih.2 ⟨ds, hds, hstep d' ds⟩

/-- The value of a text is that of the numeral that it is. -/
theorem value?_eq_some_iff {base : Nat} (hb : base ≤ 16) {cs : List Char} {n : Nat} :
    value? base cs = some n ↔ IsNatural base cs n := by
  by_cases hcs : cs = []
  · subst hcs
    exact iff_of_false (by simp [value?]) fun h => h.1 rfl
  · rw [value?_eq_valueAfter? hcs, valueAfter?_eq_some_iff hb, IsNatural]
    simp [hcs]

/-- A number starts with a digit of its base. -/
theorem IsNatural.exists_isDigit {base : Nat} {c : Char} {cs : List Char} {n : Nat}
    (h : IsNatural base (c :: cs) n) : ∃ d, IsDigit base c d := by
  obtain ⟨-, ds, hds, -⟩ := h
  cases hds with
  | cons hd _ => exact ⟨_, hd⟩

/-- No digit is a sign or the mark of the base 16. -/
theorem not_isDigit_mark {c : Char} (hc : c ∈ ['-', 'x', 'X']) {base : Nat} (hb : base ≤ 16)
    (d : Nat) : ¬ IsDigit base c d := by
  have hmark : ∀ d < 16, '-' ≠ hexDigit d ∧ 'x' ≠ hexDigit d := by decide
  rintro ⟨hd, h⟩
  obtain ⟨hsign, hx⟩ := hmark d (by omega)
  simp only [List.mem_cons, List.not_mem_nil, or_false] at hc
  rcases hc with rfl | rfl | rfl
  · exact hsign h
  · exact hx h
  · exact hx h

/-- The magnitude of a text is that of the numeral behind its prefix. -/
theorem magnitude?_eq_some_iff {cs : List Char} {n : Nat} :
    magnitude? cs = some n ↔ IsMagnitude cs n := by
  have hmark {x : Char} {ds : List Char} (hx : x = 'x' ∨ x = 'X') :
      value? 16 ds = some n ↔ IsMagnitude ('0' :: x :: ds) n := by
    rw [value?_eq_some_iff (by decide)]
    refine ⟨.hexadecimal hx, fun h => ?_⟩
    cases h with
    | hexadecimal _ h => exact h
    | octal h =>
      obtain ⟨d, hd⟩ := h.exists_isDigit
      exact absurd hd (not_isDigit_mark (by rcases hx with rfl | rfl <;> simp) (by decide) d)
    | decimal hzero _ => simp at hzero
  unfold magnitude?
  split
  · exact hmark (.inl rfl)
  · exact hmark (.inr rfl)
  · next d ds hx hX =>
    rw [value?_eq_some_iff (by decide)]
    refine ⟨.octal, fun h => ?_⟩
    cases h with
    | hexadecimal hx' _ => rcases hx' with rfl | rfl <;> simp at hx hX
    | octal h => exact h
    | decimal hzero _ => simp at hzero
  · next hx hX hzero =>
    rw [value?_eq_some_iff (by decide)]
    constructor
    · refine .decimal ?_
      match cs with
      | [] => exact .inr (by simp)
      | [c] => exact (Decidable.em (c = '0')).imp (by simp +contextual) (by simp)
      | c :: d :: ds => exact .inr fun h => hzero d ds (by simpa using h)
    · intro h
      cases h with
      | hexadecimal hx' _ => exact (hzero _ _ rfl).elim
      | @octal ds _ h =>
        cases ds with
        | nil => exact absurd rfl h.1
        | cons d ds => exact (hzero d ds rfl).elim
      | decimal _ h => exact h

/-! ## Literals -/

/-- A text without a mark at its end is what is left when that is dropped. -/
theorem isUnmarked_iff {word cs : List Char} : IsUnmarked word cs ↔ cs = dropLongMark word := by
  constructor
  · rintro (⟨h, h'⟩ | ⟨rfl | rfl⟩)
    · rw [dropLongMark]
      split
      · contradiction
      · contradiction
      · rfl
    · simp [dropLongMark]
    · simp [dropLongMark]
  · rintro rfl
    have hlast {mark : Char} (h : word.getLast? = some mark) : word.dropLast ++ [mark] = word :=
      List.dropLast_append_getLast? mark h
    rw [dropLongMark]
    split
    · next h =>
      have : IsUnmarked (word.dropLast ++ ['l']) word.dropLast := .marked (.inl rfl)
      rwa [hlast h] at this
    · next h =>
      have : IsUnmarked (word.dropLast ++ ['L']) word.dropLast := .marked (.inr rfl)
      rwa [hlast h] at this
    · next h h' => exact .plain h h'

/-- The value of a word is that of the literal that it is. -/
theorem integer?_eq_some_iff {word : String} {n : Int} :
    integer? word = some n ↔ IsLiteral word n := by
  have hliteral : IsLiteral word n ↔
      IsInteger ((dropLongMark word.toList).filter (· ≠ '_')) n := by
    simp only [IsLiteral, isUnmarked_iff, exists_eq_left]
  rw [hliteral, integer?]
  generalize (dropLongMark word.toList).filter (· ≠ '_') = cs
  split
  · next ds =>
    have hminus {m : Nat} : ¬ IsMagnitude ('-' :: ds) m := by
      rintro (_ | _ | ⟨-, h⟩)
      obtain ⟨d, hd⟩ := h.exists_isDigit
      exact not_isDigit_mark (by simp) (by decide) d hd
    simp only [Option.map_eq_some_iff, Option.bind_eq_bind, Option.bind_eq_some_iff,
      Option.pure_def, Option.some.injEq]
    constructor
    · rintro ⟨_, ⟨m, hm, rfl⟩, rfl⟩
      exact .negative (magnitude?_eq_some_iff.1 hm)
    · intro h
      cases h with
      | positive h => exact (hminus h).elim
      | @negative _ m h => exact ⟨m, ⟨m, magnitude?_eq_some_iff.2 h, rfl⟩, rfl⟩
  · next hsign =>
    simp only [Option.map_eq_some_iff, Option.bind_eq_bind, Option.bind_eq_some_iff,
      Option.pure_def, Option.some.injEq]
    constructor
    · rintro ⟨_, ⟨m, hm, rfl⟩, rfl⟩
      exact .positive (magnitude?_eq_some_iff.1 hm)
    · intro h
      cases h with
      | @positive _ m h => exact ⟨m, ⟨m, magnitude?_eq_some_iff.2 h, rfl⟩, rfl⟩
      | negative h => exact (hsign _ rfl).elim

/-- A literal is in the range of an integer type when its integer is, which is kept as it is. -/
theorem inRange?_eq_some_iff {kind : IntegerKind} {word : String} {n : kind.Range} :
    inRange? kind word = some n ↔ IsLiteral word n.val := by
  rw [← integer?_eq_some_iff, inRange?]
  cases integer? word with
  | none => simp
  | some m =>
    simp only [Option.some.injEq]
    split
    · next h => simp [Subtype.ext_iff]
    · next h =>
      refine iff_of_false (by simp) ?_
      rintro rfl
      exact h n.property

end Numeral

namespace Reader

open Numeral

/-- A value of an integer type is a word in the range of the type. -/
theorem basicValue_integer (kind : IntegerKind) (word : String) (line : Nat) (rest : List Token) :
    basicValue (.integer kind) (⟨.word word, line⟩ :: rest) = match inRange? kind word with
      | some n => .ok (.integer kind n, rest)
      | none => .error ⟨some line, .integerExpected kind⟩ := rfl

/-- **Integer literals are never misread.** A word is read as a value of an integer type exactly
when it is a literal of an integer in the range of the type; the value is that integer, and the word
is all that is read. Any other word is refused. The text of every value of the type is a literal and
is read as that value. -/
theorem integer_iff_isLiteral (kind : IntegerKind) (line : Nat) (rest : List Token) :
    (∀ (word : String) (v : Value) (left : List Token),
      basicValue (.integer kind) (⟨.word word, line⟩ :: rest) = .ok (v, left) ↔
        ∃ n : kind.Range, IsLiteral word n.val ∧ v = .integer kind n ∧ left = rest) ∧
    (∀ word : String,
      basicValue (.integer kind) (⟨.word word, line⟩ :: rest) =
          .error ⟨some line, .integerExpected kind⟩ ↔
        ¬ ∃ n : kind.Range, IsLiteral word n.val) ∧
    ∀ n : kind.Range, basicValue (.integer kind)
      (⟨.word (Value.integer kind n).text, line⟩ :: rest) = .ok (.integer kind n, rest) := by
  refine ⟨fun word v left => ?_, fun word => ?_, fun n => ?_⟩
  · simp only [basicValue_integer, ← inRange?_eq_some_iff]
    cases inRange? kind word with
    | none => simp
    | some n => simp [eq_comm]
  · simp only [basicValue_integer, ← inRange?_eq_some_iff]
    cases inRange? kind word with
    | none => simp
    | some n => simp
  · rw [basicValue_integer, Value.text, inRange?_integerText]

/-- A hexadecimal literal with a sign, underscores and the mark for long integers, and the number
after the greatest byte. -/
example : Numeral.inRange? .short "-0x_1FL" = some ⟨-31, by decide⟩ ∧
    Numeral.inRange? .byte "128" = none := by decide

end Reader
end AnnotationIndex
