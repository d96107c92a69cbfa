import AnnotationIndex.Text.Escape
import AnnotationIndex.Token

/-!
# Tokens of a text

`tokenize` splits a text into tokens. White space and comments, which start with `//` and run to the
end of their line, stand between tokens. Words are as long as possible, literals run from quote to
quote, and every other character is a token of its own.

The scan is over the characters that are left. Each step leaves fewer of them
(`decodeEscape_shorter`, `quoted_shorter`, `lexeme_shorter`), so that it ends.
-/

namespace AnnotationIndex

open Text

namespace Lexer

/-- Drops white space and comments. The first argument says whether a comment has begun; the line is
counted on. -/
def skipBlanks : Bool → Nat → List Char → Nat × List Char
  | _, line, [] => (line, [])
  | true, line, c :: cs =>
    if c = '\n' then skipBlanks false (line + 1) cs else skipBlanks true line cs
  | false, line, c :: cs =>
    if isBlank c then skipBlanks false (if c = '\n' then line + 1 else line) cs
    else if c = '/' ∧ cs.head? = some '/' then skipBlanks true line cs
    else (line, c :: cs)

/-- Skipping blanks leaves no more characters than there were. -/
theorem skipBlanks_le (inComment : Bool) (line : Nat) (cs : List Char) :
    (skipBlanks inComment line cs).2.length ≤ cs.length := by
  fun_induction skipBlanks inComment line cs <;> simp_all <;> omega

/-- Hexadecimal digits leave no more characters than there were. -/
theorem hexDigits_le {count acc : Nat} {cs rest : List Char} {n : Nat}
    (h : hexDigits count acc cs = .ok (n, rest)) : rest.length ≤ cs.length := by
  fun_induction hexDigits count acc cs <;> grind

/-- A code unit leaves no more characters than there were. -/
theorem codeUnit_le {cs rest : List Char} {n : Nat} (h : codeUnit cs = .ok (n, rest)) :
    rest.length ≤ cs.length := by
  have h₁ := hexDigits_le h
  have h₂ := (List.dropWhile_sublist (· = 'u') (l := cs)).length_le
  omega

/-- A Unicode escape leaves no more characters than there were. -/
theorem unicodeEscape_le {cs rest : List Char} {c : Char}
    (h : unicodeEscape cs = .ok (c, rest)) : rest.length ≤ cs.length := by
  unfold unicodeEscape at h
  split at h
  · simp at h
  · rename_i hu
    have hm := codeUnit_le hu
    split at h
    · split at h
      · split at h
        · simp at h
        · rename_i hl
          have := codeUnit_le hl
          split at h <;> simp_all
          omega
      · simp at h
    · split at h <;> simp_all

/-- Octal digits leave no more characters than there were. -/
theorem octalDigits_le (count acc : Nat) (cs : List Char) :
    (octalDigits count acc cs).2.length ≤ cs.length := by
  fun_induction octalDigits count acc cs <;> simp_all
  omega

/-- An escape sequence has at least one character. -/
theorem decodeEscape_shorter {cs rest : List Char} {c : Char}
    (h : decodeEscape cs = .ok (c, rest)) : rest.length < cs.length := by
  unfold decodeEscape at h
  split at h
  · simp at h
  · split at h
    · simp_all
    · split at h
      · exact Nat.lt_succ_of_le (unicodeEscape_le h)
      · split at h
        · grind [octalDigits_le]
        · simp at h

/-- Reads a literal up to the closing quote. -/
def quoted (quote : Char) : List Char → Except LiteralFault (List Char × List Char)
  | [] => .error ⟨.unterminatedLiteral quote, 0⟩
  | c :: cs =>
    if c = '\n' then .error ⟨.unterminatedLiteral quote, 1⟩
    else if c = quote then .ok ([], cs)
    else if c = '\\' then
      match _h : decodeEscape cs with
      | .error fault => .error fault
      | .ok (d, rest) =>
        match quoted quote rest with
        | .error fault => .error fault
        | .ok (text, rest) => .ok (d :: text, rest)
    else
      match quoted quote cs with
      | .error fault => .error fault
      | .ok (text, rest) => .ok (c :: text, rest)
termination_by cs => cs.length
decreasing_by
  · have := decodeEscape_shorter _h
    simp; omega
  · simp

/-- A literal has at least its closing quote. -/
theorem quoted_shorter {quote : Char} {cs text rest : List Char}
    (h : quoted quote cs = .ok (text, rest)) : rest.length < cs.length := by
  fun_induction quoted quote cs generalizing text rest with
  | case1 | case2 | case4 | case5 | case7 => simp at h
  | case3 => simp_all
  | case6 _ _ _ hd _ _ hq _ _ ih =>
    have := decodeEscape_shorter hd
    have := ih hq
    simp_all
    omega
  | case8 c cs _ _ _ _ _ hq ih =>
    have := ih hq
    simp_all
    omega

/-- Reads the lexeme that starts with `c`. -/
def lexeme (c : Char) (cs : List Char) : Except LiteralFault (Lexeme × List Char) :=
  if isWordChar c then
    .ok (.word (String.ofList (c :: cs.takeWhile isWordChar)), cs.dropWhile isWordChar)
  else if c = '"' then
    match quoted '"' cs with
    | .error fault => .error fault
    | .ok (text, rest) => .ok (.string (String.ofList text), rest)
  else if c = '\'' then
    match quoted '\'' cs with
    | .error fault => .error fault
    | .ok ([d], rest) => .ok (.char d, rest)
    | .ok _ => .error ⟨.singleCharacterExpected, 0⟩
  else .ok (.symbol c, cs)

/-- What follows a lexeme is no longer than what follows its first character. -/
theorem lexeme_shorter {c : Char} {cs rest : List Char} {l : Lexeme}
    (h : lexeme c cs = .ok (l, rest)) : rest.length ≤ cs.length := by
  unfold lexeme at h
  split at h
  · have := (List.dropWhile_sublist isWordChar (l := cs)).length_le
    simp_all
  · split at h
    · split at h
      · simp at h
      · rename_i hq
        have := quoted_shorter hq
        simp_all
        omega
    · split at h
      · split at h
        · simp at h
        · rename_i hq
          have := quoted_shorter hq
          simp_all
          omega
        · simp at h
      · simp_all

/-- The tokens of a text that starts on the line `start`. -/
def tokens (start : Nat) (cs : List Char) : Except ReadError TokenizedText :=
  match _h : skipBlanks false start cs with
  | (line, []) => .ok ⟨[], line⟩
  | (line, c :: rest) =>
    match _hl : lexeme c rest with
    | .error fault => .error ⟨line + fault.lineBreaks, fault.cause⟩
    | .ok (l, rest) =>
      match tokens line rest with
      | .error e => .error e
      | .ok text => .ok { text with tokens := ⟨l, line⟩ :: text.tokens }
termination_by cs.length
decreasing_by
  have h₁ := skipBlanks_le false start cs
  have h₂ := lexeme_shorter _hl
  simp [_h] at h₁
  omega

end Lexer

/-- The tokens of a text. -/
def tokenize (text : String) : Except ReadError TokenizedText :=
  Lexer.tokens 1 text.toList

end AnnotationIndex
