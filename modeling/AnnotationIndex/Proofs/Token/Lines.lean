import AnnotationIndex.Proofs.Token.LineBreak

/-!
# Texts one after another

A text that has tokens can be followed by another one on a new line: the tokens of both are those of
the first and then those of the second, on lines counted on (`Lexer.tokens_append_break`). Every
line break of a text counts, since none lies inside a token (`Lexer.lastLine_eq`), and where a text
starts only moves its lines (`Lexer.tokens_add`).
-/

namespace AnnotationIndex

open Text

/-! ## Other lines -/

/-- The token on another line. -/
def Token.reline (f : Nat → Nat) (t : Token) : Token := { t with line := f t.line }

/-- The text on other lines. -/
def TokenizedText.reline (f : Nat → Nat) (t : TokenizedText) : TokenizedText :=
  ⟨t.tokens.map (.reline f), f t.lastLine⟩

/-- The error on another line. -/
def ReadError.reline (f : Nat → Nat) (e : ReadError) : ReadError := { e with line := f e.line }

/-! ## Tokens within a line -/

namespace Text

/-- What the reader takes has no line break in it, and it takes the same when the text goes on after
a line break. -/
def Inline {α : Type} (read : List Char → Except LiteralFault (α × List Char)) : Prop :=
  ∀ ⦃cs x left⦄, read cs = .ok (x, left) → left.count '\n' = cs.count '\n' ∧
    ∀ rest, read (cs ++ '\n' :: rest) = .ok (x, left ++ '\n' :: rest)

/-- A run of characters other than line breaks leaves all of these. -/
theorem count_dropWhile {p : Char → Bool} (hp : p '\n' = false) (cs : List Char) :
    (cs.dropWhile p).count '\n' = cs.count '\n' := by
  induction cs with
  | nil => rfl
  | cons c cs ih =>
    rw [List.dropWhile_cons]
    split
    · next hc =>
      rw [ih, List.count_cons_of_ne]
      rintro rfl
      rw [hp] at hc
      cases hc
    · rfl

/-- No digit is a line break. -/
theorem ne_break_of_digitValue? {base d : Nat} {c : Char} (hb : base ≤ 16)
    (h : digitValue? base c = some d) : c ≠ '\n' := by
  rintro rfl
  simp [digitValue?] at h
  omega

/-- Hexadecimal digits are read within a line. -/
theorem hexDigits_inline (count acc : Nat) : Inline (hexDigits count acc) := by
  intro cs x left h
  fun_induction hexDigits count acc cs with
  | case1 => cases h; exact ⟨rfl, fun _ => rfl⟩
  | case2 | case4 => cases h
  | case3 acc count c cs d hd ih =>
    obtain ⟨hcount, hread⟩ := ih h
    refine ⟨?_, fun rest => ?_⟩
    · rw [hcount, List.count_cons_of_ne (ne_break_of_digitValue? (Nat.le_refl 16) hd)]
    · simp only [List.cons_append, hexDigits, hd, hread]

/-- A code unit is read within a line. -/
theorem codeUnit_inline : Inline codeUnit := by
  intro cs x left h
  obtain ⟨hcount, hread⟩ := hexDigits_inline 4 0 h
  refine ⟨by rw [hcount, count_dropWhile rfl], fun rest => ?_⟩
  rw [codeUnit, dropWhile_break rfl]
  exact hread rest

/-- A Unicode escape is read within a line. -/
theorem unicodeEscape_inline : Inline unicodeEscape := by
  intro cs x left h
  rw [unicodeEscape] at h
  simp only [unicodeEscape]
  split at h
  · cases h
  next unit more hunit =>
  obtain ⟨hcount, hread⟩ := codeUnit_inline hunit
  simp only [hread]
  split at h
  · next hhigh =>
    simp only [if_pos hhigh]
    split at h
    · split at h
      · cases h
      next low more' hlow =>
      obtain ⟨hcount', hread'⟩ := codeUnit_inline hlow
      simp only [List.cons_append, hread']
      split at h
      · next hlow =>
        simp only [Except.ok.injEq, Prod.mk.injEq] at h
        obtain ⟨rfl, rfl⟩ := h
        refine ⟨?_, fun rest => if_pos hlow⟩
        rw [hcount', ← hcount]
        rfl
      · cases h
    · cases h
  · next hhigh =>
    simp only [if_neg hhigh]
    split at h
    · cases h
    · next hlow =>
      simp only [Except.ok.injEq, Prod.mk.injEq] at h
      obtain ⟨rfl, rfl⟩ := h
      exact ⟨hcount, fun rest => if_neg hlow⟩

/-- Octal digits leave all line breaks. -/
theorem count_octalDigits (count acc : Nat) (cs : List Char) :
    (octalDigits count acc cs).2.count '\n' = cs.count '\n' := by
  fun_induction octalDigits count acc cs with
  | case1 | case2 | case4 => rfl
  | case3 acc count c cs d hd ih =>
    rw [ih, List.count_cons_of_ne (ne_break_of_digitValue? (by decide) hd)]

/-- An escape sequence is read within a line. -/
theorem decodeEscape_inline : Inline decodeEscape := by
  intro cs x left h
  cases cs with
  | nil => cases h
  | cons c cs =>
    rw [decodeEscape] at h
    simp only [List.cons_append, decodeEscape]
    cases hsimple : simpleEscape? c with
    | some d =>
      rw [hsimple] at h
      cases h
      refine ⟨?_, fun rest => rfl⟩
      rw [List.count_cons_of_ne]
      rintro rfl
      cases hsimple
    | none =>
      rw [hsimple] at h
      simp only at h ⊢
      split at h
      · next hu =>
        obtain ⟨hcount, hread⟩ := unicodeEscape_inline h
        simp only [if_pos hu]
        exact ⟨by rw [hcount, List.count_cons_of_ne (by rw [hu]; decide)], hread⟩
      next hu =>
      simp only [if_neg hu]
      cases hoctal : digitValue? 8 c with
      | none =>
        rw [hoctal] at h
        cases h
      | some d =>
        rw [hoctal] at h
        cases h
        refine ⟨?_, fun rest => by simp only [octalDigits_break]⟩
        rw [count_octalDigits, List.count_cons_of_ne (ne_break_of_digitValue? (by decide) hoctal)]

end Text

namespace Lexer

/-- A literal is read within a line. -/
theorem quoted_inline (quote : Char) : Inline (quoted quote) := by
  intro cs x left h
  fun_induction quoted quote cs generalizing x left with
  | case1 | case2 | case4 | case5 | case7 => cases h
  | case3 cs hbreak =>
    cases h
    exact ⟨by rw [List.count_cons_of_ne hbreak],
      fun rest => by rw [List.cons_append, quoted_cons, if_neg hbreak, if_pos rfl]⟩
  | case6 cs d more hd text more' hq hbreak hquote ih =>
    cases h
    obtain ⟨hcount, hread⟩ := decodeEscape_inline hd
    obtain ⟨hcount', hread'⟩ := ih hq
    refine ⟨by rw [hcount', hcount, List.count_cons_of_ne hbreak], fun rest => ?_⟩
    rw [List.cons_append, quoted_cons, if_neg hbreak, if_neg hquote, if_pos rfl, hread]
    simp only [Except.bind, hread', Except.map]
  | case8 c cs hbreak hquote hescape text more hq ih =>
    cases h
    obtain ⟨hcount, hread⟩ := ih hq
    refine ⟨by rw [hcount, List.count_cons_of_ne hbreak], fun rest => ?_⟩
    rw [List.cons_append, quoted_cons, if_neg hbreak, if_neg hquote, if_neg hescape]
    simp only [Except.bind, hread, Except.map]

/-- A lexeme lies on one line. -/
theorem lexeme_inline (c : Char) : Inline (lexeme c) := by
  intro cs l left h
  rw [lexeme] at h
  simp only [lexeme]
  split at h
  · next hword =>
    have hstop : isWordChar '\n' = false := isWordChar_eq_false_of_isBlank (by decide)
    cases h
    refine ⟨count_dropWhile hstop cs, fun rest => ?_⟩
    rw [if_pos hword, takeWhile_break hstop, dropWhile_break hstop]
  next hword =>
  simp only [if_neg hword]
  split at h
  · next hstring =>
    simp only [if_pos hstring]
    split at h
    · cases h
    next hq =>
    cases h
    obtain ⟨hcount, hread⟩ := quoted_inline _ hq
    exact ⟨hcount, fun rest => by rw [hread]⟩
  next hstring =>
  simp only [if_neg hstring]
  split at h
  · next hchar =>
    simp only [if_pos hchar]
    split at h
    · cases h
    · next hq =>
      cases h
      obtain ⟨hcount, hread⟩ := quoted_inline _ hq
      exact ⟨hcount, fun rest => by rw [hread]⟩
    · cases h
  · next hchar =>
    cases h
    exact ⟨rfl, fun rest => if_neg hchar⟩

/-! ## White space -/

/-- Blanks are skipped alike on a line further down. -/
theorem skipBlanks_add (inComment : Bool) (line k : Nat) (cs : List Char) :
    skipBlanks inComment (line + k) cs =
      ((skipBlanks inComment line cs).1 + k, (skipBlanks inComment line cs).2) := by
  induction cs generalizing inComment line with
  | nil => cases inComment <;> rfl
  | cons c cs ih =>
    cases inComment with
    | true =>
      rw [skipBlanks, skipBlanks]
      split
      · rw [Nat.add_right_comm, ih]
      · exact ih true line
    | false =>
      rw [skipBlanks, skipBlanks]
      split
      · split
        · rw [Nat.add_right_comm, ih]
        · exact ih false line
      split
      · exact ih true line
      · rfl

/-- Skipping blanks counts the line breaks that it does not leave. -/
theorem skipBlanks_count (inComment : Bool) (line : Nat) (cs : List Char) :
    (skipBlanks inComment line cs).1 + (skipBlanks inComment line cs).2.count '\n' =
      line + cs.count '\n' := by
  induction cs generalizing inComment line with
  | nil => cases inComment <;> rfl
  | cons c cs ih =>
    by_cases hbreak : c = '\n'
    · have hskip : skipBlanks inComment line (c :: cs) = skipBlanks false (line + 1) cs := by
        rw [hbreak]
        cases inComment <;> rfl
      rw [hskip, ih, hbreak, List.count_cons_self, Nat.add_right_comm, Nat.add_assoc]
    · rw [List.count_cons_of_ne hbreak]
      cases inComment with
      | true =>
        rw [skipBlanks, if_neg hbreak]
        exact ih true line
      | false =>
        rw [skipBlanks, if_neg hbreak]
        split
        · exact ih false line
        split
        · exact ih true line
        · rw [List.count_cons_of_ne hbreak]

/-- White space and comments end at the same character when the text goes on in a new line, and else
with the text. -/
theorem skipBlanks_append_break (inComment : Bool) (line : Nat) (cs rest : List Char) :
    skipBlanks inComment line (cs ++ '\n' :: rest) =
      match skipBlanks inComment line cs with
      | (next, []) => skipBlanks false (next + 1) rest
      | (next, c :: left) => (next, c :: (left ++ '\n' :: rest)) := by
  induction cs generalizing inComment line with
  | nil => cases inComment <;> rfl
  | cons c cs ih =>
    cases inComment with
    | true =>
      rw [List.cons_append, skipBlanks, skipBlanks]
      split
      · exact ih false (line + 1)
      · exact ih true line
    | false =>
      have hhead : (cs ++ '\n' :: rest).head? = some '/' ↔ cs.head? = some '/' := by
        cases cs <;> simp
      rw [List.cons_append, skipBlanks, skipBlanks]
      simp only [hhead]
      split
      · exact ih false _
      split
      · exact ih true line
      · rfl

/-! ## Texts -/

/-- A text that starts further down has the same tokens further down. -/
theorem tokens_add (line k : Nat) (cs : List Char) :
    tokens (line + k) cs = match tokens line cs with
      | .error e => .error (e.reline (· + k))
      | .ok t => .ok (t.reline (· + k)) := by
  induction hn : cs.length using Nat.strongRecOn generalizing line cs with
  | ind n ih =>
    rw [tokens_eq, skipBlanks_add, tokens_eq line]
    have hle := skipBlanks_le false line cs
    generalize skipBlanks false line cs = skipped at hle
    obtain ⟨next, left⟩ := skipped
    cases left with
    | nil => rfl
    | cons c left =>
      simp only
      cases hl : lexeme c left with
      | error fault => simp only [ReadError.reline, Nat.add_right_comm]
      | ok p =>
        obtain ⟨l, left'⟩ := p
        have hlt : left'.length < n := by
          have := lexeme_shorter hl
          simp only [List.length_cons] at hle
          omega
        simp only [ih left'.length hlt next left' rfl]
        cases tokens next left' <;> rfl

/-- A text that has tokens ends as many lines below its start as it has line breaks. -/
theorem lastLine_eq {line : Nat} {cs : List Char} {t : TokenizedText}
    (h : tokens line cs = .ok t) : t.lastLine = line + cs.count '\n' := by
  fun_induction tokens line cs generalizing t with
  | case1 line cs next hskip =>
    cases h
    simpa [hskip] using skipBlanks_count false line cs
  | case2 | case3 => cases h
  | case4 line cs next c left hskip l left' hl text ht ih =>
    cases h
    have hcount := skipBlanks_count false line cs
    have hc : c ≠ '\n' := by
      rintro rfl
      exact absurd (isBlank_of_skipBlanks hskip) (by decide)
    rw [hskip, List.count_cons_of_ne hc, ← (lexeme_inline c hl).1] at hcount
    exact (ih ht).trans hcount

/-- **Texts one after another have their tokens one after another**, when the first has tokens and
the second starts on a new line. -/
theorem tokens_append_break {line : Nat} {cs : List Char} {t : TokenizedText}
    (h : tokens line cs = .ok t) (rest : List Char) :
    tokens line (cs ++ '\n' :: rest) = (tokens (t.lastLine + 1) rest).map (.prepend t.tokens) := by
  fun_induction tokens line cs generalizing t with
  | case1 line cs next hskip =>
    cases h
    rw [tokens_eq, skipBlanks_append_break, hskip, ← tokens_eq]
    cases tokens (next + 1) rest <;> rfl
  | case2 | case3 => cases h
  | case4 line cs next c left hskip l left' hl text ht ih =>
    cases h
    rw [tokens_eq, skipBlanks_append_break, hskip]
    simp only [(lexeme_inline c hl).2, ih ht]
    exact map_prepend_append ..

end Lexer

end AnnotationIndex
