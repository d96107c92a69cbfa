import AnnotationIndex.Proofs.Token.Lines

/-!
# Faulty literals

The scan of a text looks at most one character ahead of what it takes, so that what it has taken
does not depend on what comes later (`Text.Settled`). A text without tokens therefore has a first
literal that is wrong, and however that literal goes on, the tokens before it are the same
(`Lexer.tokens_error`). The error is on the line of that literal, or on the next one when the fault
shows at the line break (`Lexer.lexeme_showsInLine`).
-/

namespace AnnotationIndex

open Text

/-- The cause is noticed after what it is about, so that the error is where the text goes on. -/
def Cause.isLate : Cause → Bool
  | .unterminatedLiteral _ | .singleCharacterExpected | .unterminatedEscape | .hexDigitsExpected
  | .invalidSurrogatePair | .invalidUnicodeEscape | .invalidEscape _ => true
  | .fieldTypeExpected _ | .malformedFloating _ _ | .signatureExpected | .duplicateField _ _
  | .undefinedFieldType _ | .unknownField _ _ | .duplicateValue _ => true
  | _ => false

namespace Text

/-- What the reader takes does not depend on what comes after the next character. -/
def Settled {α : Type} (read : List Char → Except LiteralFault (α × List Char)) : Prop :=
  ∀ ⦃cs x left⦄, read cs = .ok (x, left) → ∃ used, cs = used ++ left ∧
    ∀ left', left'.head? = left.head? → read (used ++ left') = .ok (x, left')

/-- Two texts with the same next character have one behind the same beginning. -/
theorem head?_append_congr {left left' : List Char} (h : left'.head? = left.head?)
    (used : List Char) : (used ++ left').head? = (used ++ left).head? := by
  cases used with
  | nil => exact h
  | cons c used => rfl

/-- The run of characters at the beginning of a text ends with the same next character. -/
theorem takeWhile_settled {p : Char → Bool} {cs left' : List Char}
    (h : left'.head? = (cs.dropWhile p).head?) :
    (cs.takeWhile p ++ left').takeWhile p = cs.takeWhile p ∧
      (cs.takeWhile p ++ left').dropWhile p = left' := by
  induction cs with
  | nil =>
    obtain rfl : left' = [] := List.head?_eq_none_iff.1 h
    exact ⟨rfl, rfl⟩
  | cons c cs ih =>
    by_cases hc : p c = true
    · rw [List.dropWhile_cons_of_pos hc] at h
      rw [List.takeWhile_cons_of_pos hc, List.cons_append, List.takeWhile_cons_of_pos hc,
        List.dropWhile_cons_of_pos hc, (ih h).1, (ih h).2]
      exact ⟨rfl, rfl⟩
    · rw [List.dropWhile_cons_of_neg hc] at h
      cases left' with
      | nil => cases h
      | cons d left' =>
        obtain rfl : d = c := Option.some.inj h
        rw [List.takeWhile_cons_of_neg hc, List.nil_append, List.takeWhile_cons_of_neg hc,
          List.dropWhile_cons_of_neg hc]
        exact ⟨rfl, rfl⟩

/-- Where no line break is lost, none has been taken. -/
theorem not_mem_of_count {used left : List Char}
    (h : left.count '\n' = (used ++ left).count '\n') : '\n' ∉ used := by
  rw [List.count_append] at h
  rw [← List.count_eq_zero]
  omega

/-- Reading hexadecimal digits is settled by the next character. -/
theorem hexDigits_settled (count acc : Nat) : Settled (hexDigits count acc) := by
  intro cs x left h
  fun_induction hexDigits count acc cs with
  | case1 => cases h; exact ⟨[], rfl, fun _ _ => rfl⟩
  | case2 | case4 => cases h
  | case3 acc count c cs d hd ih =>
    obtain ⟨used, rfl, hread⟩ := ih h
    exact ⟨c :: used, rfl, fun left' hl => by
      rw [List.cons_append, hexDigits]
      simp only [hd, hread left' hl]⟩

/-- Reading a code unit is settled by the next character. -/
theorem codeUnit_settled : Settled codeUnit := by
  intro cs x left h
  obtain ⟨used, hused, hread⟩ := hexDigits_settled 4 0 h
  refine ⟨cs.takeWhile (· = 'u') ++ used, ?_, fun left' hl => ?_⟩
  · rw [List.append_assoc, ← hused, List.takeWhile_append_dropWhile]
  · have hhead : (used ++ left').head? = (cs.dropWhile (· = 'u')).head? := by
      rw [hused]
      exact head?_append_congr hl used
    rw [codeUnit, List.append_assoc, (takeWhile_settled hhead).2, hread left' hl]

/-- Reading a Unicode escape is settled by the next character. -/
theorem unicodeEscape_settled : Settled unicodeEscape := by
  intro cs x left h
  rw [unicodeEscape] at h
  split at h
  · cases h
  next unit more hunit =>
  obtain ⟨used, rfl, hread⟩ := codeUnit_settled hunit
  split at h
  · next hhigh =>
    split at h
    · next more =>
      split at h
      · cases h
      next low more' hlow =>
      obtain ⟨used', rfl, hread'⟩ := codeUnit_settled hlow
      split at h
      · next hpair =>
        simp only [Except.ok.injEq, Prod.mk.injEq] at h
        obtain ⟨rfl, rfl⟩ := h
        refine ⟨used ++ '\\' :: 'u' :: used', by simp, fun left' hl => ?_⟩
        have hfirst : codeUnit (used ++ '\\' :: 'u' :: (used' ++ left')) =
            .ok (unit, '\\' :: 'u' :: (used' ++ left')) := hread _ rfl
        rw [unicodeEscape, List.append_assoc]
        simp only [hfirst, if_pos hhigh, List.cons_append, hread' left' hl, if_pos hpair]
      · cases h
    · cases h
  · next hhigh =>
    split at h
    · cases h
    · next hlow =>
      cases h
      refine ⟨used, rfl, fun left' hl => ?_⟩
      rw [unicodeEscape, hread left' hl]
      simp only [if_neg hhigh, if_neg hlow]

/-- Reading octal digits is settled by the next character. -/
theorem octalDigits_settled (count acc : Nat) (cs : List Char) :
    ∃ used, cs = used ++ (octalDigits count acc cs).2 ∧
      ∀ left', left'.head? = (octalDigits count acc cs).2.head? →
        octalDigits count acc (used ++ left') = ((octalDigits count acc cs).1, left') := by
  fun_induction octalDigits count acc cs with
  | case1 acc cs => exact ⟨[], rfl, fun _ _ => rfl⟩
  | case2 count acc =>
    refine ⟨[], rfl, fun left' hl => ?_⟩
    obtain rfl : left' = [] := List.head?_eq_none_iff.1 hl
    rfl
  | case3 acc count c cs d hd ih =>
    obtain ⟨used, hused, hread⟩ := ih
    refine ⟨c :: used, by rw [List.cons_append, ← hused], fun left' hl => ?_⟩
    rw [List.cons_append, octalDigits]
    simp only [hd, hread left' hl]
  | case4 acc count c cs hd =>
    refine ⟨[], rfl, fun left' hl => ?_⟩
    cases left' with
    | nil => cases hl
    | cons d left' =>
      obtain rfl : d = c := Option.some.inj hl
      rw [List.nil_append, octalDigits]
      simp only [hd]

/-- Reading an escape sequence is settled by the next character. -/
theorem decodeEscape_settled : Settled decodeEscape := by
  intro cs x left h
  cases cs with
  | nil => cases h
  | cons c cs =>
    rw [decodeEscape] at h
    cases hsimple : simpleEscape? c with
    | some d =>
      rw [hsimple] at h
      cases h
      exact ⟨[c], rfl, fun left' _ => by simp only [List.singleton_append, decodeEscape, hsimple]⟩
    | none =>
      rw [hsimple] at h
      dsimp only at h
      split at h
      · next hu =>
        obtain ⟨used, rfl, hread⟩ := unicodeEscape_settled h
        exact ⟨c :: used, rfl, fun left' hl => by
          simp only [List.cons_append, decodeEscape, hsimple, if_pos hu, hread left' hl]⟩
      next hu =>
      cases hoctal : digitValue? 8 c with
      | none =>
        rw [hoctal] at h
        cases h
      | some d =>
        rw [hoctal] at h
        cases h
        obtain ⟨used, hused, hread⟩ := octalDigits_settled (if d ≤ 3 then 2 else 1) d cs
        exact ⟨c :: used, by rw [List.cons_append, ← hused], fun left' hl => by
          simp only [List.cons_append, decodeEscape, hsimple, if_neg hu, hoctal, hread left' hl]⟩

end Text

namespace Lexer

/-- Reading a literal is settled by the next character. -/
theorem quoted_settled (quote : Char) : Settled (quoted quote) := by
  intro cs x left h
  fun_induction quoted quote cs generalizing x left with
  | case1 | case2 | case4 | case5 | case7 => cases h
  | case3 cs hbreak =>
    cases h
    exact ⟨[quote], rfl, fun left' _ => by
      rw [List.singleton_append, quoted_cons, if_neg hbreak, if_pos rfl]⟩
  | case6 cs d more hd text more' hq hbreak hquote ih =>
    cases h
    obtain ⟨used', rfl, hread'⟩ := ih hq
    obtain ⟨used, rfl, hread⟩ := decodeEscape_settled hd
    refine ⟨'\\' :: (used ++ used'), by simp, fun left' hl => ?_⟩
    rw [List.cons_append, quoted_cons, if_neg hbreak, if_neg hquote, if_pos rfl, List.append_assoc,
      hread _ (head?_append_congr hl used')]
    simp only [Except.bind, hread' left' hl, Except.map]
  | case8 c cs hbreak hquote hescape text more hq ih =>
    cases h
    obtain ⟨used, rfl, hread⟩ := ih hq
    refine ⟨c :: used, rfl, fun left' hl => ?_⟩
    rw [List.cons_append, quoted_cons, if_neg hbreak, if_neg hquote, if_neg hescape]
    simp only [Except.bind, hread left' hl, Except.map]

/-- Reading a lexeme is settled by the next character. -/
theorem lexeme_settled (c : Char) : Settled (lexeme c) := by
  intro cs x left h
  rw [lexeme] at h
  split at h
  · next hword =>
    cases h
    refine ⟨cs.takeWhile isWordChar, List.takeWhile_append_dropWhile.symm, fun left' hl => ?_⟩
    rw [lexeme, if_pos hword, (takeWhile_settled hl).1, (takeWhile_settled hl).2]
  next hword =>
  split at h
  · next hstring =>
    split at h
    · cases h
    next hq =>
    cases h
    obtain ⟨used, rfl, hread⟩ := quoted_settled _ hq
    exact ⟨used, rfl, fun left' hl => by
      rw [lexeme, if_neg hword, if_pos hstring, hread left' hl]⟩
  next hstring =>
  split at h
  · next hchar =>
    split at h
    · cases h
    · next hq =>
      cases h
      obtain ⟨used, rfl, hread⟩ := quoted_settled _ hq
      exact ⟨used, rfl, fun left' hl => by
        rw [lexeme, if_neg hword, if_neg hstring, if_pos hchar, hread left' hl]⟩
    · cases h
  · next hchar =>
    cases h
    exact ⟨[], rfl, fun left' _ => by
      rw [List.nil_append, lexeme, if_neg hword, if_neg hstring, if_neg hchar]⟩

/-- White space and comments end at the same character however the text goes on, unless that is a
slash, which another slash makes the start of a comment. -/
theorem skipBlanks_settled {inComment : Bool} {line next : Nat} {cs left : List Char} {c : Char}
    (h : skipBlanks inComment line cs = (next, c :: left)) :
    ∃ blanks, cs = blanks ++ c :: left ∧ next = line + blanks.count '\n' ∧
      ∀ left', (c = '/' → left'.head? = left.head?) →
        skipBlanks inComment line (blanks ++ c :: left') = (next, c :: left') := by
  have hcount (used : List Char) (hcs : cs = used ++ c :: left) :
      next = line + used.count '\n' := by
    have := skipBlanks_count inComment line cs
    rw [h, hcs, List.count_append] at this
    dsimp only at this
    omega
  suffices h : ∃ blanks, cs = blanks ++ c :: left ∧ ∀ left', (c = '/' → left'.head? = left.head?) →
      skipBlanks inComment line (blanks ++ c :: left') = (next, c :: left') by
    obtain ⟨blanks, hcs, hskip⟩ := h
    exact ⟨blanks, hcs, hcount blanks hcs, hskip⟩
  clear hcount
  fun_induction skipBlanks inComment line cs with
  | case1 => cases h
  | case2 line cs ih =>
    obtain ⟨blanks, rfl, hskip⟩ := ih h
    exact ⟨'\n' :: blanks, rfl, fun left' hl => by
      rw [List.cons_append, skipBlanks, if_pos rfl, hskip left' hl]⟩
  | case3 line d cs hd ih =>
    obtain ⟨blanks, rfl, hskip⟩ := ih h
    exact ⟨d :: blanks, rfl, fun left' hl => by
      rw [List.cons_append, skipBlanks, if_neg hd, hskip left' hl]⟩
  | case4 line d cs hd ih =>
    obtain ⟨blanks, rfl, hskip⟩ := ih h
    exact ⟨d :: blanks, rfl, fun left' hl => by
      rw [List.cons_append, skipBlanks, if_pos hd, hskip left' hl]⟩
  | case5 line d cs hd hcomment ih =>
    obtain ⟨blanks, rfl, hskip⟩ := ih h
    refine ⟨d :: blanks, rfl, fun left' hl => ?_⟩
    have hhead : (blanks ++ c :: left').head? = some '/' := by
      rw [← hcomment.2]
      exact head?_append_congr (by rfl) blanks
    rw [List.cons_append, skipBlanks, if_neg hd, if_pos ⟨hcomment.1, hhead⟩, hskip left' hl]
  | case6 line d cs hd hcomment =>
    cases h
    refine ⟨[], rfl, fun left' hl => ?_⟩
    rw [List.nil_append, skipBlanks, if_neg hd, if_neg]
    exact fun h => hcomment ⟨h.1, hl h.1 ▸ h.2⟩

/-! ## Faults -/

/-- Only literals are faulty. -/
theorem quote_of_lexeme_error {c : Char} {cs : List Char} {fault : LiteralFault}
    (h : lexeme c cs = .error fault) : c = '"' ∨ c = '\'' := by
  rw [lexeme] at h
  split at h
  · cases h
  split at h
  · next hc => exact .inl hc
  split at h
  · next hc => exact .inr hc
  · cases h

/-- A text that has no tokens has a first faulty literal, however that literal goes on, and the
error is counted on from its line. -/
theorem tokens_error {line : Nat} {cs : List Char} {e : ReadError}
    (h : tokens line cs = .error e) :
    ∃ before quote body fault ts, cs = before ++ quote :: body ∧ (quote = '"' ∨ quote = '\'') ∧
      (∀ body', tokens line (before ++ quote :: body') =
        (tokens (line + before.count '\n') (quote :: body')).map (.prepend ts)) ∧
      lexeme quote body = .error fault ∧
      e = ⟨line + before.count '\n' + fault.lineBreaks, fault.cause⟩ := by
  fun_induction tokens line cs with
  | case1 => cases h
  | case2 line cs next c left hskip fault hl =>
    cases h
    have hquote := quote_of_lexeme_error hl
    have hslash : c ≠ '/' := by rintro rfl; simp at hquote
    have hblank := isBlank_of_skipBlanks hskip
    obtain ⟨blanks, rfl, rfl, hskip'⟩ := skipBlanks_settled hskip
    refine ⟨blanks, c, left, fault, [], rfl, hquote, fun body' => ?_, hl, rfl⟩
    have hstart (n : Nat) : skipBlanks false n (c :: body') = (n, c :: body') := by
      rw [skipBlanks, if_neg (by simp [hblank]), if_neg fun h => hslash h.1]
    have hsame : tokens line (blanks ++ c :: body') =
        tokens (line + blanks.count '\n') (c :: body') := by
      rw [tokens_eq, hskip' body' fun h => absurd h hslash, tokens_eq _ (c :: body'), hstart]
    rw [hsame]
    cases tokens (line + blanks.count '\n') (c :: body') <;> rfl
  | case3 line cs next c left hskip l left' hl e' ht ih =>
    cases h
    obtain ⟨before, quote, body, fault, ts, rfl, hquote, hread, hfault, rfl⟩ := ih ht
    have hbreak : c ≠ '\n' := by
      rintro rfl
      exact absurd (isBlank_of_skipBlanks hskip) (by decide)
    obtain ⟨blanks, rfl, rfl, hskip'⟩ := skipBlanks_settled hskip
    obtain ⟨used, rfl, hl'⟩ := lexeme_settled c hl
    have hused : (c :: used).count '\n' = 0 := by
      rw [List.count_cons_of_ne hbreak, List.count_eq_zero]
      exact not_mem_of_count (lexeme_inline c hl).1
    have hcount : (blanks ++ (c :: used ++ before)).count '\n' =
        blanks.count '\n' + before.count '\n' := by
      rw [List.count_append, List.count_append, hused, Nat.zero_add]
    refine ⟨blanks ++ (c :: used ++ before), quote, body, fault,
      ⟨l, line + blanks.count '\n'⟩ :: ts, by simp, hquote, fun body' => ?_, hfault,
      by rw [hcount, Nat.add_assoc line]⟩
    have hhead : (before ++ quote :: body').head? = (before ++ quote :: body).head? :=
      head?_append_congr (by rfl) before
    rw [List.append_assoc, List.append_assoc, List.cons_append, tokens_eq,
      hskip' _ fun _ => head?_append_congr hhead used]
    simp only [hl' _ hhead, hread]
    rw [hcount, ← Nat.add_assoc]
    exact map_prepend_append ..
  | case4 => cases h

end Lexer

/-! ## Faults at line breaks -/

namespace Text

/-- A fault is noticed late, but within the line, or at the end of the line whatever the next one
holds. -/
structure ShowsInLine {α : Type} (read : List Char → Except LiteralFault α) (cs : List Char)
    (fault : LiteralFault) : Prop where
  late : fault.cause.isLate = true
  shows : fault.lineBreaks = 0 ∨ fault.lineBreaks = 1 ∧ ∃ line left, cs = line ++ '\n' :: left ∧
    '\n' ∉ line ∧ ∀ left', read (line ++ '\n' :: left') = .error fault

/-- A fault behind a part of a line shows in the line when it shows in what is left of it. -/
theorem ShowsInLine.append {α β : Type} {read : List Char → Except LiteralFault α}
    {read' : List Char → Except LiteralFault β} {left : List Char} {fault : LiteralFault}
    (h : ShowsInLine read' left fault) (used : List Char) (hused : '\n' ∉ used)
    (hsame : ∀ left', left'.head? = left.head? → read' left' = .error fault →
      read (used ++ left') = .error fault) : ShowsInLine read (used ++ left) fault := by
  refine ⟨h.late, h.shows.imp_right ?_⟩
  rintro ⟨hone, line, more, rfl, hline, h⟩
  refine ⟨hone, used ++ line, more, by simp, by simp [hused, hline], fun left' => ?_⟩
  rw [List.append_assoc]
  exact hsame _ (head?_append_congr (by rfl) line) (h left')

/-- A fault at a character shows in its line, which ends there if the character is a line break. -/
theorem showsInLine_at {α : Type} {read : List Char → Except LiteralFault α} {cause : Cause}
    {c : Char} {cs : List Char} (hlate : cause.isLate = true)
    (h : ∀ cs', read (c :: cs') = .error (.at cause c)) :
    ShowsInLine read (c :: cs) (.at cause c) := by
  refine ⟨hlate, ?_⟩
  by_cases hc : c = '\n'
  · subst hc
    exact .inr ⟨rfl, [], cs, rfl, by simp, h⟩
  · exact .inl (if_neg hc)

/-- A fault in hexadecimal digits shows in its line. -/
theorem hexDigits_showsInLine {count acc : Nat} {cs : List Char} {fault : LiteralFault}
    (h : hexDigits count acc cs = .error fault) :
    ShowsInLine (hexDigits count acc) cs fault := by
  fun_induction hexDigits count acc cs with
  | case1 => cases h
  | case2 => cases h; exact ⟨rfl, .inl rfl⟩
  | case3 acc count c cs d hd ih =>
    refine (ih h).append [c] ?_ fun left' _ hl => ?_
    · simpa using (ne_break_of_digitValue? (Nat.le_refl 16) hd).symm
    · rw [List.singleton_append, hexDigits]
      simp only [hd, hl]
  | case4 acc count c cs hd =>
    cases h
    exact showsInLine_at rfl fun cs' => by
      rw [hexDigits]
      simp only [hd]

/-- A fault in a code unit shows in its line. -/
theorem codeUnit_showsInLine {cs : List Char} {fault : LiteralFault}
    (h : codeUnit cs = .error fault) : ShowsInLine codeUnit cs fault := by
  rw [← List.takeWhile_append_dropWhile (p := (· = 'u')) (l := cs)]
  refine (hexDigits_showsInLine h).append _ (fun hmem => ?_) fun left' hl he => ?_
  · have := List.all_eq_true.1 (List.all_takeWhile (p := (· = 'u')) (l := cs)) _ hmem
    simp at this
  · rw [codeUnit, (takeWhile_settled hl).2, he]

/-- A fault in a Unicode escape shows in its line. -/
theorem unicodeEscape_showsInLine {cs : List Char} {fault : LiteralFault}
    (h : unicodeEscape cs = .error fault) : ShowsInLine unicodeEscape cs fault := by
  rw [unicodeEscape] at h
  split at h
  · next hunit =>
    cases h
    refine (codeUnit_showsInLine hunit).append [] (by simp) fun left' _ he => ?_
    rw [List.nil_append, unicodeEscape, he]
  next unit more hunit =>
  have hcount := (codeUnit_inline hunit).1
  obtain ⟨used, rfl, hread⟩ := codeUnit_settled hunit
  split at h
  · next hhigh =>
    split at h
    · next more =>
      split at h
      · next hlow =>
        cases h
        have h' : ShowsInLine unicodeEscape (used ++ ['\\', 'u'] ++ more) fault := by
          refine (codeUnit_showsInLine hlow).append _ ?_ fun left' _ he => ?_
          · simpa using not_mem_of_count hcount
          · have hfirst : codeUnit (used ++ '\\' :: 'u' :: left') =
              .ok (unit, '\\' :: 'u' :: left') := hread _ rfl
            rw [unicodeEscape, List.append_assoc]
            simp only [List.cons_append, List.nil_append, hfirst, if_pos hhigh, he]
        simpa using h'
      · split at h
        · cases h
        · cases h; exact ⟨rfl, .inl rfl⟩
    · cases h; exact ⟨rfl, .inl rfl⟩
  · split at h
    · cases h; exact ⟨rfl, .inl rfl⟩
    · cases h

/-- A fault in an escape sequence shows in its line. -/
theorem decodeEscape_showsInLine {cs : List Char} {fault : LiteralFault}
    (h : decodeEscape cs = .error fault) : ShowsInLine decodeEscape cs fault := by
  cases cs with
  | nil => cases h; exact ⟨rfl, .inl rfl⟩
  | cons c cs =>
    rw [decodeEscape] at h
    cases hsimple : simpleEscape? c with
    | some d =>
      rw [hsimple] at h
      cases h
    | none =>
      rw [hsimple] at h
      dsimp only at h
      split at h
      · next hu =>
        refine (unicodeEscape_showsInLine h).append [c] (by simp [hu]) fun left' _ he => ?_
        simp only [List.singleton_append, decodeEscape, hsimple, if_pos hu, he]
      next hu =>
      cases hoctal : digitValue? 8 c with
      | some d =>
        rw [hoctal] at h
        cases h
      | none =>
        rw [hoctal] at h
        cases h
        exact showsInLine_at rfl fun cs' => by
          simp only [decodeEscape, hsimple, if_neg hu, hoctal]

end Text

namespace Lexer

/-- A fault in a literal shows in its line. -/
theorem quoted_showsInLine {quote : Char} {cs : List Char} {fault : LiteralFault}
    (h : quoted quote cs = .error fault) : ShowsInLine (quoted quote) cs fault := by
  fun_induction quoted quote cs generalizing fault with
  | case1 => cases h; exact ⟨rfl, .inl rfl⟩
  | case2 cs =>
    cases h
    exact ⟨rfl, .inr ⟨rfl, [], cs, rfl, by simp, fun left' => by
      rw [List.nil_append, quoted_cons, if_pos rfl]⟩⟩
  | case3 | case6 | case8 => cases h
  | case4 cs fault' hd hbreak hquote =>
    cases h
    refine (decodeEscape_showsInLine hd).append ['\\'] (by simp) fun left' _ he => ?_
    rw [List.singleton_append, quoted_cons, if_neg hbreak, if_neg hquote, if_pos rfl, he]
    rfl
  | case5 cs d more hd fault' hq hbreak hquote ih =>
    cases h
    have hcount := (decodeEscape_inline hd).1
    obtain ⟨used, rfl, hread⟩ := decodeEscape_settled hd
    refine (ih hq).append ('\\' :: used) ?_ fun left' hl he => ?_
    · simpa using not_mem_of_count hcount
    · rw [List.cons_append, quoted_cons, if_neg hbreak, if_neg hquote, if_pos rfl, hread left' hl]
      simp only [Except.bind, he, Except.map]
  | case7 c cs hbreak hquote hescape fault' hq ih =>
    cases h
    refine (ih hq).append [c] (by simpa using Ne.symm hbreak) fun left' _ he => ?_
    rw [List.singleton_append, quoted_cons, if_neg hbreak, if_neg hquote, if_neg hescape]
    simp only [Except.bind, he, Except.map]

/-- The fault of a lexeme shows in the line of that lexeme, or at the end of the line. -/
theorem lexeme_showsInLine {c : Char} {cs : List Char} {fault : LiteralFault}
    (h : lexeme c cs = .error fault) : ShowsInLine (lexeme c) cs fault := by
  rw [lexeme] at h
  split at h
  · cases h
  next hword =>
  split at h
  · next hstring =>
    split at h
    · next hq =>
      cases h
      refine (quoted_showsInLine hq).append [] (by simp) fun left' _ he => ?_
      rw [List.nil_append, lexeme, if_neg hword, if_pos hstring, he]
    · cases h
  next hstring =>
  split at h
  · next hchar =>
    split at h
    · next hq =>
      cases h
      refine (quoted_showsInLine hq).append [] (by simp) fun left' _ he => ?_
      rw [List.nil_append, lexeme, if_neg hword, if_neg hstring, if_pos hchar, he]
    · cases h
    · cases h; exact ⟨rfl, .inl rfl⟩
  · cases h

end Lexer

end AnnotationIndex
