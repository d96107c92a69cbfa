import AnnotationIndex.Layout
import AnnotationIndex.Token.Lexer
import Mathlib.Data.List.Forall2

/-!
# Scanning a line

`Scans cs L` says that the characters of a line make up the lexemes `L`. It is defined along the
line, from lexeme to lexeme, so that the pieces of a line can be scanned one by one and put together
(`Scans.append`), provided that no two of them run into one another (`Apart`). The main statement is
`Layout.tokens_text`: the tokens of laid-out lines are the lexemes of each line, on the lines in
order, however deep the lines are indented.
-/

namespace AnnotationIndex

open Text Lexer

/-! ## Classes of characters -/

/-- A character that is a token of its own. -/
def Text.isSymbol (c : Char) : Bool :=
  !isWordChar c && !isBlank c && c != '"' && c != '\''

/-- White space is never part of a word. -/
theorem Text.isWordChar_eq_false_of_isBlank {c : Char} (h : isBlank c = true) :
    isWordChar c = false := by
  have hmem : c.toNat ∈ [9, 10, 11, 12, 13, 0x20, 0x85, 0xa0, 0x1680, 0x2000, 0x2001, 0x2002,
      0x2003, 0x2004, 0x2005, 0x2006, 0x2007, 0x2008, 0x2009, 0x200a, 0x2028, 0x2029, 0x202f,
      0x205f, 0x3000] := by
    simp only [isBlank, Bool.or_eq_true, Bool.and_eq_true, decide_eq_true_eq] at h
    simp only [List.mem_cons, List.not_mem_nil, or_false]
    omega
  have hall : ∀ n ∈ [9, 10, 11, 12, 13, 0x20, 0x85, 0xa0, 0x1680, 0x2000, 0x2001, 0x2002, 0x2003,
      0x2004, 0x2005, 0x2006, 0x2007, 0x2008, 0x2009, 0x200a, 0x2028, 0x2029, 0x202f, 0x205f,
      0x3000], isWordChar (Char.ofNat n) = false := by decide +kernel
  rw [← Char.ofNat_toNat c]
  exact hall _ hmem

/-- A word character is no blank. -/
theorem Text.isBlank_eq_false_of_isWordChar {c : Char} (h : isWordChar c = true) :
    isBlank c = false := by
  refine Bool.eq_false_iff.2 fun hb => ?_
  rw [isWordChar_eq_false_of_isBlank hb] at h
  cases h

/-! ## Lines -/

/-- The characters of a line make up the lexemes. -/
inductive Scans : List Char → List Lexeme → Prop where
  | nil : Scans [] []
  | blank {c : Char} {cs : List Char} {L : List Lexeme} (hb : isBlank c = true) (hn : c ≠ '\n')
      (h : Scans cs L) : Scans (c :: cs) L
  | word {w cs : List Char} {L : List Lexeme} (hne : w ≠ []) (hw : ∀ c ∈ w, isWordChar c = true)
      (hstop : ∀ c ∈ cs.head?, isWordChar c = false) (h : Scans cs L) :
      Scans (w ++ cs) (.word (String.ofList w) :: L)
  | symbol {c : Char} {cs : List Char} {L : List Lexeme} (hc : isSymbol c = true)
      (hslash : c = '/' → cs.head? ≠ some '/') (h : Scans cs L) : Scans (c :: cs) (.symbol c :: L)
  | string {body content cs : List Char} {L : List Lexeme} (hne : body ≠ [])
      (hq : ∀ rest, quoted '"' (body ++ rest) = .ok (content, rest)) (h : Scans cs L) :
      Scans ('"' :: body ++ cs) (.string (String.ofList content) :: L)
  | char {body cs : List Char} {d : Char} {L : List Lexeme} (hne : body ≠ [])
      (hq : ∀ rest, quoted '\'' (body ++ rest) = .ok ([d], rest)) (h : Scans cs L) :
      Scans ('\'' :: body ++ cs) (.char d :: L)

/-- The first text does not run into the second: they do not meet inside a word or a
comment mark. -/
def Apart (cs ds : List Char) : Prop :=
  ∀ c ∈ cs.getLast?, ∀ d ∈ ds.head?,
    ¬ (isWordChar c = true ∧ isWordChar d = true) ∧ ¬ (c = '/' ∧ d = '/')

/-- What does not run into something still does not without a first part. -/
theorem Apart.of_append {bs cs ds : List Char} (h : Apart (bs ++ cs) ds) : Apart cs ds := by
  intro c hc
  exact h c (by rw [List.getLast?_append, hc]; rfl)

/-- What does not run into something still does not without a first character. -/
theorem Apart.of_cons {a : Char} {cs ds : List Char} (h : Apart (a :: cs) ds) : Apart cs ds := by
  rw [← List.singleton_append] at h
  exact h.of_append

/-- Nothing runs into white space. -/
theorem Apart.blank_right {d : Char} (hd : isBlank d = true) (cs ds : List Char) :
    Apart cs (d :: ds) := by
  intro c _ d' hd'
  obtain rfl : d = d' := by simpa using hd'
  refine ⟨fun h => by simp [isWordChar_eq_false_of_isBlank hd] at h, fun h => ?_⟩
  rw [h.2] at hd
  revert hd
  decide

/-- Two lines in one. -/
theorem Scans.append {cs ds : List Char} {L M : List Lexeme} (h : Scans cs L) (h' : Scans ds M)
    (ha : Apart cs ds) : Scans (cs ++ ds) (L ++ M) := by
  induction h with
  | nil => exact h'
  | blank hb hn _ ih => exact .blank hb hn (ih ha.of_cons)
  | @word w cs L hne hw hstop _ ih =>
    rw [List.append_assoc]
    refine .word hne hw ?_ (ih ha.of_append)
    cases cs with
    | nil =>
      intro d hd
      have hlast := List.getLast_mem hne
      refine Bool.eq_false_iff.2 fun hd' => ?_
      exact (ha (w.getLast hne) (by simp [List.getLast?_eq_some_getLast hne]) d hd).1
        ⟨hw _ hlast, hd'⟩
    | cons c cs => exact hstop
  | @symbol c cs L hc hslash _ ih =>
    refine .symbol hc (fun hs => ?_) (ih ha.of_cons)
    cases cs with
    | nil => exact fun hd => (ha c (by simp) '/' (by simpa using hd)).2 ⟨hs, rfl⟩
    | cons d cs => exact hslash hs
  | @string body content cs L hne hq _ ih =>
    rw [List.append_assoc]
    exact .string hne hq (ih ha.of_append)
  | @char body cs d L hne hq _ ih =>
    rw [List.append_assoc]
    exact .char hne hq (ih ha.of_append)

/-! ## Tokens of a line -/

/-- Lexemes as the tokens of one line. -/
def tokensOn (line : Nat) (L : List Lexeme) : List Token := L.map fun l => ⟨l, line⟩

/-- No lexemes are no tokens. -/
@[simp] theorem tokensOn_nil (line : Nat) : tokensOn line [] = [] := rfl

/-- The first lexeme is the first token. -/
@[simp] theorem tokensOn_cons (line : Nat) (l : Lexeme) (L : List Lexeme) :
    tokensOn line (l :: L) = ⟨l, line⟩ :: tokensOn line L := rfl

/-- Lexemes in two lists are the tokens of each list. -/
@[simp] theorem tokensOn_append (line : Nat) (L M : List Lexeme) :
    tokensOn line (L ++ M) = tokensOn line L ++ tokensOn line M := List.map_append

/-- Tokens on a line have the lexemes that they were made from. -/
@[simp] theorem map_lexeme_tokensOn (line : Nat) (L : List Lexeme) :
    (tokensOn line L).map (·.lexeme) = L := by
  simp [tokensOn, Function.comp_def]

/-- The lexemes of several lines as tokens, the first of them on the given line. -/
def tokensFrom : Nat → List (List Lexeme) → List Token
  | _, [] => []
  | line, L :: rest => tokensOn line L ++ tokensFrom (line + 1) rest

/-- No lines have no tokens. -/
@[simp] theorem tokensFrom_nil (line : Nat) : tokensFrom line [] = [] := rfl

/-- The tokens of lines are those of the first and then those of the others, one line further
down. -/
@[simp] theorem tokensFrom_cons (line : Nat) (L : List Lexeme) (rest : List (List Lexeme)) :
    tokensFrom line (L :: rest) = tokensOn line L ++ tokensFrom (line + 1) rest := rfl

/-- The tokens of further lines are as many lines further down. -/
theorem tokensFrom_append (line : Nat) (xs ys : List (List Lexeme)) :
    tokensFrom line (xs ++ ys) = tokensFrom line xs ++ tokensFrom (line + xs.length) ys := by
  induction xs generalizing line with
  | nil => simp
  | cons L rest ih => simp [ih, Nat.add_comm, Nat.add_left_comm]

/-- A text with further tokens at its beginning. -/
def TokenizedText.prepend (ts : List Token) (text : TokenizedText) : TokenizedText :=
  { text with tokens := ts ++ text.tokens }

namespace Lexer

/-- White space ends before a character that is none. -/
theorem isBlank_of_skipBlanks {inComment : Bool} {line line' : Nat} {cs rest : List Char}
    {c : Char} (h : skipBlanks inComment line cs = (line', c :: rest)) : isBlank c = false := by
  fun_induction skipBlanks inComment line cs with
  | case1 => cases h
  | case2 _ _ ih | case3 _ _ _ _ ih | case4 _ _ _ _ ih | case5 _ _ _ _ _ ih => exact ih h
  | case6 line c cs hb =>
    cases h
    simpa using hb

/-- The tokens of a text are its first lexeme after white space and the tokens after it. -/
theorem tokens_eq (line : Nat) (cs : List Char) :
    tokens line cs = match skipBlanks false line cs with
      | (line, []) => .ok ⟨[], line⟩
      | (line, c :: rest) =>
        match lexeme c rest with
        | .error fault => .error ⟨line + fault.lineBreaks, fault.cause⟩
        | .ok (l, rest) => (tokens line rest).map (.prepend [⟨l, line⟩]) := by
  rw [tokens]
  split
  · next h => rw [h]
  · next h =>
    rw [h]
    simp only
    split
    · next hl => rw [hl]
    · next hl =>
      rw [hl]
      simp only
      split <;> next ht => rw [ht]; rfl

/-- An empty text has no tokens. -/
theorem tokens_nil (line : Nat) : tokens line [] = .ok ⟨[], line⟩ := by
  rw [tokens_eq]
  rfl

/-- A blank is skipped, and a line break counts. -/
theorem tokens_blank {c : Char} (h : isBlank c = true) (line : Nat) (cs : List Char) :
    tokens line (c :: cs) = tokens (if c = '\n' then line + 1 else line) cs := by
  rw [tokens_eq, tokens_eq _ cs, skipBlanks, if_pos h]

/-- A lexeme that starts right here is the first one. -/
theorem tokens_lexeme {c : Char} {cs rest : List Char} {l : Lexeme} (hb : isBlank c = false)
    (hs : ¬ (c = '/' ∧ cs.head? = some '/')) (hl : lexeme c cs = .ok (l, rest)) (line : Nat) :
    tokens line (c :: cs) = (tokens line rest).map (.prepend [⟨l, line⟩]) := by
  rw [tokens_eq, skipBlanks, if_neg (by simp [hb]), if_neg hs]
  simp only [hl]

/-- A word that ends here is a lexeme. -/
theorem lexeme_word {c : Char} {w rest : List Char} (hw : ∀ d ∈ c :: w, isWordChar d = true)
    (hstop : ∀ d ∈ rest.head?, isWordChar d = false) :
    lexeme c (w ++ rest) = .ok (.word (String.ofList (c :: w)), rest) := by
  have hw' : ∀ d ∈ w, isWordChar d = true := fun d hd => hw d (List.mem_cons_of_mem _ hd)
  have htake : rest.takeWhile isWordChar = [] := by
    cases rest with
    | nil => rfl
    | cons d rest => simp [hstop d (by simp)]
  have hdrop : rest.dropWhile isWordChar = rest := by
    cases rest with
    | nil => rfl
    | cons d rest => simp [hstop d (by simp)]
  rw [lexeme, if_pos (hw c List.mem_cons_self), List.takeWhile_append_of_pos hw',
    List.dropWhile_append_of_pos hw', htake, hdrop, List.append_nil]

end Lexer

/-- Tokens before tokens are one list of tokens. -/
theorem map_prepend_append (e : Except ReadError TokenizedText) (ts us : List Token) :
    (e.map (TokenizedText.prepend us)).map (TokenizedText.prepend ts) =
      e.map (TokenizedText.prepend (ts ++ us)) := by
  cases e with
  | error e => rfl
  | ok text => simp [Except.map, TokenizedText.prepend]

/-- The lexemes are the first tokens of the text, when the rest does not run into them. -/
theorem Scans.tokens_append {cs : List Char} {L : List Lexeme} (h : Scans cs L) {rest : List Char}
    (ha : Apart cs rest) (line : Nat) :
    Lexer.tokens line (cs ++ rest) =
      (Lexer.tokens line rest).map (.prepend (tokensOn line L)) := by
  induction h with
  | nil =>
    rw [List.nil_append]
    cases Lexer.tokens line rest <;> rfl
  | blank hb hn _ ih => rw [List.cons_append, tokens_blank hb, if_neg hn, ih ha.of_cons]
  | @word w cs L hne hw hstop _ ih =>
    have hend : ∀ d ∈ (cs ++ rest).head?, isWordChar d = false := by
      cases cs with
      | nil =>
        intro d hd
        refine Bool.eq_false_iff.2 fun hd' => ?_
        exact (ha (w.getLast hne) (by simp [List.getLast?_eq_some_getLast hne]) d hd).1
          ⟨hw _ (List.getLast_mem hne), hd'⟩
      | cons d cs => exact hstop
    have ih := ih ha.of_append
    cases w with
    | nil => exact absurd rfl hne
    | cons c w =>
      have hc := hw c List.mem_cons_self
      have hslash : c ≠ '/' := by
        rintro rfl
        revert hc
        decide +kernel
      rw [List.append_assoc, List.cons_append,
        tokens_lexeme (isBlank_eq_false_of_isWordChar hc) (fun h => hslash h.1)
          (lexeme_word hw hend), ih, map_prepend_append]
      rfl
  | @symbol c cs L hc hslash _ ih =>
    simp only [isSymbol, Bool.and_eq_true, Bool.not_eq_true', bne_iff_ne] at hc
    have hs : ¬ (c = '/' ∧ (cs ++ rest).head? = some '/') := by
      rintro ⟨hc, hd⟩
      cases cs with
      | nil => exact (ha c (by simp) '/' hd).2 ⟨hc, rfl⟩
      | cons d cs => exact hslash hc hd
    have hl : lexeme c (cs ++ rest) = .ok (.symbol c, cs ++ rest) := by
      rw [lexeme, if_neg (by simp [hc.1.1.1]), if_neg hc.1.2, if_neg hc.2]
    rw [List.cons_append, tokens_lexeme hc.1.1.2 hs hl, ih ha.of_cons, map_prepend_append]
    rfl
  | @string body content cs L hne hq _ ih =>
    have hl : lexeme '"' (body ++ (cs ++ rest)) =
        .ok (.string (String.ofList content), cs ++ rest) := by
      rw [lexeme, if_neg (by decide +kernel), if_pos rfl, hq]
    rw [List.cons_append, List.cons_append, List.append_assoc,
      tokens_lexeme (by decide) (by simp) hl, ih ha.of_append, map_prepend_append]
    rfl
  | @char body cs d L hne hq _ ih =>
    have hl : lexeme '\'' (body ++ (cs ++ rest)) = .ok (.char d, cs ++ rest) := by
      rw [lexeme, if_neg (by decide +kernel), if_neg (by decide), if_pos rfl, hq]
    rw [List.cons_append, List.cons_append, List.append_assoc,
      tokens_lexeme (by decide) (by simp) hl, ih ha.of_append, map_prepend_append]
    rfl

/-- The lexemes of a line are the tokens of a text of one line. -/
theorem Scans.tokens_line {cs : List Char} {L : List Lexeme} (h : Scans cs L) (line : Nat) :
    Lexer.tokens line cs = .ok ⟨tokensOn line L, line⟩ := by
  have := h.tokens_append (fun _ _ _ (hd : _ ∈ [].head?) => nomatch hd) line
  rw [List.append_nil, tokens_nil] at this
  simpa [Except.map, TokenizedText.prepend] using this

/-- A line is made up of lexemes in one way only. -/
theorem Scans.unique {cs : List Char} {L M : List Lexeme} (h : Scans cs L) (h' : Scans cs M) :
    L = M := by
  have htokens := (h.tokens_line 1).symm.trans (h'.tokens_line 1)
  simp only [Except.ok.injEq, TokenizedText.mk.injEq, and_true] at htokens
  rw [← map_lexeme_tokensOn 1 L, htokens, map_lexeme_tokensOn]

/-- The lexemes of a line are its tokens, and the text goes on in the next line. -/
theorem Scans.tokens {cs : List Char} {L : List Lexeme} (h : Scans cs L) (line : Nat)
    (rest : List Char) :
    Lexer.tokens line (cs ++ '\n' :: rest) =
      (Lexer.tokens (line + 1) rest).map (.prepend (tokensOn line L)) := by
  rw [h.tokens_append (.blank_right (by decide) cs rest), tokens_blank (by decide), if_pos rfl]

/-! ## Tokens of laid-out lines -/

namespace Layout

/-- Indentation is white space on its line. -/
theorem scans_indent (layout : Layout) (depth : Nat) {cs : List Char} {L : List Lexeme}
    (h : Scans cs L) : Scans ((layout.indent depth).toList ++ cs) L := by
  have hrep : ∀ (n : Nat) (c : Char), isBlank c = true → c ≠ '\n' →
      Scans (List.replicate n c ++ cs) L := by
    intro n c hb hn
    induction n with
    | zero => exact h
    | succ n ih => exact .blank hb hn ih
  rw [indent]
  cases layout.style with
  | spaces => simpa using hrep _ ' ' (by decide) (by decide)
  | tabs => simpa using hrep _ '\t' (by decide) (by decide)

/-- The tokens of laid-out lines are the lexemes of each, whatever the layout. -/
theorem tokens_text (layout : Layout) {lines : List Line} {Ls : List (List Lexeme)}
    (h : List.Forall₂ (fun l L => Scans l.text.toList L) lines Ls) (line : Nat) :
    Lexer.tokens line (layout.text lines).toList =
      .ok ⟨tokensFrom line Ls, line + lines.length⟩ := by
  induction h generalizing line with
  | nil => exact tokens_nil line
  | @cons l L lines Ls hl _ ih =>
    have htext : (layout.text (l :: lines)).toList =
        ((layout.indent l.depth).toList ++ l.text.toList) ++
          '\n' :: (layout.text lines).toList := by
      simp [text, Layout.line]
    rw [htext, (layout.scans_indent l.depth hl).tokens, ih]
    simp [Except.map, TokenizedText.prepend, Nat.add_comm, Nat.add_left_comm]

end Layout

end AnnotationIndex
