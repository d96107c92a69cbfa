import AnnotationIndex.Proofs.Reader.Basic
import AnnotationIndex.Proofs.Text.Escape
import AnnotationIndex.Proofs.Token.Lines

/-!
# Lexemes with blanks between them

How much white space a text has and where its comments are makes no difference, as long as lexemes
that follow one another are separated (`Separates`). Blanks move the line on and nothing else
(`IsBlanks.tokens_append`), and a lexeme in its written form is read back when white space or
nothing follows it (`Lexeme.Proper.tokens_append`). The main statement is `tokenize_spaced`: the
tokens of lexemes written with blanks between them are these lexemes, each on the line on which it
starts.
-/

namespace AnnotationIndex

open Text Lexer

/-! ## Blanks -/

/-- White space and comments. A comment goes on to the end of its line. -/
inductive IsBlanks : List Char → Prop where
  | nil : IsBlanks []
  | space {c : Char} {cs : List Char} (hc : isBlank c = true) (h : IsBlanks cs) : IsBlanks (c :: cs)
  | comment {text cs : List Char} (ht : '\n' ∉ text) (h : IsBlanks cs) :
      IsBlanks ('/' :: '/' :: text ++ '\n' :: cs)

/-- White space, then further white space and comments. A comment right after a lexeme would not do:
after a slash its mark would be read one character too early. -/
structure Separates (cs : List Char) : Prop where
  blanks : IsBlanks cs
  starts : ∃ c ∈ cs.head?, isBlank c = true

namespace Lexer

/-- Two slashes start a comment. -/
theorem skipBlanks_mark (line : Nat) (cs : List Char) :
    skipBlanks false line ('/' :: '/' :: cs) = skipBlanks true line cs := by
  rw [skipBlanks, if_neg (by decide), if_pos ⟨rfl, rfl⟩, skipBlanks, if_neg (by decide)]

/-- A comment ends with its line. -/
theorem skipBlanks_comment {text : List Char} (h : '\n' ∉ text) (line : Nat) (rest : List Char) :
    skipBlanks true line (text ++ '\n' :: rest) = skipBlanks false (line + 1) rest := by
  induction text with
  | nil => rfl
  | cons c text ih =>
    rw [List.mem_cons, not_or] at h
    rw [List.cons_append, skipBlanks, if_neg (Ne.symm h.1), ih h.2]

end Lexer

/-- Blanks are skipped, and their line breaks count. -/
theorem IsBlanks.skipBlanks_append {cs : List Char} (h : IsBlanks cs) (line : Nat)
    (rest : List Char) :
    skipBlanks false line (cs ++ rest) = skipBlanks false (line + cs.count '\n') rest := by
  induction h generalizing line with
  | nil => rfl
  | @space c cs hc _ ih =>
    rw [List.cons_append, skipBlanks, if_pos hc, ih]
    by_cases hbreak : c = '\n'
    · rw [if_pos hbreak, hbreak, List.count_cons_self, Nat.add_right_comm, Nat.add_assoc]
    · rw [if_neg hbreak, List.count_cons_of_ne hbreak]
  | @comment text cs ht _ ih =>
    have hcount : ('/' :: '/' :: text ++ '\n' :: cs).count '\n' = cs.count '\n' + 1 := by
      simp [List.count_append, List.count_eq_zero.2 ht]
    rw [hcount, List.append_assoc, List.cons_append, List.cons_append, List.cons_append,
      skipBlanks_mark, skipBlanks_comment ht, ih, Nat.add_right_comm, Nat.add_assoc]

/-- Blanks move the line on and nothing else. -/
theorem IsBlanks.tokens_append {cs : List Char} (h : IsBlanks cs) (line : Nat) (rest : List Char) :
    tokens line (cs ++ rest) = tokens (line + cs.count '\n') rest := by
  rw [tokens_eq, h.skipBlanks_append, ← tokens_eq]

/-- What separates begins with white space. -/
theorem Separates.isBlank_head? {cs : List Char} (h : Separates cs) (rest : List Char) :
    ∀ c ∈ (cs ++ rest).head?, isBlank c = true := by
  obtain ⟨d, hd, hblank⟩ := h.starts
  intro c hc
  rw [List.head?_append, Option.mem_def.1 hd] at hc
  cases hc
  exact hblank

/-! ## Written lexemes -/

/-- The written form of a lexeme. Literals are written as values are. -/
def Lexeme.text : Lexeme → String
  | .word w => w
  | .string s => (Value.string s).text
  | .char c => (Value.char c).text
  | .symbol c => c.toString

/-- The written form of a lexeme is scanned as it. -/
theorem Lexeme.Proper.scans {l : Lexeme} (h : l.Proper) : Scans l.text.toList [l] := by
  cases l with
  | word w => exact IsWord.scans h
  | string s => simpa [Lexeme.text, Value.text] using scans_string s
  | char c => simpa [Lexeme.text, Value.text] using scans_char c
  | symbol c => simpa [Lexeme.text] using Scans.symbol h (by simp) .nil

/-- No line break lies within a line that makes up lexemes. -/
theorem Scans.count_break {cs : List Char} {L : List Lexeme} (h : Scans cs L) :
    cs.count '\n' = 0 := by
  have hlast : 1 = 1 + cs.count '\n' := lastLine_eq (h.tokens_line 1)
  omega

/-- Nothing runs into white space, or into the end of the text. -/
theorem Apart.of_blank {ds : List Char} (h : ∀ d ∈ ds.head?, isBlank d = true) (cs : List Char) :
    Apart cs ds := by
  cases ds with
  | nil => exact fun _ _ _ hd => nomatch hd
  | cons d ds => exact .blank_right (h d rfl) cs ds

/-- A written lexeme is read back when white space or nothing follows it. -/
theorem Lexeme.Proper.tokens_append {l : Lexeme} (h : l.Proper) {rest : List Char}
    (hrest : ∀ c ∈ rest.head?, isBlank c = true) (line : Nat) :
    tokens line (l.text.toList ++ rest) = (tokens line rest).map (.prepend [⟨l, line⟩]) :=
  h.scans.tokens_append (.of_blank hrest _) line

/-! ## Spaced lexemes -/

/-- A lexeme and the blanks before it. -/
structure Spaced where
  blanks : List Char
  lexeme : Lexeme

namespace Spaced

/-- The blanks and then the lexeme in its written form. -/
def chars (x : Spaced) : List Char := x.blanks ++ x.lexeme.text.toList

/-- The lexemes as tokens of a text that has the characters `before` in front of them. The first
line is line 1, and each token is as many lines below as there are line breaks before it. -/
def tokensAfter (before : List Char) : List Spaced → List Token
  | [] => []
  | x :: xs =>
    ⟨x.lexeme, 1 + (before ++ x.blanks).count '\n'⟩ :: tokensAfter (before ++ x.chars) xs

variable {xs : List Spaced} {last : List Char}

/-- After a lexeme the text goes on with white space, or ends. -/
theorem isBlank_rest (hxs : ∀ x ∈ xs, Separates x.blanks) (hlast : last = [] ∨ Separates last) :
    ∀ c ∈ (xs.flatMap chars ++ last).head?, isBlank c = true := by
  cases xs with
  | nil =>
    rcases hlast with rfl | hlast
    · exact fun _ hc => nomatch hc
    · simpa using hlast.isBlank_head? []
  | cons x xs =>
    have hx := hxs x List.mem_cons_self
    simpa [chars] using hx.isBlank_head? (x.lexeme.text.toList ++ (xs.flatMap chars ++ last))

/-- Line breaks lie in the blanks only. -/
theorem count_chars {x : Spaced} (h : x.lexeme.Proper) :
    x.chars.count '\n' = x.blanks.count '\n' := by
  rw [chars, List.count_append, h.scans.count_break, Nat.add_zero]

/-- Spaced lexemes are the tokens of what is left of a text. -/
theorem tokens_spaced (hproper : ∀ x ∈ xs, x.lexeme.Proper)
    (hfirst : ∀ x ∈ xs.head?, IsBlanks x.blanks) (hmore : ∀ x ∈ xs.tail, Separates x.blanks)
    (hlast : last = [] ∨ Separates last) (before : List Char) :
    tokens (1 + before.count '\n') (xs.flatMap chars ++ last) =
      .ok ⟨tokensAfter before xs, 1 + (before ++ (xs.flatMap chars ++ last)).count '\n'⟩ := by
  -- `before` moves on from lexeme to lexeme, and only the blanks that come first may be none
  induction xs generalizing before with
  | nil =>
    have hblanks : IsBlanks last := by
      rcases hlast with rfl | hlast
      · exact .nil
      · exact hlast.blanks
    have := hblanks.tokens_append (1 + before.count '\n') []
    rw [List.append_nil, tokens_nil] at this
    simp [this, tokensAfter, List.count_append, Nat.add_assoc]
  | cons x xs ih =>
    obtain ⟨hx, hproper⟩ := List.forall_mem_cons.1 hproper
    have hmore : ∀ y ∈ xs, Separates y.blanks := hmore
    have hrest := ih hproper (fun y hy => (hmore y (List.mem_of_mem_head? hy)).blanks)
      (fun y hy => hmore y (List.mem_of_mem_tail hy)) (before ++ x.chars)
    rw [List.count_append, count_chars hx, ← Nat.add_assoc] at hrest
    have hsplit : (x :: xs).flatMap chars ++ last =
        x.blanks ++ (x.lexeme.text.toList ++ (xs.flatMap chars ++ last)) := by
      simp [chars]
    rw [hsplit, (hfirst x rfl).tokens_append, hx.tokens_append (isBlank_rest hmore hlast), hrest]
    simp [Except.map, TokenizedText.prepend, tokensAfter, chars, List.count_append, Nat.add_assoc]

end Spaced

/-- **Lexemes with blanks between them are the tokens of the text**, in their order and each on the
line on which it starts. -/
theorem tokenize_spaced {xs : List Spaced} {last : List Char} (hproper : ∀ x ∈ xs, x.lexeme.Proper)
    (hfirst : ∀ x ∈ xs.head?, IsBlanks x.blanks) (hmore : ∀ x ∈ xs.tail, Separates x.blanks)
    (hlast : last = [] ∨ Separates last) :
    tokenize (String.ofList (xs.flatMap Spaced.chars ++ last)) =
      .ok ⟨Spaced.tokensAfter [] xs, 1 + (xs.flatMap Spaced.chars ++ last).count '\n'⟩ := by
  rw [tokenize, String.toList_ofList]
  exact Spaced.tokens_spaced hproper hfirst hmore hlast []

/-- Lexemes that comments could be taken for, with comments that hold a quote or nothing. -/
def Spaced.slashes : List Spaced :=
  [⟨['/', '/', 'a', '\n', '\t'], .word "x-1"⟩,
    ⟨[' ', '/', '/', '\n', '/', '/', '"', '\n'], .symbol '/'⟩, ⟨['\n', '\n'], .string "//\n"⟩,
    ⟨[' '], .char '\''⟩]

/-- The lexemes of the example are read on the lines where they stand. -/
theorem tokenize_spaced_slashes :
    (∀ x ∈ Spaced.slashes, x.lexeme.Proper) ∧ (∀ x ∈ Spaced.slashes.head?, IsBlanks x.blanks) ∧
      (∀ x ∈ Spaced.slashes.tail, Separates x.blanks) ∧ Separates [' ', '/', '/', '\n'] ∧
      tokenize "//a\n\tx-1 //\n//\"\n/\n\n\"//\\n\" '\\'' //\n" =
        .ok ⟨[⟨.word "x-1", 2⟩, ⟨.symbol '/', 4⟩, ⟨.string "//\n", 6⟩, ⟨.char '\'', 6⟩], 7⟩ := by
  have hproper : ∀ x ∈ Spaced.slashes, x.lexeme.Proper := by
    have hword : IsWord "x-1" := by decide
    have hsymbol : isSymbol '/' = true := by decide
    simpa [Spaced.slashes, Lexeme.Proper] using ⟨hword, hsymbol⟩
  have hfirst : ∀ x ∈ Spaced.slashes.head?, IsBlanks x.blanks := by
    rintro x ⟨⟩
    exact @IsBlanks.comment ['a'] ['\t'] (by decide) (.space rfl .nil)
  have hcomments : IsBlanks ['/', '/', '\n', '/', '/', '"', '\n'] :=
    @IsBlanks.comment [] _ (by decide) (@IsBlanks.comment ['"'] [] (by decide) .nil)
  have hmore : ∀ x ∈ Spaced.slashes.tail, Separates x.blanks := by
    have h₁ : Separates [' ', '/', '/', '\n', '/', '/', '"', '\n'] :=
      ⟨.space rfl hcomments, ' ', rfl, rfl⟩
    have h₂ : Separates ['\n', '\n'] := ⟨.space rfl (.space rfl .nil), '\n', rfl, rfl⟩
    have h₃ : Separates [' '] := ⟨.space rfl .nil, ' ', rfl, rfl⟩
    simpa [Spaced.slashes] using ⟨h₁, h₂, h₃⟩
  have hlast : Separates [' ', '/', '/', '\n'] :=
    ⟨.space rfl (@IsBlanks.comment [] [] (by decide) .nil), ' ', rfl, rfl⟩
  refine ⟨hproper, hfirst, hmore, hlast, ?_⟩
  have htokens := tokenize_spaced hproper hfirst hmore (.inr hlast)
  have htext : String.ofList (Spaced.slashes.flatMap Spaced.chars ++ [' ', '/', '/', '\n']) =
      "//a\n\tx-1 //\n//\"\n/\n\n\"//\\n\" '\\'' //\n" := by decide +kernel
  rw [htext] at htokens
  exact htokens

end AnnotationIndex
