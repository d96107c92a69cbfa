import AnnotationIndex.Proofs.Numeral.Literal
import AnnotationIndex.Proofs.Token.LineBreak

/-!
# Literals are read back

A character has many spellings inside a literal (`Text.Spells`): itself, a letter, three octal
digits, or code units of four hexadecimal digits. Each is read back as the character, whatever
follows it (`Lexer.quoted_spelled`), since no reader of an escape sequence looks beyond the digits
it needs. The main statement is `Lexer.tokens_spelled`: a literal in any mixture of spellings is one
token. The written spelling (`encodeChar`) is one of them, and the scanned forms of written literals
are `scans_string` and `scans_char`.
-/

namespace AnnotationIndex

open Text Lexer

namespace Text

/-! ## Spellings -/

/-- The letters of the simple escape sequences with what they stand for. -/
def simpleEscapes : List (Char × Char) :=
  [('n', '\n'), ('t', '\t'), ('r', '\r'), ('b', '\x08'), ('f', '\x0c'), ('s', ' '), ('\\', '\\'),
    ('\'', '\''), ('"', '"')]

/-- An escape sequence of a code unit: one `u` or more, and four hexadecimal digits of either
case. -/
inductive SpellsUnit (unit : Nat) : List Char → Prop
  | intro (k : Nat) {ds : List Char} (hlen : ds.length = 4) (h : Numeral.IsNatural 16 ds unit) :
      SpellsUnit unit ('\\' :: 'u' :: List.replicate k 'u' ++ ds)

/-- The characters spell `c` inside a literal that `quote` delimits. -/
inductive Spells (quote c : Char) : List Char → Prop
  | plain (hq : c ≠ quote) (hb : c ≠ '\\') (hn : c ≠ '\n') : Spells quote c [c]
  | simple {letter : Char} (h : (letter, c) ∈ simpleEscapes) : Spells quote c ['\\', letter]
  | octal {ds : List Char} (hlen : ds.length = 3) (h : Numeral.IsNatural 8 ds c.toNat)
      (hmax : c.toNat ≤ 0xff) : Spells quote c ('\\' :: ds)
  | unit {cs : List Char} (h : SpellsUnit c.toNat cs) : Spells quote c cs
  | pair {high low : Nat} {cs ds : List Char} (hhigh : high < 0x400) (hlow : low < 0x400)
      (hc : c.toNat = 0x10000 + 0x400 * high + low) (h : SpellsUnit (0xd800 + high) cs)
      (h' : SpellsUnit (0xdc00 + low) ds) : Spells quote c (cs ++ ds)

/-! ## Escape sequences -/

/-- Hexadecimal digits are read as the number that they denote, whatever follows. -/
theorem hexDigits_append {acc n : Nat} {ds : List Char}
    (h : Numeral.valueAfter? 16 acc ds = some n) (rest : List Char) :
    hexDigits ds.length acc (ds ++ rest) = .ok (n, rest) := by
  induction ds generalizing acc with
  | nil =>
    cases h
    rfl
  | cons d ds ih =>
    rw [Numeral.valueAfter?] at h
    rw [List.length_cons, List.cons_append, hexDigits]
    cases hd : digitValue? 16 d with
    | none =>
      rw [hd] at h
      cases h
    | some v =>
      rw [hd] at h
      exact ih h

/-- Octal digits are read as the number that they denote, whatever follows. -/
theorem octalDigits_append {acc n : Nat} {ds : List Char}
    (h : Numeral.valueAfter? 8 acc ds = some n) (rest : List Char) :
    octalDigits ds.length acc (ds ++ rest) = (n, rest) := by
  induction ds generalizing acc with
  | nil =>
    cases h
    rfl
  | cons d ds ih =>
    rw [Numeral.valueAfter?] at h
    rw [List.length_cons, List.cons_append, octalDigits]
    cases hd : digitValue? 8 d with
    | none =>
      rw [hd] at h
      cases h
    | some v =>
      rw [hd] at h
      exact ih h

/-- The digits of a code unit are the first four characters that are not `u`. -/
theorem codeUnit_spelled (k : Nat) {ds : List Char} {unit : Nat} (hlen : ds.length = 4)
    (h : Numeral.IsNatural 16 ds unit) (rest : List Char) :
    codeUnit (List.replicate k 'u' ++ ds ++ rest) = .ok (unit, rest) := by
  have hdrop : (List.replicate k 'u' ++ ds ++ rest).dropWhile (· = 'u') = ds ++ rest := by
    rw [List.append_assoc, List.dropWhile_append_of_pos (by simp)]
    cases ds with
    | nil => cases hlen
    | cons d ds =>
      obtain ⟨v, hv⟩ := h.exists_isDigit
      have hd : d ≠ 'u' := by
        rintro rfl
        have hu : ∀ v < 16, 'u'.toLower ≠ hexDigit v := by decide
        exact hu v hv.1 hv.2
      simp [hd]
  have hvalue := (Numeral.value?_eq_some_iff (by decide)).2 h
  rw [Numeral.value?_eq_valueAfter? h.1] at hvalue
  have := hexDigits_append hvalue rest
  rwa [hlen, ← hdrop] at this

/-- No character is a surrogate. -/
theorem not_isSurrogate (c : Char) :
    isHighSurrogate c.toNat = false ∧ isLowSurrogate c.toNat = false := by
  have hvalid : c.toNat < 0xd800 ∨ 0xdfff < c.toNat := by
    rcases c.valid with h | h
    · exact .inl h
    · exact .inr h.1
  simp only [isHighSurrogate, isLowSurrogate, Bool.and_eq_false_iff, decide_eq_false_iff_not]
  omega

/-- The letter of a simple escape sequence is read as the character that it stands for. -/
theorem decodeEscape_simple {c letter : Char} (h : (letter, c) ∈ simpleEscapes)
    (rest : List Char) : decodeEscape (letter :: rest) = .ok (c, rest) := by
  have hall : ∀ p ∈ simpleEscapes, simpleEscape? p.1 = some p.2 := by decide
  rw [decodeEscape, hall _ h]

/-- No simple escape and no code unit starts with a digit. -/
theorem simpleEscape?_of_isDigit {d : Char} {v : Nat} (h : digitValue? 8 d = some v) :
    simpleEscape? d = none ∧ d ≠ 'u' := by
  have hletters : (['n', 't', 'r', 'b', 'f', 's', '\\', '\'', '"', 'u'].all
      fun letter => (digitValue? 8 letter).isNone) = true := by decide
  have hne : d ∉ ['n', 't', 'r', 'b', 'f', 's', '\\', '\'', '"', 'u'] := fun hd => by
    have := List.all_eq_true.1 hletters d hd
    rw [h] at this
    cases this
  simp only [List.mem_cons, List.not_mem_nil, or_false, not_or] at hne
  simp [simpleEscape?, hne]

/-- Three octal digits are read to the last when the first is at most `3`, and it is, for else they
exceed U+00FF. -/
theorem decodeEscape_octal {c : Char} {ds : List Char} (hlen : ds.length = 3)
    (h : Numeral.IsNatural 8 ds c.toNat) (hmax : c.toNat ≤ 0xff) (rest : List Char) :
    decodeEscape (ds ++ rest) = .ok (c, rest) := by
  have hvalue := (Numeral.value?_eq_some_iff (by decide)).2 h
  rw [Numeral.value?_eq_valueAfter? h.1] at hvalue
  match ds, hlen with
  | [d, e, f], _ =>
    rw [Numeral.valueAfter?] at hvalue
    cases hd : digitValue? 8 d with
    | none =>
      rw [hd] at hvalue
      cases hvalue
    | some v =>
      rw [hd] at hvalue
      obtain ⟨hsimple, hu⟩ := simpleEscape?_of_isDigit hd
      have hfirst : v ≤ 3 := by
        obtain ⟨vs, hvs, hn⟩ := (Numeral.valueAfter?_eq_some_iff (by decide)).1 hvalue
        rw [← hvs.length_eq] at hn
        simp only [List.length_cons, List.length_nil] at hn
        omega
      have hrest := octalDigits_append hvalue rest
      rw [Nat.zero_mul, Nat.zero_add] at hrest
      simp only [List.cons_append, List.nil_append] at hrest ⊢
      rw [decodeEscape, hsimple]
      simp only [if_neg hu, hd, if_pos hfirst]
      rw [show octalDigits 2 v (e :: f :: rest) = _ from hrest, Char.ofNat_toNat]

/-- Four hexadecimal digits are read as the character that they number, with any number of letters
before them. -/
theorem unicodeEscape_unit {c : Char} (k : Nat) {ds : List Char} (hlen : ds.length = 4)
    (h : Numeral.IsNatural 16 ds c.toNat) (rest : List Char) :
    unicodeEscape (List.replicate k 'u' ++ ds ++ rest) = .ok (c, rest) := by
  rw [unicodeEscape, codeUnit_spelled k hlen h]
  simp only [(not_isSurrogate c).1, (not_isSurrogate c).2, Bool.false_eq_true, if_false,
    Char.ofNat_toNat]

/-- Two escape sequences of four digits are read as the character whose surrogate pair they
number. -/
theorem unicodeEscape_pair {c : Char} {high low : Nat} (hhigh : high < 0x400) (hlow : low < 0x400)
    (hc : c.toNat = 0x10000 + 0x400 * high + low) (k l : Nat) {ds es : List Char}
    (hlen : ds.length = 4) (h : Numeral.IsNatural 16 ds (0xd800 + high)) (hlen' : es.length = 4)
    (h' : Numeral.IsNatural 16 es (0xdc00 + low)) (rest : List Char) :
    unicodeEscape (List.replicate k 'u' ++ ds ++
      ('\\' :: 'u' :: List.replicate l 'u' ++ es ++ rest)) = .ok (c, rest) := by
  have hhigh' : isHighSurrogate (0xd800 + high) = true := by
    simp only [isHighSurrogate, Bool.and_eq_true, decide_eq_true_eq]
    omega
  have hlow' : isLowSurrogate (0xdc00 + low) = true := by
    simp only [isLowSurrogate, Bool.and_eq_true, decide_eq_true_eq]
    omega
  have hpair : surrogatePair (0xd800 + high) (0xdc00 + low) = c := by
    have hvalue :
        0x10000 + (0xd800 + high - 0xd800) * 0x400 + (0xdc00 + low - 0xdc00) = c.toNat := by
      omega
    rw [surrogatePair, hvalue, Char.ofNat_toNat]
  rw [unicodeEscape, codeUnit_spelled k hlen h]
  simp only [hhigh', if_true, List.cons_append, codeUnit_spelled l hlen' h', hlow', hpair]

end Text

/-! ## Literals -/

/-- A character is read back from its spelling inside a literal, whatever follows. -/
theorem Lexer.quoted_spelled {quote c : Char} {cs : List Char} (hq : quote = '"' ∨ quote = '\'')
    (h : Spells quote c cs) (rest : List Char) :
    quoted quote (cs ++ rest) = (quoted quote rest).map fun q => (c :: q.1, q.2) := by
  have hbackslash : ¬ '\\' = '\n' ∧ ¬ '\\' = quote := by
    rcases hq with rfl | rfl <;> decide
  have hescape {ds : List Char} (hd : ∀ rest, decodeEscape (ds ++ rest) = .ok (c, rest)) :
      quoted quote ('\\' :: ds ++ rest) = (quoted quote rest).map fun q => (c :: q.1, q.2) := by
    rw [List.cons_append, quoted_cons, if_neg hbackslash.1, if_neg hbackslash.2, if_pos rfl, hd]
    rfl
  have hunicode {ds : List Char} (hd : ∀ rest, unicodeEscape (ds ++ rest) = .ok (c, rest)) :
      quoted quote ('\\' :: 'u' :: ds ++ rest) =
        (quoted quote rest).map fun q => (c :: q.1, q.2) := by
    have hmark (rest : List Char) : decodeEscape ('u' :: ds ++ rest) = .ok (c, rest) := by
      rw [List.cons_append, decodeEscape, show simpleEscape? 'u' = none from rfl]
      exact hd rest
    exact hescape hmark
  cases h with
  | plain hne hb hn =>
    rw [List.singleton_append, quoted_cons, if_neg hn, if_neg hne, if_neg hb]
    rfl
  | simple h => exact hescape (decodeEscape_simple h)
  | octal hlen h hmax => exact hescape (decodeEscape_octal hlen h hmax)
  | unit h =>
    obtain ⟨k, hlen, h⟩ := h
    exact hunicode (unicodeEscape_unit k hlen h)
  | pair hhigh hlow hc h h' =>
    obtain ⟨k, hlen, h⟩ := h
    obtain ⟨l, hlen', h'⟩ := h'
    rename_i ds es
    have hpair (rest : List Char) : unicodeEscape (List.replicate k 'u' ++ ds ++
        ('\\' :: 'u' :: List.replicate l 'u' ++ es) ++ rest) = .ok (c, rest) := by
      simpa using unicodeEscape_pair hhigh hlow hc k l hlen h hlen' h' rest
    simpa using hunicode hpair

/-- A literal is read back from any mixture of spellings. -/
theorem Lexer.quoted_spellings {quote : Char} (hq : quote = '"' ∨ quote = '\'')
    {text : List Char} {spellings : List (List Char)}
    (h : List.Forall₂ (Spells quote) text spellings) (rest : List Char) :
    quoted quote (spellings.flatten ++ quote :: rest) = .ok (text, rest) := by
  induction h with
  | nil =>
    have hne : ¬ quote = '\n' := by rcases hq with rfl | rfl <;> decide
    rw [List.flatten_nil, List.nil_append, quoted_cons, if_neg hne, if_pos rfl]
  | cons hc _ ih =>
    rw [List.flatten_cons, List.append_assoc, quoted_spelled hq hc, ih]
    rfl

/-! ## Written literals -/

namespace Text

/-- A number below 65536 has four digits. -/
theorem isNatural_fourHexDigits {n : Nat} (h : n < 65536) :
    Numeral.IsNatural 16 (fourHexDigits n) n := by
  have hdigit (m : Nat) : Numeral.IsDigit 16 (hexDigit (m % 16)) (m % 16) := by
    have hall : ∀ d < 16, (hexDigit d).toLower = hexDigit d := by decide
    exact ⟨Nat.mod_lt _ (by decide), hall _ (Nat.mod_lt _ (by decide))⟩
  refine ⟨by simp [fourHexDigits], [n / 4096 % 16, n / 256 % 16, n / 16 % 16, n % 16],
    .cons (hdigit _) (.cons (hdigit _) (.cons (hdigit _) (.cons (hdigit _) .nil))), ?_⟩
  simp only [List.reverse_cons, List.reverse_nil, List.nil_append, List.cons_append,
    Nat.ofDigits_cons, Nat.ofDigits_nil]
  omega

/-- The written spelling of a character spells it. -/
theorem spells_encodeChar {quote : Char} (hq : quote = '"' ∨ quote = '\'') (c : Char) :
    Spells quote c (encodeChar quote c) := by
  rw [encodeChar]
  cases hl : escapeLetter? c with
  | some letter =>
    have hmem : c ∈ ['\\', '\n', '\t', '\r', '\x08', '\x0c'] := by
      refine Classical.byContradiction fun hc => ?_
      simp only [List.mem_cons, List.not_mem_nil, or_false, not_or] at hc
      simp [escapeLetter?, hc] at hl
    simp only [List.mem_cons, List.not_mem_nil, or_false] at hmem
    have hsimple : (letter, c) ∈ simpleEscapes := by
      rcases hmem with rfl | rfl | rfl | rfl | rfl | rfl <;> cases hl <;> decide
    exact .simple hsimple
  | none =>
    have hne : c ≠ '\\' ∧ c ≠ '\n' := by
      constructor <;> rintro rfl <;> revert hl <;> decide
    dsimp only
    split
    · next hc =>
      subst hc
      exact .simple (by rcases hq with rfl | rfl <;> decide)
    · next hc =>
      split
      · next hcontrol =>
        have hlt : c.toNat < 65536 := by
          simp only [isControl, Bool.or_eq_true, Bool.and_eq_true, decide_eq_true_eq] at hcontrol
          omega
        exact .unit (.intro 0 rfl (isNatural_fourHexDigits hlt))
      · exact .plain hc hne.1 hne.2

/-- What is written of a text spells it. -/
theorem spells_encode {quote : Char} (hq : quote = '"' ∨ quote = '\'') (text : List Char) :
    List.Forall₂ (Spells quote) text (text.map (encodeChar quote)) := by
  induction text with
  | nil => exact .nil
  | cons c text ih => exact .cons (spells_encodeChar hq c) ih

end Text

/-- A literal is read back from its written form. -/
theorem quoted_encode {quote : Char} (hq : quote = '"' ∨ quote = '\'') (text rest : List Char) :
    quoted quote (text.flatMap (encodeChar quote) ++ [quote] ++ rest) = .ok (text, rest) := by
  have := quoted_spellings hq (spells_encode hq text) rest
  rwa [← List.flatMap_def, ← List.singleton_append, ← List.append_assoc] at this

/-- A written string literal is one lexeme. -/
theorem scans_string (s : String) : Scans (encode '"' s.toList) [.string s] := by
  have hne : s.toList.flatMap (encodeChar '"') ++ ['"'] ≠ [] := by simp
  have h := Scans.string hne (quoted_encode (.inl rfl) s.toList) .nil
  rwa [List.append_nil, String.ofList_toList] at h

/-- A written character literal is one lexeme. -/
theorem scans_char (c : Char) : Scans (encode '\'' [c]) [.char c] := by
  have hne : [c].flatMap (encodeChar '\'') ++ ['\''] ≠ [] := by simp
  have h := Scans.char hne (quoted_encode (.inr rfl) [c]) .nil
  rwa [List.append_nil] at h

namespace Lexer

/-- Nothing runs into the quote that a literal ends with. -/
theorem apart_quote {quote : Char} (hq : quote = '"' ∨ quote = '\'') (cs rest : List Char) :
    Apart (cs ++ [quote]) rest := by
  intro c hc
  obtain rfl : quote = c := by simpa using hc
  rcases hq with rfl | rfl <;> exact fun d _ => ⟨fun h => absurd h.1 (by decide +kernel), by simp⟩

/-- **Literals decode every spelling.** A string literal in which each character has any of its
spellings is one token with the characters as its content, whatever follows, and what follows is
read as it is. So are the texts of all string values and of all character values. -/
theorem tokens_spelled (line : Nat) (rest : List Char) :
    (∀ (content : List Char) (spellings : List (List Char)),
      List.Forall₂ (Spells '"') content spellings →
        tokens line ('"' :: spellings.flatten ++ '"' :: rest) =
          (tokens line rest).map (.prepend [⟨.string (String.ofList content), line⟩])) ∧
    (∀ s : String, tokens line ((Value.string s).text.toList ++ rest) =
      (tokens line rest).map (.prepend [⟨.string s, line⟩])) ∧
    ∀ c : Char, tokens line ((Value.char c).text.toList ++ rest) =
      (tokens line rest).map (.prepend [⟨.char c, line⟩]) := by
  refine ⟨fun content spellings h => ?_, fun s => ?_, fun c => ?_⟩
  · have hne : spellings.flatten ++ ['"'] ≠ [] := by simp
    have hscan :=
      Scans.string hne (fun rest => by simpa using quoted_spellings (.inl rfl) h rest) .nil
    rw [List.append_nil] at hscan
    have := hscan.tokens_append (apart_quote (.inl rfl) ('"' :: spellings.flatten) rest) line
    simpa using this
  · have := (scans_string s).tokens_append
      (apart_quote (.inl rfl) ('"' :: s.toList.flatMap (encodeChar '"')) rest) line
    rwa [Value.text, String.toList_ofList]
  · have := (scans_char c).tokens_append
      (apart_quote (.inr rfl) ('\'' :: [c].flatMap (encodeChar '\'')) rest) line
    rwa [Value.text, String.toList_ofList]

/-- Three octal digits before a digit, a code unit before a hexadecimal digit, a surrogate pair, and
two letters. -/
def mixedSpellings : List (Char × String) :=
  [('\n', "\\012"), ('3', "3"), ('A', "\\uu0041"), ('b', "b"), ('𝄞', "\\uD834\\udd1E"),
    ('"', "\\\""), (' ', "\\s")]

/-- The string is read as the seven characters that its parts spell, and the word after it is read
on. -/
theorem tokens_spelled_mixed :
    List.Forall₂ (Spells '"') (mixedSpellings.map (·.1)) (mixedSpellings.map (·.2.toList)) ∧
      tokens 1 ('"' :: (mixedSpellings.map (·.2.toList)).flatten ++ '"' :: [' ', 'x']) =
        (tokens 1 [' ', 'x']).map (.prepend [⟨.string "\n3Ab𝄞\" ", 1⟩]) := by
  have hnatural {base : Nat} {ds : List Char} {n : Nat} (hb : base ≤ 16)
      (h : Numeral.value? base ds = some n) : Numeral.IsNatural base ds n :=
    (Numeral.value?_eq_some_iff hb).1 h
  have hhigh : SpellsUnit (0xd800 + 0x34) "\\uD834".toList :=
    have hdigits : Numeral.IsNatural 16 ['D', '8', '3', '4'] (0xd800 + 0x34) :=
      hnatural (by decide) (by decide)
    .intro 0 rfl hdigits
  have hlow : SpellsUnit (0xdc00 + 0x11e) "\\udd1E".toList :=
    have hdigits : Numeral.IsNatural 16 ['d', 'd', '1', 'E'] (0xdc00 + 0x11e) :=
      hnatural (by decide) (by decide)
    .intro 0 rfl hdigits
  have hpair : Spells '"' '𝄞' ("\\uD834".toList ++ "\\udd1E".toList) :=
    .pair (by decide) (by decide) (by decide) hhigh hlow
  have hspells : List.Forall₂ (Spells '"') (mixedSpellings.map (·.1))
      (mixedSpellings.map (·.2.toList)) :=
    .cons (.octal rfl (hnatural (by decide) (by decide)) (by decide)) <|
      .cons (.plain (by decide) (by decide) (by decide)) <|
      .cons (.unit (.intro 1 rfl (hnatural (by decide) (by decide)))) <|
      .cons (.plain (by decide) (by decide) (by decide)) <|
      .cons hpair <| .cons (.simple (by decide)) <| .cons (.simple (by decide)) .nil
  exact ⟨hspells, (tokens_spelled 1 [' ', 'x']).1 _ _ hspells⟩

end Lexer

end AnnotationIndex
