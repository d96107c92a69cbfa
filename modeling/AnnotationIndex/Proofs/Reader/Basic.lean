import AnnotationIndex.Proofs.Numeral.Digits
import AnnotationIndex.Proofs.Reader.Equations

/-!
# Names and numbers are read back

What the readers of identifiers, numbers and qualified names give, and what they make of written
names and numbers. A reader `Yields` results with a property when it gives no others from the tokens
of a text; a text `Shows` a result to a reader when the reader gives that result from the tokens of
the text and leaves what comes next. Both statements recur for every reader.
-/

namespace AnnotationIndex

open Text

/-! ## Tokens of texts -/

/-- A lexeme as texts have them. -/
def Lexeme.Proper : Lexeme → Prop
  | .word w => IsWord w
  | .symbol c => isSymbol c = true
  | .string _ | .char _ => True

/-- Tokens as texts have them. -/
def ProperTokens (ts : List Token) : Prop := ∀ t ∈ ts, t.lexeme.Proper

/-- The first of the tokens of a text is as texts have them. -/
theorem ProperTokens.head {t : Token} {ts : List Token} (h : ProperTokens (t :: ts)) :
    t.lexeme.Proper := h t List.mem_cons_self

/-- The tokens of a text after the first are as texts have them. -/
theorem ProperTokens.tail {t : Token} {ts : List Token} (h : ProperTokens (t :: ts)) :
    ProperTokens ts := fun u hu => h u (List.mem_cons_of_mem _ hu)

/-- The first lexeme of a text is as texts have them. -/
theorem Lexer.lexeme_proper {c : Char} {cs rest : List Char} {l : Lexeme} (hb : isBlank c = false)
    (h : lexeme c cs = .ok (l, rest)) : l.Proper := by
  rw [lexeme] at h
  split at h
  · next hc =>
    cases h
    refine ⟨by simp, fun d hd => ?_⟩
    rw [String.toList_ofList, List.mem_cons] at hd
    rcases hd with rfl | hd
    · exact hc
    · exact List.all_eq_true.1 List.all_takeWhile d hd
  split at h
  · split at h
    · cases h
    · cases h
      trivial
  split at h
  · split at h
    · cases h
    · cases h
      trivial
    · cases h
  · next hw hq hq' =>
    cases h
    simp [Lexeme.Proper, isSymbol, hw, hq, hq', hb]

/-- The tokens of a text are as texts have them. -/
theorem Lexer.tokens_proper {line : Nat} {cs : List Char} {text : TokenizedText}
    (h : tokens line cs = .ok text) : ProperTokens text.tokens := by
  fun_induction tokens line cs generalizing text with
  | case1 => cases h; simp [ProperTokens]
  | case2 => cases h
  | case3 => cases h
  | case4 _ _ _ _ _ hs _ _ hl _ ht ih =>
    cases h
    intro t ht'
    rcases List.mem_cons.1 ht' with rfl | ht'
    · exact lexeme_proper (isBlank_of_skipBlanks hs) hl
    · exact ih ht t ht'

namespace Reader

/-! ## What readers give and what texts show -/

/-- From tokens of texts the reader gives results with the property only. -/
def Yields {α : Type} (r : List Token → Read α) (P : α → Prop) : Prop :=
  ∀ ⦃ts : List Token⦄ ⦃x : α⦄ ⦃rest : List Token⦄, ProperTokens ts → r ts = .ok (x, rest) →
    P x ∧ ProperTokens rest

/-- From the lexemes on any line the reader gives the result, and leaves what comes next. -/
def Reads {α : Type} (r : List Token → Read α) (stop : List Token → Prop) (L : List Lexeme)
    (x : α) : Prop :=
  ∀ (line : Nat) (rest : List Token), stop rest → r (tokensOn line L ++ rest) = .ok (x, rest)

/-- The text shows the result to the reader. -/
def Shows {α : Type} (r : List Token → Read α) (stop : List Token → Prop) (text : String)
    (x : α) : Prop :=
  ∃ L, Scans text.toList L ∧ Reads r stop L x

/-- Anything may come next. -/
def Anything (_ : List Token) : Prop := True

/-- What comes next does not go on with a name or a type. -/
def Closed (rest : List Token) : Prop :=
  ∀ c ∈ ['.', '(', '[', '<'], acceptSymbol c rest = none

/-- What comes next does not go on with the type or the values of an annotation. -/
def Ended (rest : List Token) : Prop := ∀ c ∈ ['.', '('], acceptSymbol c rest = none

/-- What comes next does not go on with a name. -/
def NoPoint (rest : List Token) : Prop := acceptSymbol '.' rest = none

/-- What goes on with neither a name nor a type goes on with no annotation. -/
theorem Closed.ended {rest : List Token} (h : Closed rest) : Ended rest := fun c hc =>
  h c (by simp only [List.mem_cons, List.not_mem_nil, or_false] at hc ⊢; tauto)

/-- What goes on with no annotation goes on with no name. -/
theorem Ended.noPoint {rest : List Token} (h : Ended rest) : NoPoint rest := h '.' (by simp)

/-- What goes on with neither a name nor a type goes on with no name. -/
theorem Closed.noPoint {rest : List Token} (h : Closed rest) : NoPoint rest := h.ended.noPoint

/-- A word goes on with neither a name nor a type. -/
theorem closed_word (w : String) (line : Nat) (rest : List Token) :
    Closed (⟨.word w, line⟩ :: rest) := fun _ _ => rfl

/-- Other symbols than those of names and types go on with neither. -/
theorem closed_symbol {c : Char} (h : c ∉ ['.', '(', '[', '<']) (line : Nat) (rest : List Token) :
    Closed (⟨.symbol c, line⟩ :: rest) := by
  intro d hd
  rw [acceptSymbol, accept, if_neg]
  intro he
  cases he
  exact h hd

/-- The symbol comes next. -/
def Before (c : Char) (rest : List Token) : Prop := ∃ line ts, rest = ⟨.symbol c, line⟩ :: ts

/-- The first token comes next. -/
theorem before_self (c : Char) (line : Nat) (rest : List Token) :
    Before c (⟨.symbol c, line⟩ :: rest) := ⟨line, rest, rfl⟩

/-- Before other symbols than those of names and types, none of these comes next. -/
theorem Before.closed {c : Char} {rest : List Token} (h : Before c rest)
    (hc : c ∉ ['.', '(', '[', '<']) : Closed rest := by
  obtain ⟨line, ts, rfl⟩ := h
  exact closed_symbol hc line ts

/-! ## Single tokens -/

/-- A lexeme that comes next is accepted. -/
@[simp] theorem accept_self (l : Lexeme) (line : Nat) (rest : List Token) :
    accept l (⟨l, line⟩ :: rest) = some rest := by
  simp [accept]

/-- A lexeme is not accepted where another one comes next. -/
theorem accept_of_ne {l l' : Lexeme} (h : l' ≠ l) (line : Nat) (rest : List Token) :
    accept l (⟨l', line⟩ :: rest) = none := by
  simp [accept, h]

/-- A symbol is not accepted before another one. -/
theorem Before.accept {c d : Char} {rest : List Token} (h : Before c rest) (hc : c ≠ d) :
    acceptSymbol d rest = none := by
  obtain ⟨line, ts, rfl⟩ := h
  exact accept_of_ne (by simpa using hc) line ts

/-- Before a symbol there is no number. -/
theorem Before.number? {c : Char} {rest : List Token} (h : Before c rest) :
    number? rest = (none, rest) := by
  obtain ⟨line, ts, rfl⟩ := h
  rfl

/-- A symbol that comes next is passed when it is expected. -/
@[simp] theorem expectSymbol_self (c : Char) (line : Nat) (rest : List Token) :
    expectSymbol c (⟨.symbol c, line⟩ :: rest) = .ok rest := by
  simp [expectSymbol]

/-- A word that comes next is passed when it is expected. -/
@[simp] theorem expectWord_self (w : String) (line : Nat) (rest : List Token) :
    expectWord w (⟨.word w, line⟩ :: rest) = .ok rest := by
  simp [expectWord]

/-- Accepting a lexeme leaves tokens of a text. -/
theorem proper_of_accept {l : Lexeme} {ts rest : List Token} (h : ProperTokens ts)
    (ha : accept l ts = some rest) : ProperTokens rest := by
  cases ts with
  | nil => cases ha
  | cons t ts =>
    rw [accept] at ha
    split at ha
    · cases ha
      exact h.tail
    · cases ha

/-- Passing a symbol leaves tokens of a text. -/
theorem proper_of_expectSymbol {c : Char} {ts rest : List Token} (h : ProperTokens ts)
    (he : expectSymbol c ts = .ok rest) : ProperTokens rest := by
  rw [expectSymbol] at he
  split at he
  · next ha =>
    cases he
    exact proper_of_accept h ha
  · cases he

/-- Passing a word leaves tokens of a text. -/
theorem proper_of_expectWord {w : String} {ts rest : List Token} (h : ProperTokens ts)
    (he : expectWord w ts = .ok rest) : ProperTokens rest := by
  rw [expectWord] at he
  split at he
  · next ha =>
    cases he
    exact proper_of_accept h ha
  · cases he

/-! ## Tokens that are taken

A reader that gives a result takes the tokens before those that it leaves. -/

/-- The first tokens have the lexemes, and the others are left. -/
def Takes (ts rest : List Token) (L : List Lexeme) : Prop :=
  ∃ used, ts = used ++ rest ∧ used.map (·.lexeme) = L

/-- Nothing is taken where everything is left. -/
theorem Takes.nil (ts : List Token) : Takes ts ts [] := ⟨[], rfl, rfl⟩

/-- What is taken one after the other is taken. -/
theorem Takes.append {ts rest left : List Token} {L M : List Lexeme} (h : Takes ts rest L)
    (h' : Takes rest left M) : Takes ts left (L ++ M) := by
  obtain ⟨used, rfl, rfl⟩ := h
  obtain ⟨more, rfl, rfl⟩ := h'
  exact ⟨used ++ more, by rw [List.append_assoc], by rw [List.map_append]⟩

/-- What is taken from the tokens of a text, and what is left, are as texts have them. -/
theorem Takes.proper {ts rest : List Token} {L : List Lexeme} (h : Takes ts rest L)
    (hts : ProperTokens ts) : (∀ l ∈ L, l.Proper) ∧ ProperTokens rest := by
  obtain ⟨used, rfl, rfl⟩ := h
  refine ⟨fun l hl => ?_, fun t ht => hts t (List.mem_append_right used ht)⟩
  obtain ⟨t, ht, rfl⟩ := List.mem_map.1 hl
  exact hts t (List.mem_append_left rest ht)

/-- The first word that is taken comes first. -/
theorem Takes.word? {ts rest : List Token} {w : String} {L : List Lexeme}
    (h : Takes ts rest (.word w :: L)) : Reader.word? ts = some w := by
  obtain ⟨used, rfl, hL⟩ := h
  obtain ⟨t, more, rfl, ht, -⟩ := List.map_eq_cons_iff.1 hL
  simp [Reader.word?, ht, Lexeme.word?]

/-- A lexeme that is accepted is taken. -/
theorem accept_takes {l : Lexeme} {ts rest : List Token} (h : accept l ts = some rest) :
    Takes ts rest [l] := by
  cases ts with
  | nil => cases h
  | cons t ts =>
    rw [accept] at h
    split at h
    · next hl =>
      cases h
      exact ⟨[t], rfl, by simp [hl]⟩
    · cases h

/-- A symbol that is passed is taken. -/
theorem expectSymbol_takes {c : Char} {ts rest : List Token} (h : expectSymbol c ts = .ok rest) :
    Takes ts rest [.symbol c] := by
  rw [expectSymbol] at h
  split at h
  · next ha =>
    cases h
    exact accept_takes ha
  · cases h

/-- An identifier that is read is a word, which is taken. -/
theorem identifier_takes {w : String} {ts rest : List Token} (h : identifier ts = .ok (w, rest)) :
    isIdentifier w = true ∧ Takes ts rest [.word w] := by
  unfold identifier at h
  split at h
  · split at h
    · next hw =>
      cases h
      exact ⟨hw, [⟨.word w, _⟩], rfl, rfl⟩
    · cases h
  · cases h

/-- What is read as an identifier is one. -/
theorem yields_identifier : Yields identifier IsIdentifier := by
  intro ts x rest hts h
  unfold identifier at h
  split at h
  · split at h
    · next hw =>
      cases h
      exact ⟨⟨hts.head, hw⟩, hts.tail⟩
    · cases h
  · cases h

/-- An identifier that is read is the word that comes first. -/
theorem word?_of_identifier {w : String} {ts rest : List Token}
    (h : identifier ts = .ok (w, rest)) :
    word? ts = some w := by
  unfold identifier at h
  split at h
  · split at h
    · cases h
      rfl
    · cases h
  · cases h

/-- An identifier is read as itself. -/
@[simp] theorem identifier_self {w : String} (h : IsIdentifier w) (line : Nat)
    (rest : List Token) : identifier (⟨.word w, line⟩ :: rest) = .ok (w, rest) := by
  rw [identifier, if_pos h.starts]

/-- The text of an identifier shows it. -/
theorem shows_identifier {w : String} (h : IsIdentifier w) : Shows identifier Anything w w :=
  ⟨[.word w], h.scans, fun line rest _ => identifier_self h line rest⟩

/-- A written number is read as itself. -/
@[simp] theorem number_self (n : UInt32) (line : Nat) (rest : List Token) :
    number (⟨.word (numberText n), line⟩ :: rest) = .ok (n, rest) := by
  rw [number, natural?_numberText]

/-- Reading a number leaves tokens of a text. -/
theorem proper_of_number {n : UInt32} {ts rest : List Token} (h : ProperTokens ts)
    (hn : number ts = .ok (n, rest)) : ProperTokens rest := by
  unfold number at hn
  split at hn
  · split at hn
    · cases hn
      exact h.tail
    · cases hn
  · cases hn

/-- Reading a number that may be missing leaves tokens of a text. -/
theorem proper_of_number? {ts : List Token} (h : ProperTokens ts) :
    ProperTokens (number? ts).2 := by
  rw [number?]
  split
  · next hn => exact proper_of_number h hn
  · exact h

/-! ## Qualified names -/

/-- The parts of a name are read up to what does not go on with it. -/
theorem nameParts_dotted {ws : List String} (hws : ∀ v ∈ ws, IsIdentifier v) (n : String)
    (line : Nat) {rest : List Token} (hrest : acceptSymbol '.' rest = none) :
    nameParts n (tokensOn line (dottedLexemes ws) ++ rest) = .ok (dotted n ws, rest) := by
  induction ws generalizing n with
  | nil =>
    rw [nameParts_eq]
    simp [dottedLexemes, hrest, dotted]
  | cons v ws ih =>
    have hv := hws v List.mem_cons_self
    have hsplit : tokensOn line (dottedLexemes (v :: ws)) ++ rest =
        ⟨.symbol '.', line⟩ :: ⟨.word v, line⟩ :: (tokensOn line (dottedLexemes ws) ++ rest) := by
      simp [dottedLexemes]
    rw [hsplit, nameParts_eq]
    simp only [accept_self, identifier_self hv]
    exact ih (fun u hu => hws u (List.mem_cons_of_mem _ hu)) _

/-- Written parts of a name are read back. -/
theorem reads_dotted {w : String} {ws : List String} (hw : IsIdentifier w)
    (hws : ∀ v ∈ ws, IsIdentifier v) :
    Scans (dotted w ws).toList (.word w :: dottedLexemes ws) ∧
      Reads qualifiedName NoPoint (.word w :: dottedLexemes ws) (dotted w ws) := by
  refine ⟨scans_dotted hw.scans fun v hv => (hws v hv).toIsWord, fun line rest hrest => ?_⟩
  rw [tokensOn_cons, List.cons_append, qualifiedName, identifier_self hw]
  exact nameParts_dotted hws w line hrest

/-- The text of a name shows it. -/
theorem shows_qualifiedName {n : String} (h : IsName n) : Shows qualifiedName NoPoint n n := by
  obtain ⟨w, ws, hw, hws, rfl⟩ := h
  exact ⟨_, reads_dotted hw hws⟩

/-- The parts of a name that are read are words behind points, which are taken. -/
theorem nameParts_takes {n m : String} {ts rest : List Token}
    (h : nameParts n ts = .ok (m, rest)) :
    ∃ ws, (∀ v ∈ ws, isIdentifier v = true) ∧ m = dotted n ws ∧
      Takes ts rest (dottedLexemes ws) := by
  fun_induction nameParts n ts with
  | case1 =>
    cases h
    exact ⟨[], by simp, rfl, .nil _⟩
  | case2 => cases h
  | case3 _ _ _ ha _ _ hi ih =>
    obtain ⟨hw, htakes⟩ := identifier_takes hi
    obtain ⟨ws, hws, rfl, hrest⟩ := ih h
    exact ⟨_ :: ws, List.forall_mem_cons.2 ⟨hw, hws⟩, rfl,
      ((accept_takes ha).append htakes).append hrest⟩

/-- A name that is read is its words with points between them. -/
theorem qualifiedName_takes {n : String} {ts rest : List Token}
    (h : qualifiedName ts = .ok (n, rest)) :
    ∃ w ws, isIdentifier w = true ∧ (∀ v ∈ ws, isIdentifier v = true) ∧ n = dotted w ws ∧
      Takes ts rest (.word w :: dottedLexemes ws) := by
  rw [qualifiedName] at h
  split at h
  · cases h
  · next hi =>
    obtain ⟨hw, htakes⟩ := identifier_takes hi
    obtain ⟨ws, hws, hn, hrest⟩ := nameParts_takes h
    exact ⟨_, ws, hw, hws, hn, htakes.append hrest⟩

/-- A name that is read has the first word as its first part. -/
theorem qualifiedName_parts {n : String} {ts rest : List Token} (hts : ProperTokens ts)
    (h : qualifiedName ts = .ok (n, rest)) :
    (∃ w ws, word? ts = some w ∧ IsIdentifier w ∧ (∀ v ∈ ws, IsIdentifier v) ∧ n = dotted w ws) ∧
      ProperTokens rest := by
  obtain ⟨w, ws, hw, hws, hn, htakes⟩ := qualifiedName_takes h
  obtain ⟨hproper, hrest⟩ := htakes.proper hts
  refine ⟨⟨w, ws, htakes.word?, ⟨hproper _ List.mem_cons_self, hw⟩, fun v hv => ⟨?_, hws v hv⟩, hn⟩,
    hrest⟩
  exact hproper (.word v) (List.mem_cons_of_mem _ (List.mem_flatMap.2 ⟨v, hv, by simp⟩))

/-- What is read as a name is one. -/
theorem yields_qualifiedName : Yields qualifiedName IsName := by
  intro ts x rest hts h
  obtain ⟨⟨w, ws, -, hw, hws, hn⟩, hrest⟩ := qualifiedName_parts hts h
  exact ⟨⟨w, ws, hw, hws, hn⟩, hrest⟩

/-! ## Pairs of brackets -/

/-- A type with pairs of brackets after it. -/
def bracketed (type : String) : Nat → String
  | 0 => type
  | n + 1 => bracketed (type ++ "[]") n

/-- The lexemes of pairs of brackets. -/
def bracketLexemes : Nat → List Lexeme
  | 0 => []
  | n + 1 => .symbol '[' :: .symbol ']' :: bracketLexemes n

/-- Without a bracket there are no brackets. -/
theorem brackets_none {type : String} {ts : List Token} (h : acceptSymbol '[' ts = none) :
    brackets type ts = .ok (type, ts) := by
  rw [brackets_eq, h]

/-- A pair of brackets is followed by further brackets. -/
theorem brackets_some {type : String} {ts more rest : List Token}
    (h : acceptSymbol '[' ts = some more) (hc : expectSymbol ']' more = .ok rest) :
    brackets type ts = brackets (type ++ "[]") rest := by
  rw [brackets_eq type ts]
  simp only [h, hc]

/-- Brackets at the end of a text are scanned after what it starts with. -/
theorem scans_bracketed {type : String} {L : List Lexeme} (h : Scans type.toList L) (n : Nat) :
    Scans (bracketed type n).toList (L ++ bracketLexemes n) := by
  induction n generalizing type L with
  | zero => simpa [bracketed, bracketLexemes] using h
  | succ n ih =>
    have hpair : Scans (type ++ "[]").toList (L ++ [.symbol '[', .symbol ']']) := by
      have := h.append_symbol (isSymbol_of_mem (c := '[') (by decide))
        (Scans.nil.cons_symbol (c := ']') (by decide) (by decide))
      simpa using this
    simpa [bracketed, bracketLexemes] using ih hpair

/-- Brackets are read up to what does not go on with them. -/
theorem brackets_bracketed (type : String) (n line : Nat) {rest : List Token}
    (hrest : acceptSymbol '[' rest = none) :
    brackets type (tokensOn line (bracketLexemes n) ++ rest) = .ok (bracketed type n, rest) := by
  induction n generalizing type with
  | zero => exact brackets_none hrest
  | succ n ih =>
    rw [bracketLexemes, tokensOn_cons, tokensOn_cons, List.cons_append, List.cons_append,
      brackets_some (accept_self _ _ _) (expectSymbol_self _ _ _)]
    exact ih _

/-- No other symbol comes next because of brackets. -/
theorem acceptSymbol_bracketLexemes {c : Char} (hc : c ≠ '[') (n line : Nat) {rest : List Token}
    (hrest : acceptSymbol c rest = none) :
    acceptSymbol c (tokensOn line (bracketLexemes n) ++ rest) = none := by
  cases n with
  | zero => exact hrest
  | succ n => exact accept_of_ne (by simpa using hc.symm) line _

/-- A type that is read has the brackets that are there. -/
theorem brackets_takes {type w : String} {ts rest : List Token}
    (h : brackets type ts = .ok (w, rest)) :
    ∃ n, w = bracketed type n ∧ Takes ts rest (bracketLexemes n) := by
  fun_induction brackets type ts with
  | case1 =>
    cases h
    exact ⟨0, rfl, .nil _⟩
  | case2 => cases h
  | case3 _ _ _ ha _ hc ih =>
    obtain ⟨n, rfl, hrest⟩ := ih h
    exact ⟨n + 1, rfl, ((accept_takes ha).append (expectSymbol_takes hc)).append hrest⟩

/-- Reading brackets adds pairs of them to the name, and leaves tokens of a text. -/
theorem brackets_yields {type w : String} {ts rest : List Token} (hts : ProperTokens ts)
    (h : brackets type ts = .ok (w, rest)) : (∃ n, w = bracketed type n) ∧ ProperTokens rest := by
  obtain ⟨n, hw, htakes⟩ := brackets_takes h
  exact ⟨⟨n, hw⟩, (htakes.proper hts).2⟩

end Reader

end AnnotationIndex
