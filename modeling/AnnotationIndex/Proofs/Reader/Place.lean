import AnnotationIndex.Proofs.Reader.Basic
import AnnotationIndex.Reader.Place

/-!
# Locations are read back

Each location that a section header can name is read as it is written. The key of a method is read
back only when it holds no two slashes in a row, which would start a comment (`NoComment`).
-/

namespace AnnotationIndex

open Text

/-! ## What locations consist of -/

/-- Texts that method keys consist of: word characters and symbols other than the colon. -/
def IsKeyText (cs : List Char) : Prop :=
  ∀ c ∈ cs, (isWordChar c = true ∨ isSymbol c = true) ∧ c ≠ ':'

/-- No two slashes follow one another. -/
def NoComment (cs : List Char) : Prop := ¬ ['/', '/'] <:+: cs

/-- A step that a syntax tree path can have. -/
def SourceStep.Proper (s : SourceStep) : Prop := IsIdentifier s.kind ∧ IsIdentifier s.child

/-- A path that can be written: not empty, with proper steps. -/
def SourcePath.Proper (p : SourcePath) : Prop := p.steps ≠ [] ∧ ∀ s ∈ p.steps, s.Proper

/-! ## Interfaces -/

namespace Supertype

/-- The number of an interface is recovered from its supertype. -/
theorem interface?_of_ofInterface? {n : UInt32} {s : Supertype} (h : ofInterface? n = some s) :
    s.isSuperclass = false ∧ s.interface? = some n := by
  simp only [ofInterface?, Option.ite_none_right_eq_some, Option.some.injEq] at h
  obtain ⟨hn, rfl⟩ := h
  have hhalf : (IntegerKind.int.half : Nat) = 2147483648 := rfl
  have hint : (Int32.ofNat n.toNat).toInt = n.toNat := Int32.toInt_ofNat_of_lt (by omega)
  constructor
  · refine decide_eq_false fun he => ?_
    have := congrArg (fun s => s.index.toInt) he
    simp only [hint, superclass] at this
    have hneg : (-1 : Int32).toInt = -1 := rfl
    omega
  · rw [interface?]
    simp [hint]

end Supertype

/-! ## Method keys -/

/-- The spelling of lexemes one after the other. -/
def spellings (L : List Lexeme) : List Char := L.flatMap fun l => (l.spelling?.getD "").toList

/-- The text of a method key without a comment is made of lexemes that spell it. -/
theorem scans_keyText : ∀ cs : List Char, IsKeyText cs → NoComment cs →
    ∃ L, Scans cs L ∧ spellings L = cs ∧ ∀ l ∈ L, l ≠ .symbol ':' ∧ l.spelling?.isSome
  | [], _, _ => ⟨[], .nil, rfl, by simp⟩
  | c :: cs, hk, hc => by
    by_cases hw : isWordChar c = true
    · have hdrop : cs.dropWhile isWordChar <:+ c :: cs :=
        (List.dropWhile_suffix _).trans (List.suffix_cons _ _)
      obtain ⟨L, hL, hs, hl⟩ := scans_keyText (cs.dropWhile isWordChar)
        (fun d hd => hk d (hdrop.subset hd)) fun h => hc (h.trans hdrop.isInfix)
      have hstop : ∀ d ∈ (cs.dropWhile isWordChar).head?, isWordChar d = false := by
        intro d hd
        have hnot := List.head?_dropWhile_not isWordChar cs
        rw [Option.mem_def.1 hd] at hnot
        simpa using hnot
      have hchars : ∀ d ∈ c :: cs.takeWhile isWordChar, isWordChar d = true := by
        intro d hd
        rcases List.mem_cons.1 hd with rfl | hd
        · exact hw
        · exact List.all_eq_true.1 List.all_takeWhile d hd
      have hsplit : (c :: cs.takeWhile isWordChar) ++ cs.dropWhile isWordChar = c :: cs := by
        rw [List.cons_append, List.takeWhile_append_dropWhile]
      refine ⟨.word (String.ofList (c :: cs.takeWhile isWordChar)) :: L, ?_, ?_, ?_⟩
      · have := Scans.word (by simp) hchars hstop hL
        rwa [hsplit] at this
      · rw [spellings, List.flatMap_cons, ← spellings, hs, Lexeme.spelling?, Option.getD_some,
          String.toList_ofList, hsplit]
      · rw [List.forall_mem_cons]
        exact ⟨⟨by simp, rfl⟩, hl⟩
    · have hsym := (hk c List.mem_cons_self).1.resolve_left hw
      obtain ⟨L, hL, hs, hl⟩ := scans_keyText cs (fun d hd => hk d (List.mem_cons_of_mem _ hd))
        fun h => hc (h.trans (List.infix_cons (List.infix_refl _)))
      refine ⟨.symbol c :: L, .symbol hsym (fun he hd => hc ?_) hL, ?_, ?_⟩
      · cases cs with
        | nil => cases hd
        | cons d cs =>
          cases hd
          exact he ▸ ⟨[], cs, rfl⟩
      · rw [spellings, List.flatMap_cons, ← spellings, hs, Lexeme.spelling?, Option.getD_some]
        simp
      · rw [List.forall_mem_cons]
        exact ⟨⟨by simpa using (hk c List.mem_cons_self).2, rfl⟩, hl⟩
termination_by cs => cs.length
decreasing_by
  · have := (List.dropWhile_sublist isWordChar (l := cs)).length_le
    simp only [List.length_cons]
    omega
  · simp

namespace Reader

/-- A method key is read from the spellings of its lexemes, up to the colon. -/
theorem methodKey_spelled {L : List Lexeme} (hL : ∀ l ∈ L, l ≠ .symbol ':' ∧ l.spelling?.isSome)
    (key : String) (line : Nat) {rest : List Token} (hrest : Before ':' rest) :
    methodKey key (tokensOn line L ++ rest) =
      .ok (key ++ String.ofList (spellings L), rest) := by
  induction L generalizing key with
  | nil =>
    obtain ⟨line', ts, rfl⟩ := hrest
    simp [methodKey, spellings]
  | cons l L ih =>
    obtain ⟨⟨hl, hs⟩, hL⟩ := List.forall_mem_cons.1 hL
    obtain ⟨w, hw⟩ := Option.isSome_iff_exists.1 hs
    rw [tokensOn_cons, List.cons_append, methodKey, if_neg hl]
    simp only [hw]
    rw [ih hL]
    simp [spellings, hw, String.append_assoc]

/-- The text of a method key in which no comment starts shows it. -/
theorem shows_methodKey {key : String} (hk : IsKeyText key.toList) (hc : NoComment key.toList) :
    Shows (methodKey "") (Before ':') key key := by
  obtain ⟨L, hL, hs, hl⟩ := scans_keyText _ hk hc
  refine ⟨L, hL, fun line rest hrest => ?_⟩
  rw [methodKey_spelled hl "" line hrest, hs]
  simp

/-! ## Written locations -/

/-- The text of a number shows it. -/
theorem shows_number (n : UInt32) : Shows number Anything (numberText n) n :=
  ⟨_, (isWord_numberText n).scans, fun line rest _ => number_self n line rest⟩

/-- The number of an interface shows it. -/
theorem shows_interface {n : UInt32} {s : Supertype} (h : Supertype.ofInterface? n = some s) :
    Shows interface Anything (numberText n) s := by
  refine ⟨_, (isWord_numberText n).scans, fun line rest _ => ?_⟩
  simp [interface, h]

/-- The text of a bound shows it. -/
theorem shows_bound (b : Bound) : Shows bound Anything b.text b := by
  refine ⟨[.word (numberText b.parameter), .symbol '&', .word (numberText b.bound)], ?_,
    fun line rest _ => ?_⟩
  · simpa [Bound.text] using (isWord_numberText b.parameter).scans.append_symbol
      (isSymbol_of_mem (c := '&') (by decide)) (isWord_numberText b.bound).scans
  · simp [bound]

/-- The text of a local variable shows it. -/
theorem shows_localVariable (l : LocalVariable) :
    Shows localVariable Anything l.text l := by
  refine ⟨[.word (numberText l.index), .symbol '#', .word (numberText l.start), .symbol '+',
    .word (numberText l.length)], ?_, fun line rest _ => ?_⟩
  · have hrange := (isWord_numberText l.start).scans.append_symbol
      (isSymbol_of_mem (c := '+') (by decide)) (isWord_numberText l.length).scans
    simpa [LocalVariable.text] using (isWord_numberText l.index).scans.append_space
      (hrange.cons_symbol (c := '#') (by decide) (by decide))
  · simp [localVariable]

/-- The text of a position in code shows it. -/
theorem shows_codePosition (p : CodePosition) : Shows codePosition Anything p.text p := by
  cases p with
  | offset n =>
    refine ⟨[.symbol '#', .word (numberText n)], ?_, fun line rest _ => by simp [codePosition]⟩
    simpa [CodePosition.text] using
      (isWord_numberText n).scans.cons_symbol (c := '#') (by decide) (by decide)
  | index n =>
    refine ⟨[.symbol '*', .word (numberText n)], ?_, fun line rest _ => ?_⟩
    · simpa [CodePosition.text] using
        (isWord_numberText n).scans.cons_symbol (c := '*') (by decide) (by decide)
    · simp [codePosition, accept_of_ne]

/-- The text of the number of an initializer block shows it. -/
theorem shows_ordinal (n : UInt32) : Shows ordinal Anything ("*" ++ numberText n) n := by
  refine ⟨[.symbol '*', .word (numberText n)], ?_, fun line rest _ => by simp [ordinal]⟩
  simpa using (isWord_numberText n).scans.cons_symbol (c := '*') (by decide) (by decide)

/-- The text of the number of a parameter shows it. -/
theorem shows_parameter (n : UInt32) : Shows parameter Anything ("#" ++ numberText n) n := by
  refine ⟨[.symbol '#', .word (numberText n)], ?_, fun line rest _ => by simp [parameter]⟩
  simpa using (isWord_numberText n).scans.cons_symbol (c := '#') (by decide) (by decide)

/-- Without a comma there are no further steps. -/
theorem innerSteps_none {ts : List Token} (h : acceptSymbol ',' ts = none) :
    innerSteps ts = .ok ([], ts) := by
  rw [innerSteps_eq, h]

/-- Behind a comma come a step and further steps. -/
theorem innerSteps_some {ts more rest : List Token} {n : UInt32} {steps : List UInt32}
    {left : List Token} (h : acceptSymbol ',' ts = some more) (hn : number more = .ok (n, rest))
    (hs : innerSteps rest = .ok (steps, left)) : innerSteps ts = .ok (n :: steps, left) := by
  rw [innerSteps_eq]
  simp only [h, hn, hs]

/-- The steps of a way into a type are read as they are written. -/
theorem shows_innerTypePath {p : InnerTypePath} (h : p.steps ≠ []) :
    Shows innerTypePath (Before ':') p.text p := by
  have hsteps : ∀ (n : UInt32) (steps : List UInt32), ∃ L,
      Scans (joinWith "," ((n :: steps).map numberText)).toList (.word (numberText n) :: L) ∧
        Reads innerSteps (Before ':') L steps := by
    intro n steps
    induction steps generalizing n with
    | nil =>
      exact ⟨[], (isWord_numberText n).scans,
        fun line rest hrest => innerSteps_none (hrest.accept (by decide))⟩
    | cons m steps ih =>
      obtain ⟨L, hs, hr⟩ := ih m
      refine ⟨.symbol ',' :: .word (numberText m) :: L, ?_, fun line rest hrest => ?_⟩
      · have := (isWord_numberText n).scans.append_symbol
          (isSymbol_of_mem (c := ',') (by decide)) hs
        simpa [joinWith] using this
      · exact innerSteps_some (accept_self _ _ _) (number_self _ _ _) (hr line rest hrest)
  obtain ⟨steps⟩ := p
  cases steps with
  | nil => exact absurd rfl h
  | cons n steps =>
    obtain ⟨L, hs, hr⟩ := hsteps n steps
    refine ⟨_, hs, fun line rest hrest => ?_⟩
    simp [innerTypePath, hr line rest hrest]

/-- What comes next goes on with no number. -/
def NoNumber (rest : List Token) : Prop := number? rest = (none, rest)

/-- The text of a step shows it, where no number follows. -/
theorem shows_sourceStep {s : SourceStep} (h : s.Proper) :
    ∃ L, Scans s.text.toList L ∧ Reads sourceStep NoNumber L s := by
  obtain ⟨kind, child, argument⟩ := s
  obtain ⟨hk, hc⟩ := h
  have hname := hk.scans.append_symbol (isSymbol_of_mem (c := '.') (by decide)) hc.scans
  cases argument with
  | none =>
    refine ⟨_, by simpa [SourceStep.text] using hname, fun line rest hrest => ?_⟩
    have hrest : number? rest = (none, rest) := hrest
    simp [sourceStep, hk, hc, hrest]
  | some n =>
    refine ⟨_, by simpa [SourceStep.text] using hname.append_space (isWord_numberText n).scans,
      fun line rest hrest => ?_⟩
    have hn : number? (⟨.word (numberText n), line⟩ :: rest) = (some n, rest) := by
      rw [number?, number_self]
    simp [sourceStep, hk, hc, hn]

/-- A step that no comma follows is the last one. -/
theorem sourceSteps_none {ts rest : List Token} {step : SourceStep}
    (h : sourceStep ts = .ok (step, rest)) (ha : acceptSymbol ',' rest = none) :
    sourceSteps ts = .ok ([step], rest) := by
  rw [sourceSteps_eq]
  simp only [h, ha]

/-- Behind a comma come further steps. -/
theorem sourceSteps_some {ts rest more left : List Token} {step : SourceStep}
    {steps : List SourceStep} (h : sourceStep ts = .ok (step, rest))
    (ha : acceptSymbol ',' rest = some more) (hs : sourceSteps more = .ok (steps, left)) :
    sourceSteps ts = .ok (step :: steps, left) := by
  rw [sourceSteps_eq]
  simp only [h, ha, hs]

/-- The steps of a node of a syntax tree are read as they are written. -/
theorem shows_sourcePath {p : SourcePath} (h : p.Proper) :
    Shows sourcePath (Before ':') p.text p := by
  have hsteps : ∀ steps : List SourceStep, steps ≠ [] → (∀ s ∈ steps, s.Proper) →
      Shows sourceSteps (Before ':') (joinWith ", " (steps.map SourceStep.text)) steps := by
    intro steps hne hp
    induction steps with
    | nil => exact absurd rfl hne
    | cons s steps ih =>
      obtain ⟨hs, hp⟩ := List.forall_mem_cons.1 hp
      obtain ⟨L, hL, hr⟩ := shows_sourceStep hs
      cases steps with
      | nil =>
        exact ⟨L, hL, fun line rest hrest =>
          sourceSteps_none (hr line rest hrest.number?) (hrest.accept (by decide))⟩
      | cons s' steps =>
        obtain ⟨M, hM, hr'⟩ := ih (by simp) hp
        refine ⟨L ++ .symbol ',' :: M, ?_, fun line rest hrest => ?_⟩
        · have := hL.append_symbol (isSymbol_of_mem (c := ',') (by decide)) hM.cons_space
          simpa [joinWith] using this
        · have hstep := hr line (⟨.symbol ',', line⟩ :: (tokensOn line M ++ rest)) rfl
          rw [tokensOn_append, tokensOn_cons, List.append_assoc, List.cons_append]
          exact sourceSteps_some hstep (accept_self _ _ _) (hr' line rest hrest)
  obtain ⟨steps⟩ := p
  obtain ⟨L, hL, hr⟩ := hsteps steps h.1 h.2
  refine ⟨L, hL, fun line rest hrest => ?_⟩
  simp [sourcePath, hr line rest hrest]

/-! ## Locations that are read -/

/-- A number is read from the tokens of a text. -/
theorem yields_number : Yields number fun _ => True :=
  fun _ _ _ hts h => ⟨trivial, proper_of_number hts h⟩

/-- A bound is read from the tokens of a text. -/
theorem yields_bound : Yields bound fun _ => True := by
  intro ts x rest hts h
  rw [bound] at h
  grind [→ proper_of_number, → proper_of_expectSymbol]

/-- A local variable is read from the tokens of a text. -/
theorem yields_localVariable : Yields localVariable fun _ => True := by
  intro ts x rest hts h
  rw [localVariable] at h
  split at h
  · cases h
  next h₁ =>
  have h₁ := proper_of_number hts h₁
  split at h
  · cases h
  next h₂ =>
  have h₂ := proper_of_expectSymbol h₁ h₂
  split at h
  · cases h
  next h₃ =>
  have h₃ := proper_of_number h₂ h₃
  split at h
  · cases h
  next h₄ =>
  have h₄ := proper_of_expectSymbol h₃ h₄
  split at h
  · cases h
  next h₅ =>
  cases h
  exact ⟨trivial, proper_of_number h₄ h₅⟩

/-- A position in code is read from the tokens of a text. -/
theorem yields_codePosition : Yields codePosition fun _ => True := by
  intro ts x rest hts h
  rw [codePosition] at h
  grind [→ proper_of_number, → proper_of_accept, fail]

/-- What is read as the number of an interface is that of some supertype. -/
theorem yields_interface : Yields interface fun s => ∃ n, Supertype.ofInterface? n = some s := by
  intro ts x rest hts h
  rw [interface] at h
  split at h
  · cases h
  next hn =>
  split at h
  · next hs =>
    cases h
    exact ⟨⟨_, hs⟩, proper_of_number hts hn⟩
  · cases h

/-- The number of an initializer block is read from the tokens of a text. -/
theorem yields_ordinal : Yields ordinal fun _ => True := by
  intro ts x rest hts h
  rw [ordinal] at h
  split at h
  · cases h
  · next he => exact ⟨trivial, proper_of_number (proper_of_expectSymbol hts he) h⟩

/-- The number of a parameter is read from the tokens of a text. -/
theorem yields_parameter : Yields parameter fun _ => True := by
  intro ts x rest hts h
  rw [parameter] at h
  split at h
  · cases h
  · next he => exact ⟨trivial, proper_of_number (proper_of_expectSymbol hts he) h⟩

/-- Steps to an inner type are read from the tokens of a text. -/
theorem yields_innerSteps : Yields innerSteps fun _ => True := by
  intro ts x rest hts h
  refine ⟨trivial, ?_⟩
  fun_induction innerSteps ts generalizing x rest with
  | case1 => cases h; exact hts
  | case2 => cases h
  | case3 => cases h
  | case4 _ _ ha _ _ hn _ _ hs ih =>
    cases h
    exact ih (proper_of_number (proper_of_accept hts ha) hn) hs

/-- The location of an inner type that is read has at least one step. -/
theorem yields_innerTypePath : Yields innerTypePath fun p => p.steps ≠ [] := by
  intro ts x rest hts h
  rw [innerTypePath] at h
  split at h
  · cases h
  next hn =>
  split at h
  · cases h
  next hs =>
  cases h
  exact ⟨by simp, (yields_innerSteps (proper_of_number hts hn) hs).2⟩

/-- A step that is read is one of two identifiers. -/
theorem yields_sourceStep : Yields sourceStep SourceStep.Proper := by
  intro ts x rest hts h
  rw [sourceStep] at h
  split at h
  · cases h
  next h₁ =>
  obtain ⟨hk, h₁⟩ := yields_identifier hts h₁
  split at h
  · cases h
  next h₂ =>
  have h₂ := proper_of_expectSymbol h₁ h₂
  split at h
  · cases h
  next h₃ =>
  obtain ⟨hc, h₃⟩ := yields_identifier h₂ h₃
  cases h
  exact ⟨⟨hk, hc⟩, proper_of_number? h₃⟩

/-- Steps that are read are at least one, and each is of two identifiers. -/
theorem yields_sourceSteps :
    Yields sourceSteps fun steps => steps ≠ [] ∧ ∀ s ∈ steps, s.Proper := by
  intro ts x rest hts h
  fun_induction sourceSteps ts generalizing x rest with
  | case1 => cases h
  | case2 _ _ _ hs _ =>
    cases h
    obtain ⟨hp, hrest⟩ := yields_sourceStep hts hs
    exact ⟨⟨by simp, by simpa using hp⟩, hrest⟩
  | case3 => cases h
  | case4 _ _ _ hs _ ha _ _ hm ih =>
    cases h
    obtain ⟨hp, hrest⟩ := yields_sourceStep hts hs
    obtain ⟨⟨-, hmore⟩, hleft⟩ := ih (proper_of_accept hrest ha) hm
    exact ⟨⟨by simp, List.forall_mem_cons.2 ⟨hp, hmore⟩⟩, hleft⟩

/-- A path in a source that is read has at least one step, and each is of two identifiers. -/
theorem yields_sourcePath : Yields sourcePath SourcePath.Proper := by
  intro ts x rest hts h
  rw [sourcePath] at h
  split at h
  · cases h
  · next hs =>
    cases h
    exact yields_sourceSteps hts hs

/-- The spelling of a lexeme other than a colon is text of a method key. -/
theorem isKeyText_spelling {l : Lexeme} (hp : l.Proper) (hl : l ≠ .symbol ':') {w : String}
    (hw : l.spelling? = some w) : IsKeyText w.toList := by
  cases l with
  | word v =>
    cases hw
    refine fun c hc => ⟨.inl (hp.chars c hc), ?_⟩
    rintro rfl
    exact absurd (hp.chars _ hc) (by decide)
  | symbol c =>
    cases hw
    intro d hd
    obtain rfl : d = c := by simpa using hd
    exact ⟨.inr hp, by simpa using hl⟩
  | string | char => cases hw

/-- A method key that is read is made of such characters as texts have. -/
theorem yields_methodKey {key k : String} {ts rest : List Token} (hts : ProperTokens ts)
    (hk : IsKeyText key.toList) (h : methodKey key ts = .ok (k, rest)) :
    IsKeyText k.toList ∧ ProperTokens rest := by
  fun_induction methodKey key ts with
  | case1 => cases h
  | case2 =>
    cases h
    exact ⟨hk, hts⟩
  | case3 key t _ hl w hw ih =>
    refine ih hts.tail ?_ h
    intro c hc
    rw [String.toList_append] at hc
    rcases List.mem_append.1 hc with hc | hc
    · exact hk c hc
    · exact isKeyText_spelling hts.head hl hw c hc
  | case4 => cases h

end Reader

end AnnotationIndex
