import AnnotationIndex.Proofs.Reader.Statement

/-!
# Cast types in scenes

A scene keeps a cast type as text. Two types are the same text exactly when they are the same
lexemes (`Reader.Spelled.eq_iff`), so that a scene refuses a second type for a cast exactly when it
is another sequence of lexemes, however both are laid out. The main statement is
`Scene.castType_canonical`, and `Scene.read_castTypes` says the same of a text that has both types.
-/

namespace AnnotationIndex

namespace Reader

/-- The tokens of a spelling are its lexemes, and it is read from them as a whole. -/
theorem Spelled.tokenize {L : List Lexeme} {type : String} (h : Spelled castType Closed L type) :
    ∃ t, tokenize type = .ok t ∧ t.tokens.map (·.lexeme) = L ∧
      castType t.tokens = .ok (type, []) := by
  refine ⟨_, h.1.tokens_line 1, map_lexeme_tokensOn 1 L, ?_⟩
  have := h.2 1 [] fun _ _ => rfl
  rwa [List.append_nil] at this

/-- Types that are spelled with the same lexemes are the same, and the other way round. -/
theorem Spelled.eq_iff {L M : List Lexeme} {type type' : String}
    (h : Spelled castType Closed L type) (h' : Spelled castType Closed M type') :
    type = type' ↔ L = M := by
  constructor
  · rintro rfl
    exact h.1.unique h'.1
  · rintro rfl
    have hread := h.2 1 [] fun _ _ => rfl
    rw [h'.2 1 [] fun _ _ => rfl, Except.ok.injEq, Prod.mk.injEq] at hread
    exact hread.1.symm

/-- Tokens that are taken are the first ones, as many as there are lexemes. -/
theorem Takes.map_eq {ts used rest : List Token} {L : List Lexeme} (h : Takes ts rest L)
    (hts : ts = used ++ rest) : used.map (·.lexeme) = L := by
  obtain ⟨used', hts', hL⟩ := h
  rw [List.append_cancel_right (hts.symm.trans hts'), hL]

end Reader

namespace Scene

open Reader

/-- A cast has the type that was loaded for it, whatever has been loaded since. -/
theorem castType_load {s : Scene} {path : Path} {type : String} {line : Nat} {ds : List Deposit}
    (h : (s.load (.castType path type line :: ds)).2 = none) :
    ((s.load (.castType path type line :: ds)).1.root.labelAt path).castType = some type := by
  cases hr : (Deposit.castType path type line).refusal? (s.root.labelAt path) with
  | some e =>
    rw [load_cons_of_some hr] at h
    cases h
  | none =>
    rw [load_cons_of_none hr]
    refine (extends_labelAt_load _ ds path).2 type ?_
    have := Deposit.labelAt_modifyAt (.castType path type line) s.root path
    rw [if_pos (show (Deposit.castType path type line).path = path from rfl)] at this
    rw [modifyAt, this]
    rfl

/-- A second type for a cast is refused exactly when it is spelled with other lexemes. -/
theorem load_castTypes {L M : List Lexeme} {type type' : String}
    (hspelled : Spelled castType Closed L type) (hspelled' : Spelled castType Closed M type')
    {s : Scene} {path : Path} {line line' : Nat} {between : List Deposit}
    (hload : (s.load (.castType path type line :: between)).2 = none) :
    (s.load (.castType path type line :: between ++ [.castType path type' line'])).2 =
      if L = M then none else some ⟨line', .conflictingCastTypes type type'⟩ := by
  have hlabel := castType_load hload
  rw [load_append hload]
  by_cases hsame : type = type'
  · rw [if_pos ((hspelled.eq_iff hspelled').1 hsame), load_cons_of_none]
    · rfl
    · exact Deposit.refusal?_castType_eq_none_iff.2 fun existing he => by
        rw [Deposit.path, hlabel, Option.mem_some_iff] at he
        rw [← he, hsame]
  · rw [if_neg fun hLM => hsame ((hspelled.eq_iff hspelled').2 hLM), load_cons_of_some]
    rw [Deposit.path, Deposit.refusal?, hlabel]
    exact if_neg hsame

/-- **Cast types have one canonical spelling.** What is read as a type are the lexemes of its
spelling, and the spelling is read as a whole, as itself. So a second type for a cast is refused,
wherever and however it is written, exactly when it is another sequence of lexemes. -/
theorem castType_canonical {ts rest : List Token} {type : String} (hts : ProperTokens ts)
    (h : castType ts = .ok (type, rest)) :
    ∃ used, ts = used ++ rest ∧
      (∃ t, tokenize type = .ok t ∧ t.tokens.map (·.lexeme) = used.map (·.lexeme) ∧
        castType t.tokens = .ok (type, [])) ∧
      ∀ (used' rest' : List Token) (type' : String), ProperTokens (used' ++ rest') →
        castType (used' ++ rest') = .ok (type', rest') →
        ∀ (s : Scene) (path : Path) (st st' : State) (line line' : Nat) (between : List Deposit),
          (s.load ((castTypeStep st path line ts).deposits ++ between)).2 = none →
          (s.load ((castTypeStep st path line ts).deposits ++ between ++
              (castTypeStep st' path line' (used' ++ rest')).deposits)).2 =
            if used.map (·.lexeme) = used'.map (·.lexeme) then none
            else some ⟨line', .conflictingCastTypes type type'⟩ := by
  obtain ⟨w, L, htakes, hspelled⟩ := castType_spelled hts h
  obtain ⟨used, rfl, hL⟩ := id htakes
  refine ⟨used, rfl, hL ▸ hspelled.tokenize, ?_⟩
  intro used' rest' type' hts' h' s path st st' line line' between hload
  obtain ⟨w', M, htakes', hspelled'⟩ := castType_spelled hts' h'
  have hdeposits {st : State} {line : Nat} {ts rest : List Token} {type : String}
      (h : castType ts = .ok (type, rest)) :
      (castTypeStep st path line ts).deposits = [.castType path type line] := by
    rw [castTypeStep, h]
  rw [hdeposits h, List.singleton_append] at hload
  rw [hdeposits h, hdeposits h', List.singleton_append, hL, htakes'.map_eq rfl]
  exact load_castTypes hspelled hspelled' hload

/-- A type that is spread over lines, and after it the same type without its bound. -/
theorem castType_canonical_spread :
    let spread : List Token := [⟨.word "List", 1⟩, ⟨.symbol '<', 1⟩, ⟨.symbol '?', 2⟩,
      ⟨.word "extends", 3⟩, ⟨.word "T", 3⟩, ⟨.symbol '>', 3⟩, ⟨.symbol '[', 3⟩, ⟨.symbol ']', 4⟩]
    let plain : List Token := [⟨.word "List", 1⟩, ⟨.symbol '<', 1⟩, ⟨.symbol '?', 1⟩,
      ⟨.symbol '>', 1⟩, ⟨.symbol '[', 1⟩, ⟨.symbol ']', 1⟩]
    tokenize "List<\n? // any\n extends T>[\n]" = .ok ⟨spread, 4⟩ ∧
      tokenize "List < ? > []" = .ok ⟨plain, 1⟩ ∧
      castType spread = .ok ("List<? extends T>[]", []) ∧ castType plain = .ok ("List<?>[]", []) ∧
      (empty.load ((castTypeStep .start [] 1 spread).deposits ++ [] ++
        (castTypeStep .start [] 7 plain).deposits)).2 =
          some ⟨7, .conflictingCastTypes "List<? extends T>[]" "List<?>[]"⟩ := by
  intro spread plain
  have hspread : tokenize "List<\n? // any\n extends T>[\n]" = .ok ⟨spread, 4⟩ := by
    decide +kernel
  have hplain : tokenize "List < ? > []" = .ok ⟨plain, 1⟩ := by decide +kernel
  have hbounded : castType spread = .ok ("List<? extends T>[]", []) := by with_unfolding_all rfl
  have hfree : castType (plain ++ []) = .ok ("List<?>[]", []) := by with_unfolding_all rfl
  obtain ⟨used, hused, -, hconflict⟩ := castType_canonical (Lexer.tokens_proper hspread) hbounded
  rw [List.append_nil] at hused
  have := hconflict plain [] "List<?>[]" (Lexer.tokens_proper hplain) hfree
    empty [] .start .start 1 7 [] (by with_unfolding_all rfl)
  rw [← hused, if_neg (by decide)] at this
  exact ⟨hspread, hplain, hbounded, hfree, this⟩

/-! ## Two types for a cast in one text -/

/-- **A text with two types for one cast** is refused at the second type when the types are
different sequences of lexemes, and otherwise not. -/
theorem read_castTypes (s : Scene) {text : String} {t : TokenizedText} {w w' type type' : String}
    {line line' : Nat} {pre used mid used' post : List Token} {path : Path} {st st' : State}
    {before between : List Deposit} (htext : tokenize text = .ok t)
    (ht : t.tokens =
      pre ++ (⟨.word w, line⟩ :: used ++ (mid ++ (⟨.word w', line'⟩ :: used' ++ post))))
    -- the first type comes next in the first state, the second one in the second state
    (hbefore : Runs .start t.tokens before st
      (⟨.word w, line⟩ :: used ++ (mid ++ (⟨.word w', line'⟩ :: used' ++ post))))
    (hat : st.target = some ⟨path, true⟩) (hw : isKeyword w = false)
    (hfirst : castType (⟨.word w, line⟩ :: used ++ (mid ++ (⟨.word w', line'⟩ :: used' ++ post))) =
      .ok (type, mid ++ (⟨.word w', line'⟩ :: used' ++ post)))
    (hbetween : Runs { st with target := none } (mid ++ (⟨.word w', line'⟩ :: used' ++ post))
      between st' (⟨.word w', line'⟩ :: used' ++ post))
    (hat' : st'.target = some ⟨path, true⟩) (hw' : isKeyword w' = false)
    (hsecond : castType (⟨.word w', line'⟩ :: used' ++ post) = .ok (type', post))
    (hload : (s.load (before ++ .castType path type line :: between)).2 = none) :
    ∃ after, (depositsOf text).1 =
        before ++ .castType path type line :: between ++ .castType path type' line' :: after ∧
      (s.load (before ++ .castType path type line :: between ++ [.castType path type' line'])).2 =
        (if .word w :: used.map (·.lexeme) = .word w' :: used'.map (·.lexeme) then none
          else some ⟨line', .conflictingCastTypes type type'⟩) ∧
      (.word w :: used.map (·.lexeme) ≠ .word w' :: used'.map (·.lexeme) →
        (s.read text).2 = some ⟨line', .conflictingCastTypes type type'⟩) := by
  have hproper : ProperTokens t.tokens := Lexer.tokens_proper htext
  rw [ht] at hproper
  have hfirstProper := fun u hu => hproper u (List.mem_append_right _ hu)
  have hsecondProper := fun u hu =>
    hfirstProper u (List.mem_append_right _ (List.mem_append_right _ hu))
  obtain ⟨v, L, htakes, hspelled⟩ := castType_spelled hfirstProper hfirst
  obtain ⟨v', M, htakes', hspelled'⟩ := castType_spelled hsecondProper hsecond
  -- the run up to the second type, with the deposits of both types
  have hruns : Runs .start t.tokens (before ++ .castType path type line :: between ++
      [.castType path type' line']) { st' with target := none } post := by
    have := (hbefore.trans (runs_of_castType hat hw hfirst)).trans
      (hbetween.trans (runs_of_castType hat' hw' hsecond))
    simpa using this
  have hdeposits : (depositsOf text).1 = before ++ .castType path type line :: between ++
      .castType path type' line' :: (run { st' with target := none } post).1 := by
    rw [depositsOf, htext]
    rw [Runs] at hruns
    simp [hruns]
  have hstart : (s.load before).2 = none := by
    cases h : (s.load before).2 with
    | none => rfl
    | some e =>
      rw [load_append_of_some h, h] at hload
      cases hload
  have hsecondLoad : (s.load (before ++ .castType path type line :: between ++
      [.castType path type' line'])).2 =
        if .word w :: used.map (·.lexeme) = .word w' :: used'.map (·.lexeme) then none
        else some ⟨line', .conflictingCastTypes type type'⟩ := by
    rw [load_append hstart] at hload
    have hL := htakes.map_eq rfl
    have hM := htakes'.map_eq rfl
    rw [List.map_cons] at hL hM
    rw [List.append_assoc, load_append hstart, hL, hM]
    exact load_castTypes hspelled hspelled' hload
  refine ⟨_, hdeposits, hsecondLoad, fun hne => ?_⟩
  rw [if_neg hne] at hsecondLoad
  have hrefused : (s.load (depositsOf text).1).2 =
      some ⟨line', .conflictingCastTypes type type'⟩ := by
    rw [hdeposits, List.append_cons, load_append_of_some hsecondLoad, hsecondLoad]
  rw [read]
  rcases hl : s.load (depositsOf text).1 with ⟨s', refused⟩
  rw [hl] at hrefused
  simp only at hrefused
  simp only [hl, hrefused]

example : (empty.read ("package: class C: insert-typecast Block.statement 0: List<T>\n" ++
    "insert-typecast Block.statement 0: List < T\n> insert-typecast Block.statement 0: List")).2 =
      some ⟨3, .conflictingCastTypes "List<T>" "List"⟩ := by
  decide +kernel

end Scene

end AnnotationIndex
