import AnnotationIndex.Proofs.Reader.Basic
import AnnotationIndex.Reader.CastType
import AnnotationIndex.Section

/-!
# Cast types are read back

What is read as a type are the lexemes of its spelling, and the spelling is read again as itself
(`Reader.castType_spelled`). So each type has one spelling, from its first word on.
-/

namespace AnnotationIndex.Reader

open Text

/-! ## What the readers do, case by case -/

/-- A type without arguments is a name and brackets. -/
theorem castType_plain {ts rest : List Token} {name : String}
    (h : qualifiedName ts = .ok (name, rest)) (ha : acceptSymbol '<' rest = none) :
    castType ts = brackets name rest := by
  rw [castType_eq]
  simp only [h, ha]

/-- A type with arguments has these between the name and the brackets. -/
theorem castType_generic {ts rest more left : List Token} {name arguments : String}
    (h : qualifiedName ts = .ok (name, rest)) (ha : acceptSymbol '<' rest = some more)
    (hr : typeArguments more = .ok (arguments, ⟨.symbol '>', line⟩ :: left)) :
    castType ts = brackets (name ++ "<" ++ arguments ++ ">") left := by
  rw [castType_eq]
  simp only [h, ha, hr, expectSymbol_self]

/-- What comes next ends a type argument. -/
def EndsArgument (rest : List Token) : Prop := Before ',' rest ∨ Before '>' rest

/-- What ends a type argument does not go on with a type. -/
theorem EndsArgument.closed {rest : List Token} (h : EndsArgument rest) : Closed rest := by
  rcases h with h | h
  · exact h.closed (by decide)
  · exact h.closed (by decide)

/-- What ends a type argument is no word. -/
theorem EndsArgument.acceptWord {rest : List Token} (h : EndsArgument rest) (w : String) :
    acceptWord w rest = none := by
  rcases h with ⟨line, ts, rfl⟩ | ⟨line, ts, rfl⟩ <;> exact accept_of_ne (by simp) line ts

/-- A type argument that starts with no question mark is a type. -/
theorem typeArgument_type {ts : List Token} (h : acceptSymbol '?' ts = none) :
    typeArgument ts = castType ts := by
  rw [typeArgument_eq, h]

/-- A wildcard with an upper bound is the question mark, a word and the bound. -/
theorem typeArgument_extends {ts rest more left : List Token} {type : String}
    (h : acceptSymbol '?' ts = some rest) (he : acceptWord "extends" rest = some more)
    (ht : castType more = .ok (type, left)) :
    typeArgument ts = .ok ("? extends " ++ type, left) := by
  rw [typeArgument_eq]
  simp only [h, he, ht]

/-- A wildcard with a lower bound is the question mark, a word and the bound. -/
theorem typeArgument_super {ts rest more left : List Token} {type : String}
    (h : acceptSymbol '?' ts = some rest) (he : acceptWord "extends" rest = none)
    (hs : acceptWord "super" rest = some more) (ht : castType more = .ok (type, left)) :
    typeArgument ts = .ok ("? super " ++ type, left) := by
  rw [typeArgument_eq]
  simp only [h, he, hs, ht]

/-- A wildcard without a bound is the question mark. -/
theorem typeArgument_wildcard {ts rest : List Token} (h : acceptSymbol '?' ts = some rest)
    (he : acceptWord "extends" rest = none) (hs : acceptWord "super" rest = none) :
    typeArgument ts = .ok ("?", rest) := by
  rw [typeArgument_eq]
  simp only [h, he, hs]

/-- A type argument that no comma follows is the last one. -/
theorem typeArguments_last {ts rest : List Token} {argument : String}
    (h : typeArgument ts = .ok (argument, rest)) (ha : acceptSymbol ',' rest = none) :
    typeArguments ts = .ok (argument, rest) := by
  rw [typeArguments]
  simp [h, ha]

/-- Behind a comma come further type arguments. -/
theorem typeArguments_more {ts rest more left : List Token} {argument arguments : String}
    (h : typeArgument ts = .ok (argument, rest)) (ha : acceptSymbol ',' rest = some more)
    (hr : typeArguments more = .ok (arguments, left)) :
    typeArguments ts = .ok (argument ++ ", " ++ arguments, left) := by
  have := typeArgument_shorter h
  have := accept_length ha
  rw [typeArguments]
  simp only [h, ha, hr]
  rw [if_pos (by omega)]

/-! ## Reading again -/

/-- The lexemes make up the text, and the reader reads them as the text. -/
def Spelled (r : List Token → Read String) (stop : List Token → Prop) (L : List Lexeme)
    (text : String) : Prop :=
  Scans text.toList L ∧ Reads r stop L text

/-- The spelling starts with the word and is read as itself. -/
def Respells (w type : String) : Prop :=
  ∃ L, Scans type.toList (.word w :: L) ∧ Reads castType Closed (.word w :: L) type

/-- A name with brackets is spelled as it is read. -/
theorem spelled_plain {w : String} {ws : List String} (hw : IsIdentifier w)
    (hws : ∀ v ∈ ws, IsIdentifier v) (n : Nat) :
    Spelled castType Closed (.word w :: dottedLexemes ws ++ bracketLexemes n)
      (bracketed (dotted w ws) n) := by
  obtain ⟨hs, hr⟩ := reads_dotted hw hws
  refine ⟨scans_bracketed hs n, fun line rest hrest => ?_⟩
  have hname := hr line (tokensOn line (bracketLexemes n) ++ rest)
    (acceptSymbol_bracketLexemes (by decide) n line hrest.noPoint)
  rw [tokensOn_append, List.append_assoc, castType_plain hname
    (acceptSymbol_bracketLexemes (by decide) n line (hrest '<' (by simp)))]
  exact brackets_bracketed _ n line (hrest '[' (by simp))

/-- A name with type arguments and brackets is spelled as it is read. -/
theorem spelled_generic {w : String} {ws : List String} {L : List Lexeme} {arguments : String}
    (hw : IsIdentifier w) (hws : ∀ v ∈ ws, IsIdentifier v)
    (ha : Spelled typeArguments (Before '>') L arguments) (n : Nat) :
    Spelled castType Closed
      (.word w :: dottedLexemes ws ++ [.symbol '<'] ++ L ++ [.symbol '>'] ++ bracketLexemes n)
      (bracketed (dotted w ws ++ "<" ++ arguments ++ ">") n) := by
  obtain ⟨hs, hr⟩ := reads_dotted hw hws
  obtain ⟨hL, har⟩ := ha
  have htext : Scans (dotted w ws ++ "<" ++ arguments ++ ">").toList
      (.word w :: dottedLexemes ws ++ [.symbol '<'] ++ L ++ [.symbol '>']) := by
    have := (hs.append_symbol (isSymbol_of_mem (c := '<') (by decide)) hL).append_symbol
      (isSymbol_of_mem (c := '>') (by decide)) .nil
    simpa using this
  refine ⟨scans_bracketed htext n, fun line rest hrest => ?_⟩
  have harguments := har line
    (⟨.symbol '>', line⟩ :: (tokensOn line (bracketLexemes n) ++ rest)) ⟨line, _, rfl⟩
  have hname := hr line (⟨.symbol '<', line⟩ :: (tokensOn line L ++
    ⟨.symbol '>', line⟩ :: (tokensOn line (bracketLexemes n) ++ rest))) (accept_of_ne (by simp) _ _)
  have := castType_generic hname (accept_self _ _ _) harguments
  rw [brackets_bracketed _ n line (hrest '[' (by simp))] at this
  simpa using this

/-- A wildcard without a bound is spelled as it is read. -/
theorem spelled_wildcard : Spelled typeArgument EndsArgument [.symbol '?'] "?" := by
  refine ⟨?_, fun line rest hrest =>
    typeArgument_wildcard (accept_self _ _ _) (hrest.acceptWord _) (hrest.acceptWord _)⟩
  simpa using Scans.nil.cons_symbol (c := '?') (by decide) (by decide)

/-- A type with the word for a bound before it is read as a wildcard. -/
theorem spelled_wildcard_bound {w : String} {L : List Lexeme} {type : String}
    (h : Spelled castType Closed (.word w :: L) type) :
    Spelled typeArgument EndsArgument (.symbol '?' :: .word "extends" :: .word w :: L)
        ("? extends " ++ type) ∧
      Spelled typeArgument EndsArgument (.symbol '?' :: .word "super" :: .word w :: L)
        ("? super " ++ type) := by
  obtain ⟨hs, hr⟩ := h
  have hspelled (bound : String) (hb : IsWord bound) : Scans ("? " ++ bound ++ " " ++ type).toList
      (.symbol '?' :: .word bound :: .word w :: L) := by
    have := ((hb.scans.append_space hs).cons_space).cons_symbol (c := '?') (by decide) (by decide)
    simpa using this
  constructor
  · refine ⟨by simpa using hspelled "extends" (by decide), fun line rest hrest => ?_⟩
    exact typeArgument_extends (accept_self _ _ _) (accept_self _ _ _)
      (hr line rest hrest.closed)
  · refine ⟨by simpa using hspelled "super" (by decide), fun line rest hrest => ?_⟩
    exact typeArgument_super (accept_self _ _ _) (accept_of_ne (by decide) _ _)
      (accept_self _ _ _) (hr line rest hrest.closed)

/-- A type is spelled as a type argument as it is on its own. -/
theorem spelled_typeArgument {w : String} {L : List Lexeme} {type : String}
    (h : Spelled castType Closed (.word w :: L) type) :
    Spelled typeArgument EndsArgument (.word w :: L) type := by
  obtain ⟨hs, hr⟩ := h
  refine ⟨hs, fun line rest hrest => ?_⟩
  rw [tokensOn_cons, List.cons_append, typeArgument_type (accept_of_ne (by simp) _ _)]
  exact hr line rest hrest.closed

/-- One type argument is spelled as a list of such. -/
theorem spelled_typeArguments_last {L : List Lexeme} {argument : String}
    (h : Spelled typeArgument EndsArgument L argument) :
    Spelled typeArguments (Before '>') L argument := by
  obtain ⟨hs, hr⟩ := h
  refine ⟨hs, fun line rest hrest => ?_⟩
  exact typeArguments_last (hr line rest (.inr hrest)) (hrest.accept (by decide))

/-- Further type arguments are spelled behind a comma. -/
theorem spelled_typeArguments_more {L M : List Lexeme} {argument arguments : String}
    (h : Spelled typeArgument EndsArgument L argument)
    (hm : Spelled typeArguments (Before '>') M arguments) :
    Spelled typeArguments (Before '>') (L ++ [.symbol ','] ++ M)
      (argument ++ ", " ++ arguments) := by
  obtain ⟨hs, hr⟩ := h
  obtain ⟨hms, hmr⟩ := hm
  refine ⟨?_, fun line rest hrest => ?_⟩
  · have := hs.append_symbol (isSymbol_of_mem (c := ',') (by decide)) hms.cons_space
    simpa using this
  · have hfirst := hr line (⟨.symbol ',', line⟩ :: (tokensOn line M ++ rest))
      (.inl (before_self _ _ _))
    rw [List.append_assoc, tokensOn_append, List.append_assoc]
    exact typeArguments_more hfirst (accept_self _ _ _) (hmr line rest hrest)

mutual

/-- What is read as a type are the lexemes of its spelling, and these are read again as it. -/
theorem castType_spelled {ts rest : List Token} {type : String} (hts : ProperTokens ts)
    (h : castType ts = .ok (type, rest)) :
    ∃ w L, Takes ts rest (.word w :: L) ∧ Spelled castType Closed (.word w :: L) type := by
  unfold castType at h
  split at h
  · cases h
  next hname =>
  have := qualifiedName_shorter hname
  obtain ⟨w, ws, hw, hws, rfl, htakes⟩ := qualifiedName_takes hname
  obtain ⟨hproper, hrest⟩ := htakes.proper hts
  have hw : IsIdentifier w := ⟨hproper _ List.mem_cons_self, hw⟩
  have hws : ∀ v ∈ ws, IsIdentifier v := fun v hv => ⟨hproper (.word v)
    (List.mem_cons_of_mem _ (List.mem_flatMap.2 ⟨v, hv, by simp⟩)), hws v hv⟩
  split at h
  · obtain ⟨n, rfl, hbrackets⟩ := brackets_takes h
    exact ⟨w, _, htakes.append hbrackets, spelled_plain hw hws n⟩
  next hopen =>
  have := accept_length hopen
  have hopened := htakes.append (accept_takes hopen)
  split at h
  · cases h
  next harguments =>
  obtain ⟨L, hL, ha⟩ := typeArguments_spelled (hopened.proper hts).2 harguments
  split at h
  · cases h
  next hclose =>
  obtain ⟨n, rfl, hbrackets⟩ := brackets_takes h
  exact ⟨w, _, ((hopened.append hL).append (expectSymbol_takes hclose)).append hbrackets,
    spelled_generic hw hws ha n⟩
termination_by 3 * ts.length

/-- What is read as a type argument are the lexemes of its spelling, and these are read again as
it. -/
theorem typeArgument_spelled {ts rest : List Token} {argument : String} (hts : ProperTokens ts)
    (h : typeArgument ts = .ok (argument, rest)) :
    ∃ L, Takes ts rest L ∧ Spelled typeArgument EndsArgument L argument := by
  unfold typeArgument at h
  split at h
  · obtain ⟨w, L, htakes, hL⟩ := castType_spelled hts h
    exact ⟨_, htakes, spelled_typeArgument hL⟩
  next hmark =>
  have := accept_length hmark
  have hmarked := accept_takes hmark
  split at h
  · next hbound =>
    have := accept_length hbound
    have hbounded := hmarked.append (accept_takes hbound)
    split at h
    · cases h
    next htype =>
    obtain ⟨w, L, htakes, hL⟩ := castType_spelled (hbounded.proper hts).2 htype
    cases h
    exact ⟨_, hbounded.append htakes, (spelled_wildcard_bound hL).1⟩
  split at h
  · next hbound =>
    have := accept_length hbound
    have hbounded := hmarked.append (accept_takes hbound)
    split at h
    · cases h
    next htype =>
    obtain ⟨w, L, htakes, hL⟩ := castType_spelled (hbounded.proper hts).2 htype
    cases h
    exact ⟨_, hbounded.append htakes, (spelled_wildcard_bound hL).2⟩
  · cases h
    exact ⟨_, hmarked, spelled_wildcard⟩
termination_by 3 * ts.length + 1

/-- What is read as type arguments are the lexemes of their spelling, and these are read again as
them. -/
theorem typeArguments_spelled {ts rest : List Token} {arguments : String} (hts : ProperTokens ts)
    (h : typeArguments ts = .ok (arguments, rest)) :
    ∃ L, Takes ts rest L ∧ Spelled typeArguments (Before '>') L arguments := by
  unfold typeArguments at h
  split at h
  · cases h
  next hread =>
  obtain ⟨L, htakes, hL⟩ := typeArgument_spelled hts hread
  split at h
  · cases h
    exact ⟨_, htakes, spelled_typeArguments_last hL⟩
  next hcomma =>
  split at h
  · split at h
    · cases h
    next hread =>
    have hmore := htakes.append (accept_takes hcomma)
    obtain ⟨M, htakes', hM⟩ := typeArguments_spelled (hmore.proper hts).2 hread
    cases h
    exact ⟨_, hmore.append htakes', spelled_typeArguments_more hL hM⟩
  · cases h
    exact ⟨_, htakes, spelled_typeArguments_last hL⟩
termination_by 3 * ts.length + 2

end

/-- The spelling of a type that is read is read again as itself. -/
theorem castType_again {ts rest : List Token} {type : String} (hts : ProperTokens ts)
    (h : castType ts = .ok (type, rest)) :
    (∃ w, word? ts = some w ∧ Respells w type) ∧ ProperTokens rest := by
  obtain ⟨w, L, htakes, hL⟩ := castType_spelled hts h
  exact ⟨⟨w, htakes.word?, L, hL⟩, (htakes.proper hts).2⟩

/-- The type of a cast that an index can have: its first word is no keyword, and its spelling is
read as itself. -/
def IsCastType (type : String) : Prop := ∃ w, isKeyword w = false ∧ Respells w type

end AnnotationIndex.Reader
