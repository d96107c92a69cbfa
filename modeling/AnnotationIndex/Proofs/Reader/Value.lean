import AnnotationIndex.Proofs.Numeral.Decimal
import AnnotationIndex.Proofs.Reader.Basic
import AnnotationIndex.Proofs.Text.Escape
import AnnotationIndex.Annotation.Printer
import AnnotationIndex.Reader.Value

/-!
# Basic values and class tokens are read back

The text of a value of a basic kind is read as that value (`Reader.shows_basicValue`), which for
numbers with a point rests on `Floating.ofText?_text`. The text of a class token is read as the name
of the class (`Reader.shows_classToken`).
-/

namespace AnnotationIndex.Reader

open Text Numeral

/-! ## Floating-point numbers -/

/-- A text that ends with a digit has no mark of a width. -/
theorem dropWidthMark_of_isDigit {cs : List Char} (h : ∀ c ∈ cs.getLast?, c.isDigit = true) :
    dropWidthMark cs = cs := by
  rw [dropWidthMark]
  split
  · rfl
  · next mark hm =>
    have hd := h mark hm
    rw [if_neg]
    rintro (rfl | rfl | rfl | rfl) <;> exact absurd hd (by decide)

/-- The digits of a finite value with the sign before them. -/
def signed (negative : Bool) (digits : List Char) : List Char :=
  if negative then '-' :: digits else digits

/-- Digits are a word. -/
theorem isWord_ofList_digits {digits : List Char} (hne : digits ≠ [])
    (hd : ∀ c ∈ digits, c.isDigit = true) : IsWord (String.ofList digits) where
  nonempty := by simpa using hne
  chars c hc := isWordChar_of_isDigit (hd c (by simpa using hc))

/-- Digits with a sign are a word. -/
theorem isWord_signed {digits : List Char} (hne : digits ≠ []) (hd : ∀ c ∈ digits, c.isDigit = true)
    (negative : Bool) : IsWord (String.ofList (signed negative digits)) := by
  cases negative with
  | false => exact isWord_ofList_digits hne hd
  | true =>
    refine ⟨by simp [signed], fun c hc => ?_⟩
    rw [String.toList_ofList, signed, if_pos rfl] at hc
    rcases List.mem_cons.1 hc with rfl | hc
    · decide
    · exact isWordChar_of_isDigit (hd c hc)

/-- Digits with a sign end with a digit. -/
theorem getLast?_signed {digits : List Char} (hne : digits ≠ [])
    (hd : ∀ c ∈ digits, c.isDigit = true) (negative : Bool) :
    ∀ c ∈ (signed negative digits).getLast?, c.isDigit = true := by
  intro c hc
  cases negative with
  | false => exact hd c (List.mem_of_mem_getLast? hc)
  | true =>
    rw [signed, if_pos rfl, List.getLast?_cons_of_ne_nil hne] at hc
    exact hd c (List.mem_of_mem_getLast? hc)

/-- The sign is in front of what comes first. -/
theorem signed_append (negative : Bool) (xs ys : List Char) :
    signed negative (xs ++ ys) = signed negative xs ++ ys := by
  cases negative <;> rfl

/-- A word that no point follows is the whole spelling of a number. -/
theorem floatingSpelling_word {w : String} (hw : w ≠ "") {line : Nat} {rest : List Token}
    (hrest : NoPoint rest) : floatingSpelling (⟨.word w, line⟩ :: rest) = .ok (w, rest) := by
  have hrest : acceptSymbol '.' rest = none := hrest
  rw [floatingSpelling, floatingSpelling.afterWhole, hrest]
  simp [hw]

/-- The text of a number starts with a word, is read as a spelling of a number, and loses nothing
when a mark of its width is looked for. -/
theorem reads_floating {w : Width} (x : Floating w) :
    (∃ v L, Scans x.text.toList (.word v :: L) ∧
      Reads floatingSpelling NoPoint (.word v :: L) x.text) ∧
      dropWidthMark x.text.toList = x.text.toList := by
  have single {v : String} (hv : IsWord v) : ∃ u L, Scans v.toList (.word u :: L) ∧
      Reads floatingSpelling NoPoint (.word u :: L) v := by
    refine ⟨v, [], hv.scans, fun line rest hrest => floatingSpelling_word ?_ hrest⟩
    rintro rfl
    exact hv.nonempty rfl
  cases x with
  | nan =>
    rw [show (Floating.nan : Floating w).text = "NaN" from rfl]
    exact ⟨single (by decide), by decide⟩
  | infinite negative =>
    cases negative
    · rw [show (Floating.infinite false : Floating w).text = "inf" from rfl]
      exact ⟨single (by decide), by decide⟩
    · rw [show (Floating.infinite true : Floating w).text = "-inf" from rfl]
      exact ⟨single (by decide), by decide⟩
  | finite negative m e hc =>
    obtain ⟨whole, fraction, hne, hw, hf, htext⟩ := Floating.magnitudeText_eq w negative m e
    have htext : (Floating.finite negative m e hc : Floating w).text =
        String.ofList
          (signed negative (if fraction = [] then whole else whole ++ '.' :: fraction)) :=
      congrArg (fun ds => String.ofList (signed negative ds)) htext
    have hwhole := isWord_signed hne hw negative
    by_cases hfraction : fraction = []
    · rw [htext, if_pos hfraction]
      refine ⟨single hwhole, ?_⟩
      rw [String.toList_ofList]
      exact dropWidthMark_of_isDigit (getLast?_signed hne hw negative)
    · rw [htext, if_neg hfraction, signed_append, String.toList_ofList]
      have hword := isWord_ofList_digits hfraction hf
      refine ⟨⟨String.ofList (signed negative whole), [.symbol '.', .word (String.ofList fraction)],
        ?_, fun line rest _ => ?_⟩, dropWidthMark_of_isDigit fun c hc => ?_⟩
      · have := hwhole.scans.append_symbol (isSymbol_of_mem (c := '.') (by decide)) hword.scans
        simpa using this
      · have : String.ofList (signed negative whole ++ '.' :: fraction) =
            String.ofList (signed negative whole) ++ "." ++ String.ofList fraction := by
          apply String.toList_injective
          simp
        rw [this]
        simp [floatingSpelling, floatingSpelling.afterWhole]
      · rw [List.getLast?_append_of_ne_nil _ (by simp),
          List.getLast?_cons_of_ne_nil hfraction] at hc
        exact hf c (List.mem_of_mem_getLast? hc)

/-! ## Basic values -/

/-- The text shows the result, and no closing brace begins it: it can be an element of an array. -/
def ShowsElement {α : Type} (r : List Token → Read α) (stop : List Token → Prop) (text : String)
    (x : α) : Prop :=
  ∃ l L, Scans text.toList (l :: L) ∧ l ≠ .symbol '\x7d' ∧ Reads r stop (l :: L) x

/-- A word that is read as a result shows it, also as an element. -/
theorem shows_word {α : Type} {r : List Token → Read α} {w : String} {x : α} (hw : IsWord w)
    (hr : ∀ line rest, Closed rest → r (⟨.word w, line⟩ :: rest) = .ok (x, rest)) :
    ShowsElement r Closed w x :=
  ⟨.word w, [], hw.scans, by simp, hr⟩

/-- **A written value of a basic kind is read back.** -/
theorem shows_basicValue {kind : BasicKind} {v : Value} (h : kind.accepts v = true) :
    ShowsElement (basicValue kind) Closed v.text v := by
  cases kind <;> cases v <;> simp only [BasicKind.accepts, Bool.false_eq_true,
    decide_eq_true_eq] at h
  case boolean b =>
    cases b
    · exact shows_word (w := "false") (by decide) fun line rest _ => by
        simp [basicValue, accept_of_ne]
    · exact shows_word (w := "true") (by decide) fun line rest _ => by simp [basicValue]
  case integer n =>
    subst h
    rw [Value.text]
    exact shows_word (isWord_integerText n.val) fun line rest _ => by
      simp [basicValue, inRange?_integerText]
  case char c =>
    exact ⟨.char c, [], by simpa [Value.text] using scans_char c, by simp, fun _ _ _ => rfl⟩
  case floating x =>
    subst h
    obtain ⟨⟨u, L, hs, hr⟩, hmark⟩ := reads_floating x
    refine ⟨.word u, L, hs, by simp, fun line rest hrest => ?_⟩
    rw [basicValue, hr line rest hrest.noPoint]
    simp only [hmark, Floating.ofText?_text]
  case string t =>
    exact ⟨.string t, [], by simpa [Value.text] using scans_string t, by simp, fun _ _ _ => rfl⟩

/-- The spelling of a number is read from the tokens of a text. -/
theorem yields_floatingSpelling : Yields floatingSpelling fun _ => True := by
  have after {whole w : String} {ts rest : List Token} (hts : ProperTokens ts)
      (h : floatingSpelling.afterWhole whole ts = .ok (w, rest)) : ProperTokens rest := by
    unfold floatingSpelling.afterWhole at h
    split at h
    · next ha =>
      cases h
      exact (proper_of_accept hts ha).tail
    · next ha =>
      cases h
      exact proper_of_accept hts ha
    · split at h
      · cases h
      · cases h
        exact hts
  intro ts w rest hts h
  unfold floatingSpelling at h
  split at h
  · exact ⟨trivial, after hts.tail h⟩
  · exact ⟨trivial, after hts h⟩

/-- What is read as a basic value is accepted by its type. -/
theorem yields_basicValue (kind : BasicKind) :
    Yields (basicValue kind) fun v => kind.accepts v = true := by
  intro ts v rest hts h
  unfold basicValue at h
  split at h
  · split at h
    · next ha =>
      cases h
      exact ⟨rfl, proper_of_accept hts ha⟩
    · split at h
      · next ha =>
        cases h
        exact ⟨rfl, proper_of_accept hts ha⟩
      · cases h
  · split at h
    · cases h
      exact ⟨rfl, hts.tail⟩
    · cases h
  · split at h
    · cases h
      exact ⟨rfl, hts.tail⟩
    · cases h
  · split at h
    · split at h
      · cases h
        exact ⟨by simp [BasicKind.accepts], hts.tail⟩
      · cases h
    · cases h
  · split at h
    · cases h
    next hs =>
    simp only at h
    split at h
    · cases h
      exact ⟨by simp [BasicKind.accepts], (yields_floatingSpelling hts hs).2⟩
    · cases h

/-! ## Class tokens -/

/-- The name in a class token: words with points between them and pairs of brackets after them. Only
the first word can be `class`. -/
def IsClassName (n : String) : Prop :=
  ∃ w ws k, IsIdentifier w ∧ (∀ v ∈ ws, IsIdentifier v ∧ v ≠ "class") ∧
    n = bracketed (dotted w ws) k

/-- The parts of a class literal end before the point and the word at its end. -/
theorem classParts_none {name : String} {ts : List Token}
    (h : ∀ more, acceptSymbol '.' ts = some more → word? more = some "class") :
    classParts name ts = .ok (name, ts) := by
  rw [classParts_eq]
  cases ha : acceptSymbol '.' ts with
  | none => rfl
  | some more => exact if_pos (h more ha)

/-- A word behind a point, other than the last one, is a part of a class literal. -/
theorem classParts_some {name w : String} {ts more rest : List Token}
    (h : acceptSymbol '.' ts = some more) (hw : identifier more = .ok (w, rest))
    (hc : w ≠ "class") : classParts name ts = classParts (name ++ "." ++ w) rest := by
  rw [classParts_eq name ts]
  simp only [h, hw]
  rw [if_neg (by simpa [word?_of_identifier hw] using hc)]

/-- The parts of a class literal are read up to the point and the word at its end. -/
theorem classParts_dotted {ws : List String} (hws : ∀ v ∈ ws, IsIdentifier v ∧ v ≠ "class")
    (n : String) (line : Nat) {rest : List Token}
    (hrest : ∀ more, acceptSymbol '.' rest = some more → word? more = some "class") :
    classParts n (tokensOn line (dottedLexemes ws) ++ rest) = .ok (dotted n ws, rest) := by
  induction ws generalizing n with
  | nil => exact classParts_none hrest
  | cons v ws ih =>
    obtain ⟨⟨hv, hc⟩, hws⟩ := List.forall_mem_cons.1 hws
    exact (classParts_some (accept_self _ _ _) (identifier_self hv _ _) hc).trans (ih hws _)

/-- **A written class token is read back.** -/
theorem shows_classToken {n : String} (h : IsClassName n) :
    ShowsElement classToken Closed (n ++ ".class") n := by
  obtain ⟨w, ws, k, hw, hws, rfl⟩ := h
  have hname := scans_bracketed (scans_dotted hw.scans fun v hv => (hws v hv).1.toIsWord) k
  have hclass : IsWord "class" := by decide
  refine ⟨.word w, dottedLexemes ws ++ bracketLexemes k ++ [.symbol '.', .word "class"], ?_,
    by simp, fun line rest _ => ?_⟩
  · have := hname.append_symbol (isSymbol_of_mem (c := '.') (by decide)) hclass.scans
    simpa using this
  · have hend : ∀ more, acceptSymbol '.' (tokensOn line (bracketLexemes k) ++
        ⟨.symbol '.', line⟩ :: ⟨.word "class", line⟩ :: rest) = some more →
        word? more = some "class" := by
      intro more hmore
      cases k with
      | zero =>
        simp only [bracketLexemes, tokensOn_nil, List.nil_append, accept_self,
          Option.some.injEq] at hmore
        rw [← hmore]
        rfl
      | succ k => cases hmore
    have hparts := classParts_dotted hws w line hend
    have hopen : acceptSymbol '[' (⟨.symbol '.', line⟩ :: ⟨.word "class", line⟩ :: rest) = none :=
      accept_of_ne (by simp) _ _
    have hbrackets := brackets_bracketed (dotted w ws) k line hopen
    simp only [tokensOn_append, tokensOn_cons, tokensOn_nil, List.cons_append, List.nil_append,
      List.append_assoc, classToken, identifier_self hw, hparts, hbrackets, expectSymbol_self,
      expectWord_self]

/-- The parts of a class literal that are read are words behind points. -/
theorem classParts_yields {n m : String} {ts rest : List Token} (hts : ProperTokens ts)
    (h : classParts n ts = .ok (m, rest)) :
    (∃ ws, (∀ v ∈ ws, IsIdentifier v ∧ v ≠ "class") ∧ m = dotted n ws) ∧ ProperTokens rest := by
  fun_induction classParts n ts with
  | case1 =>
    cases h
    exact ⟨⟨[], by simp, rfl⟩, hts⟩
  | case2 =>
    cases h
    exact ⟨⟨[], by simp, rfl⟩, hts⟩
  | case3 => cases h
  | case4 _ _ _ ha hc _ _ hi ih =>
    obtain ⟨hw, hrest⟩ := yields_identifier (proper_of_accept hts ha) hi
    obtain ⟨⟨ws, hws, rfl⟩, hleft⟩ := ih hrest h
    have hne := hc
    rw [word?_of_identifier hi, Option.some.injEq] at hne
    exact ⟨⟨_ :: ws, List.forall_mem_cons.2 ⟨⟨hw, hne⟩, hws⟩, rfl⟩, hleft⟩

/-- What is read as a class literal is the name of a class. -/
theorem yields_classToken : Yields classToken IsClassName := by
  intro ts n rest hts h
  rw [classToken] at h
  split at h
  · cases h
  next hi =>
  obtain ⟨hw, hts⟩ := yields_identifier hts hi
  split at h
  · cases h
  next hparts =>
  obtain ⟨⟨ws, hws, rfl⟩, hts⟩ := classParts_yields hts hparts
  split at h
  · cases h
  next hbrackets =>
  obtain ⟨⟨k, rfl⟩, hts⟩ := brackets_yields hts hbrackets
  split at h
  · cases h
  next hpoint =>
  split at h
  · cases h
  next hclass =>
  cases h
  exact ⟨⟨_, ws, k, hw, hws, rfl⟩, proper_of_expectWord (proper_of_expectSymbol hts hpoint) hclass⟩

end AnnotationIndex.Reader
