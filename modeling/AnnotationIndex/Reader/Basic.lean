import AnnotationIndex.Numeral.Digits
import AnnotationIndex.Token

/-!
# Reading tokens

A reader takes the tokens that are left and gives what it has read with the tokens after that, or
fails. It fails at the first token that is left, or at the end of the text when there is none.

This module has the readers of single tokens and of qualified names. Each takes at least one token
(`accept_length`, `identifier_length` and so on), which bounds the loops of the other readers.
-/

namespace AnnotationIndex

/-- Why reading stops, and the line of the token at which that shows; `none` at the end of the
text. -/
structure Failure where
  line : Option Nat
  cause : Cause

/-- What a reader gives. -/
abbrev Read (α : Type) := Except Failure (α × List Token)

namespace Reader

/-- Fails at the first token that is left. -/
def fail {α : Type} (cause : Cause) (ts : List Token) : Except Failure α :=
  .error ⟨ts.head?.map (·.line), cause⟩

/-- What follows a lexeme; `none` when another one comes first. -/
def accept (l : Lexeme) : List Token → Option (List Token)
  | [] => none
  | t :: rest => if t.lexeme = l then some rest else none

/-- What follows a symbol. -/
abbrev acceptSymbol (c : Char) (ts : List Token) : Option (List Token) := accept (.symbol c) ts

/-- What follows a keyword. -/
abbrev acceptWord (word : String) (ts : List Token) : Option (List Token) := accept (.word word) ts

/-- What follows a symbol that has to come. -/
def expectSymbol (c : Char) (ts : List Token) : Except Failure (List Token) :=
  match acceptSymbol c ts with
  | some rest => .ok rest
  | none => fail (.expected c.toString) ts

/-- What follows a keyword that has to come. -/
def expectWord (word : String) (ts : List Token) : Except Failure (List Token) :=
  match acceptWord word ts with
  | some rest => .ok rest
  | none => fail (.expected word) ts

/-- The word that comes first. -/
def word? : List Token → Option String
  | t :: _ => t.lexeme.word?
  | [] => none

/-- Reads an identifier. -/
def identifier : List Token → Read String
  | ts@(⟨.word w, _⟩ :: rest) =>
    if Text.isIdentifier w then .ok (w, rest) else fail .identifierExpected ts
  | ts => fail .identifierExpected ts

/-- Reads a 32-bit number. -/
def number : List Token → Read UInt32
  | ts@(⟨.word w, _⟩ :: rest) =>
    match Numeral.natural? w with
    | some n => .ok (n, rest)
    | none => fail .naturalExpected ts
  | ts => fail .naturalExpected ts

/-- Reads a number if one comes first. -/
def number? (ts : List Token) : Option UInt32 × List Token :=
  match number ts with
  | .ok (n, rest) => (some n, rest)
  | .error _ => (none, ts)

/-! ## Progress -/

/-- A lexeme that is accepted is one token. -/
theorem accept_length {l : Lexeme} {ts rest : List Token} (h : accept l ts = some rest) :
    ts.length = rest.length + 1 := by
  cases ts with
  | nil => simp [accept] at h
  | cons t ts => simp only [accept] at h; split at h <;> simp_all

/-- An expected symbol is one token. -/
theorem expectSymbol_length {c : Char} {ts rest : List Token} (h : expectSymbol c ts = .ok rest) :
    ts.length = rest.length + 1 := by
  unfold expectSymbol at h
  split at h
  · rename_i h'; cases h; exact accept_length h'
  · simp [fail] at h

/-- An expected word is one token. -/
theorem expectWord_length {word : String} {ts rest : List Token}
    (h : expectWord word ts = .ok rest) : ts.length = rest.length + 1 := by
  unfold expectWord at h
  split at h
  · rename_i h'; cases h; exact accept_length h'
  · simp [fail] at h

/-- An identifier is one token. -/
theorem identifier_length {ts rest : List Token} {w : String} (h : identifier ts = .ok (w, rest)) :
    ts.length = rest.length + 1 := by
  unfold identifier at h
  split at h
  · split at h <;> simp_all [fail]
  · simp [fail] at h

/-- A number is one token. -/
theorem number_length {ts rest : List Token} {n : UInt32} (h : number ts = .ok (n, rest)) :
    ts.length = rest.length + 1 := by
  unfold number at h
  split at h
  · split at h <;> simp_all [fail]
  · simp [fail] at h

/-- A number that may be missing leaves no more tokens than there were. -/
theorem number?_le (ts : List Token) : (number? ts).2.length ≤ ts.length := by
  unfold number?
  split
  · rename_i h; have := number_length h; simp; omega
  · simp

/-! ## Qualified names -/

/-- Reads further parts of a qualified name, each after a point. -/
def nameParts (name : String) (ts : List Token) : Read String :=
  match _h : acceptSymbol '.' ts with
  | none => .ok (name, ts)
  | some more =>
    match _hw : identifier more with
    | .error e => .error e
    | .ok (w, rest) => nameParts (name ++ "." ++ w) rest
termination_by ts.length
decreasing_by
  have := accept_length _h
  have := identifier_length _hw
  omega

/-- Reads a qualified name. -/
def qualifiedName (ts : List Token) : Read String :=
  match identifier ts with
  | .error e => .error e
  | .ok (w, rest) => nameParts w rest

/-- The parts of a name leave no more tokens than there were. -/
theorem nameParts_le {name w : String} {ts rest : List Token}
    (h : nameParts name ts = .ok (w, rest)) : rest.length ≤ ts.length := by
  fun_induction nameParts name ts with
  | case1 => simp_all
  | case2 => simp at h
  | case3 _ _ _ ha _ _ hi ih =>
    have := accept_length ha
    have := identifier_length hi
    have := ih h
    omega

/-- A name takes at least one token. -/
theorem qualifiedName_shorter {w : String} {ts rest : List Token}
    (h : qualifiedName ts = .ok (w, rest)) : rest.length < ts.length := by
  unfold qualifiedName at h
  split at h
  · simp at h
  · rename_i hi
    have := identifier_length hi
    have := nameParts_le h
    omega

/-- Reads pairs of brackets after a type. -/
def brackets (type : String) (ts : List Token) : Read String :=
  match _h : acceptSymbol '[' ts with
  | none => .ok (type, ts)
  | some more =>
    match _hc : expectSymbol ']' more with
    | .error e => .error e
    | .ok rest => brackets (type ++ "[]") rest
termination_by ts.length
decreasing_by
  have := accept_length _h
  have := expectSymbol_length _hc
  omega

/-- Brackets leave no more tokens than there were. -/
theorem brackets_le {type w : String} {ts rest : List Token}
    (h : brackets type ts = .ok (w, rest)) : rest.length ≤ ts.length := by
  fun_induction brackets type ts with
  | case1 => simp_all
  | case2 => simp at h
  | case3 _ _ _ ha _ hc ih =>
    have := accept_length ha
    have := expectSymbol_length hc
    have := ih h
    omega

end Reader

end AnnotationIndex
