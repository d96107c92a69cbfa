import AnnotationIndex.Proofs.Reader.Equations
import AnnotationIndex.Proofs.Token.Lines

/-!
# Readers before the end of the text and before a package

A reader that comes to the end of a text decides there what the text has said: that a name, a list
of fields or a type ends, or that something is missing. A `Continuation` puts the text on other
lines and lets a package header follow it, or nothing. Every reader of a part of a statement then
goes on as before: what it reads is the same, and it fails only where it failed before
(`Continuation.Steady`). No reader looks at lines, and at the keyword `package` each decides as at
the end of the text.

The one exception is the spelling of a floating-point number, which takes up a word after its point.
Readers of values are `Wavering` for that: they are steady as long as they leave something. The
closing parenthesis makes annotations steady again (`Continuation.single_steady`).
-/

namespace AnnotationIndex

/-- The failure on another line. -/
def Failure.reline (f : Nat → Nat) (e : Failure) : Failure := { e with line := e.line.map f }

/-- How a text goes on: on which lines it stands, and the tokens after it, which are none or start
with the keyword of a package. -/
structure Continuation where
  line : Nat → Nat
  after : List Token
  stops : ∀ t ∈ after.head?, t.lexeme = .word "package"

namespace Continuation

open Reader

variable (c : Continuation)

/-- The tokens as they go on. -/
def tokens (ts : List Token) : List Token := ts.map (.reline c.line) ++ c.after

/-- What a reader gives before the end of the text and what it gives before the continuation. What
it reads is the same. A failure stays one unless something follows, when nothing is said. Nor is
something said about an `unsure` result that leaves nothing. -/
inductive Alike {α : Type} (unsure : Prop) : Read α → Read α → Prop
  | ok (x : α) (rest : List Token) : Alike unsure (.ok (x, rest)) (.ok (x, c.tokens rest))
  | error (e : Failure) : Alike unsure (.error e) (.error (e.reline c.line))
  | failed (e : Failure) (b : Read α) (h : c.after ≠ []) : Alike unsure (.error e) b
  | spent (x : α) (b : Read α) (h : c.after ≠ []) (hu : unsure) : Alike unsure (.ok (x, [])) b

/-- The reader goes on as before. -/
def Steady {α : Type} (r : List Token → Read α) : Prop :=
  ∀ ts, c.Alike False (r ts) (r (c.tokens ts))

/-- The reader goes on as before, unless it takes everything. -/
def Wavering {α : Type} (r : List Token → Read α) : Prop :=
  ∀ ts, c.Alike True (r ts) (r (c.tokens ts))

variable {c} {α : Type} {unsure : Prop}

/-! ## The first tokens -/

/-- The first token goes on as itself, on its line. -/
@[simp] theorem tokens_cons (t : Token) (ts : List Token) :
    c.tokens (t :: ts) = t.reline c.line :: c.tokens ts := rfl

/-- Tokens go on with those that come after. -/
@[simp] theorem length_tokens (ts : List Token) :
    (c.tokens ts).length = ts.length + c.after.length := by
  simp [tokens]

/-- What follows the tokens is nothing or the keyword of a package. -/
theorem tokens_nil (c : Continuation) :
    c.after = [] ∧ c.tokens [] = [] ∨
      c.after ≠ [] ∧ ∃ line rest, c.tokens [] = ⟨.word "package", line⟩ :: rest := by
  obtain ⟨line, after, stops⟩ := c
  cases after with
  | nil => exact .inl ⟨rfl, rfl⟩
  | cons t rest =>
    obtain ⟨l, n⟩ := t
    obtain rfl : l = .word "package" := stops ⟨l, n⟩ rfl
    exact .inr ⟨by simp, n, rest, rfl⟩

/-- A lexeme that starts no package is accepted in the continuation when it is accepted before. -/
theorem accept_tokens {l : Lexeme} (hl : l ≠ .word "package") (ts : List Token) :
    accept l (c.tokens ts) = (accept l ts).map c.tokens := by
  cases ts with
  | nil =>
    rcases c.tokens_nil with ⟨-, h⟩ | ⟨-, n, rest, h⟩
    · rw [h]
      rfl
    · rw [h]
      exact if_neg hl.symm
  | cons t ts =>
    rw [tokens_cons, accept, accept]
    by_cases h : t.lexeme = l
    · rw [if_pos h, if_pos (show (t.reline c.line).lexeme = l from h)]
      rfl
    · rw [if_neg h, if_neg (show ¬ (t.reline c.line).lexeme = l from h)]
      rfl

/-- A symbol is accepted in the continuation when it is accepted before. -/
theorem acceptSymbol_tokens (s : Char) (ts : List Token) :
    acceptSymbol s (c.tokens ts) = (acceptSymbol s ts).map c.tokens :=
  accept_tokens (by simp) ts

/-- A word that starts no package is accepted in the continuation when it is accepted before. -/
theorem acceptWord_tokens {w : String} (hw : w ≠ "package") (ts : List Token) :
    acceptWord w (c.tokens ts) = (acceptWord w ts).map c.tokens :=
  accept_tokens (by simpa using hw) ts

/-- The same word comes first, or none does and the keyword of a package follows. -/
theorem word?_tokens (c : Continuation) (ts : List Token) :
    word? (c.tokens ts) = word? ts ∨ ts = [] ∧ word? (c.tokens ts) = some "package" := by
  cases ts with
  | nil =>
    rcases c.tokens_nil with ⟨-, h⟩ | ⟨-, n, rest, h⟩
    · exact .inl (by rw [h])
    · exact .inr ⟨rfl, by rw [h]; rfl⟩
  | cons t ts => exact .inl rfl

/-! ## Case analysis

To compare what a reader makes of the tokens that go on, one follows its definition: at a symbol or
a keyword and after each reader that it calls, both texts go on alike. A reader passes on what fails
inside it, so that the failing cases of `Alike.elim` and `expect_elim` are mostly `Alike.error` and
`Alike.failed` again. -/

/-- What depends on whether a symbol is accepted is shown for both cases. -/
@[elab_as_elim]
theorem symbol_elim {P : Option (List Token) → Option (List Token) → Prop} (s : Char)
    (ts : List Token) (none : acceptSymbol s ts = none → P none none)
    (some : ∀ more, acceptSymbol s ts = some more → P (some more) (some (c.tokens more))) :
    P (acceptSymbol s ts) (acceptSymbol s (c.tokens ts)) := by
  rw [acceptSymbol_tokens]
  cases h : acceptSymbol s ts with
  | none => exact none h
  | some more => exact some more h

/-- What depends on whether a word is accepted is shown for both cases. -/
@[elab_as_elim]
theorem word_elim {P : Option (List Token) → Option (List Token) → Prop} {w : String}
    (hw : w ≠ "package") (ts : List Token) (none : acceptWord w ts = none → P none none)
    (some : ∀ more, acceptWord w ts = some more → P (some more) (some (c.tokens more))) :
    P (acceptWord w ts) (acceptWord w (c.tokens ts)) := by
  rw [acceptWord_tokens hw]
  cases h : acceptWord w ts with
  | none => exact none h
  | some more => exact some more h

/-- What depends on results that are alike is shown for each way in which they can be. -/
@[elab_as_elim]
theorem Alike.elim {P : Read α → Read α → Prop} {a b : Read α} (h : c.Alike False a b)
    (ok : ∀ x rest, a = .ok (x, rest) → P (.ok (x, rest)) (.ok (x, c.tokens rest)))
    (error : ∀ e, P (.error e) (.error (e.reline c.line)))
    (failed : ∀ e b, c.after ≠ [] → P (.error e) b) : P a b := by
  cases h with
  | ok x rest => exact ok x rest rfl
  | error e => exact error e
  | failed e b h => exact failed e b h
  | spent x b h hu => exact hu.elim

/-- What depends on unsure results that are alike is shown for each way in which they can be. -/
@[elab_as_elim]
theorem Alike.elim_unsure {P : Read α → Read α → Prop} {a b : Read α} (h : c.Alike True a b)
    (ok : ∀ x rest, a = .ok (x, rest) → P (.ok (x, rest)) (.ok (x, c.tokens rest)))
    (error : ∀ e, P (.error e) (.error (e.reline c.line)))
    (failed : ∀ e b, c.after ≠ [] → P (.error e) b)
    (spent : ∀ x b, c.after ≠ [] → P (.ok (x, [])) b) : P a b := by
  cases h with
  | ok x rest => exact ok x rest rfl
  | error e => exact error e
  | failed e b h => exact failed e b h
  | spent x b h hu => exact spent x b h

/-- A failure at the first token is one at the same token, unless something follows. -/
theorem reline_fail (c : Continuation) (cause : Cause) (ts : List Token) :
    (⟨(c.tokens ts).head?.map (·.line), cause⟩ : Failure) =
        Failure.reline c.line ⟨ts.head?.map (·.line), cause⟩ ∨ c.after ≠ [] := by
  cases ts with
  | cons t ts => exact .inl rfl
  | nil =>
    rcases c.tokens_nil with ⟨-, h⟩ | ⟨hne, -⟩
    · exact .inl (by rw [h]; rfl)
    · exact .inr hne

/-- A failure at the next token is alike in the continuation. -/
theorem Alike.fail (cause : Cause) (ts : List Token) :
    c.Alike unsure (Reader.fail cause ts : Read α) (Reader.fail cause (c.tokens ts)) := by
  rcases c.reline_fail cause ts with h | hne
  · rw [Reader.fail, Reader.fail, h]
    exact .error _
  · exact .failed _ _ hne

/-- What depends on whether an expected symbol comes is shown for each case. -/
@[elab_as_elim]
theorem expect_elim {P : Except Failure (List Token) → Except Failure (List Token) → Prop}
    (s : Char) (ts : List Token)
    (ok : ∀ more, expectSymbol s ts = .ok more → P (.ok more) (.ok (c.tokens more)))
    (error : ∀ e, P (.error e) (.error (e.reline c.line)))
    (failed : ∀ e b, c.after ≠ [] → P (.error e) b) :
    P (expectSymbol s ts) (expectSymbol s (c.tokens ts)) := by
  unfold expectSymbol at ok ⊢
  rw [acceptSymbol_tokens]
  cases h : acceptSymbol s ts with
  | some more => exact ok more (by rw [h])
  | none =>
    rcases c.reline_fail (.expected s.toString) ts with hc | hne
    · have herror := error ⟨ts.head?.map (·.line), .expected s.toString⟩
      rwa [← hc] at herror
    · exact failed _ _ hne

/-- A reader that fails at the end of the text fails there. -/
theorem Alike.nil {r : List Token → Read α} {cause : Cause} (h : r [] = Reader.fail cause []) :
    c.Alike unsure (r []) (r (c.tokens [])) := by
  rcases c.tokens_nil with ⟨-, hnil⟩ | ⟨hne, -⟩
  · rw [hnil, h]
    exact .error _
  · rw [h]
    exact .failed _ _ hne

/-! ## Names and numbers -/

/-- Reading an identifier goes on as before. -/
theorem identifier_steady : c.Steady identifier
  | [] => .nil rfl
  | ⟨.word w, line⟩ :: rest => by
    rw [tokens_cons, identifier]
    simp only [Token.reline, identifier]
    split
    · exact .ok w rest
    · exact .error _
  | ⟨.string _, _⟩ :: _ | ⟨.char _, _⟩ :: _ | ⟨.symbol _, _⟩ :: _ => .error _

/-- Reading a number goes on as before. -/
theorem number_steady : c.Steady number
  | [] => .nil rfl
  | ⟨.word w, line⟩ :: rest => by
    rw [tokens_cons, number]
    simp only [Token.reline, number]
    split
    · exact .ok _ rest
    · exact .error _
  | ⟨.string _, _⟩ :: _ | ⟨.char _, _⟩ :: _ | ⟨.symbol _, _⟩ :: _ => .error _

/-- A number comes first in both or in none. -/
theorem number?_tokens (ts : List Token) :
    number? (c.tokens ts) = ((number? ts).1, c.tokens (number? ts).2) := by
  match ts with
  | [] =>
    rcases c.tokens_nil with ⟨-, h⟩ | ⟨-, line, rest, h⟩
    · rw [h]
      exact Prod.ext rfl h.symm
    · have hword : Numeral.natural? "package" = none := by decide +kernel
      rw [h, number?, number]
      simp only [hword, Reader.fail]
      exact Prod.ext rfl h.symm
  | ⟨.word w, line⟩ :: rest =>
    simp only [tokens_cons, Token.reline, number?, number]
    cases Numeral.natural? w <;> rfl
  | ⟨.string _, _⟩ :: _ | ⟨.char _, _⟩ :: _ | ⟨.symbol _, _⟩ :: _ => rfl

/-- Reading the parts of a name goes on as before. -/
theorem nameParts_steady (name : String) (ts : List Token) :
    c.Alike False (nameParts name ts) (nameParts name (c.tokens ts)) := by
  rw [nameParts_eq, nameParts_eq name (c.tokens ts)]
  refine symbol_elim '.' ts (fun _ => .ok _ _) fun more hmore => ?_
  dsimp only
  refine (identifier_steady more).elim (fun w rest hrest => ?_) .error fun _ _ => .failed _ _
  exact nameParts_steady _ rest
termination_by ts.length
decreasing_by
  have := accept_length hmore
  have := identifier_length hrest
  omega

/-- Reading a name goes on as before. -/
theorem qualifiedName_steady : c.Steady qualifiedName := by
  intro ts
  unfold qualifiedName
  refine (identifier_steady ts).elim (fun w rest _ => ?_) .error fun _ _ => .failed _ _
  exact nameParts_steady w rest

/-- Reading brackets goes on as before. -/
theorem brackets_steady (type : String) (ts : List Token) :
    c.Alike False (brackets type ts) (brackets type (c.tokens ts)) := by
  rw [brackets_eq, brackets_eq type (c.tokens ts)]
  refine symbol_elim '[' ts (fun _ => .ok _ _) fun more hmore => ?_
  dsimp only
  refine expect_elim ']' more (fun rest hrest => ?_) .error fun _ _ => .failed _ _
  exact brackets_steady _ rest
termination_by ts.length
decreasing_by
  have := accept_length hmore
  have := expectSymbol_length hrest
  omega

/-! ## Cast types -/

mutual

/-- Reading a type goes on as before. -/
theorem castType_steady (ts : List Token) :
    c.Alike False (castType ts) (castType (c.tokens ts)) := by
  rw [castType_eq, castType_eq (c.tokens ts)]
  refine (qualifiedName_steady ts).elim (fun name rest hname => ?_) .error fun _ _ => .failed _ _
  dsimp only
  refine symbol_elim '<' rest (fun _ => brackets_steady name rest) fun more hmore => ?_
  dsimp only
  refine (typeArguments_steady more).elim (fun arguments rest _ => ?_) .error fun _ _ => .failed _ _
  dsimp only
  refine expect_elim '>' rest (fun rest _ => ?_) .error fun _ _ => .failed _ _
  exact brackets_steady _ rest
termination_by 3 * ts.length
decreasing_by
  have := qualifiedName_shorter hname
  have := accept_length hmore
  omega

/-- Reading a type argument goes on as before. -/
theorem typeArgument_steady (ts : List Token) :
    c.Alike False (typeArgument ts) (typeArgument (c.tokens ts)) := by
  rw [typeArgument_eq, typeArgument_eq (c.tokens ts)]
  refine symbol_elim '?' ts (fun _ => castType_steady ts) fun rest hrest => ?_
  dsimp only
  refine word_elim (w := "extends") (by decide) rest (fun _ => ?_) fun more hmore => ?_
  · dsimp only
    refine word_elim (w := "super") (by decide) rest (fun _ => .ok _ _) fun more hmore => ?_
    dsimp only
    refine (castType_steady more).elim (fun type rest _ => ?_) .error fun _ _ => .failed _ _
    exact .ok _ _
  · dsimp only
    refine (castType_steady more).elim (fun type rest _ => ?_) .error fun _ _ => .failed _ _
    exact .ok _ _
termination_by 3 * ts.length + 1
decreasing_by
  · omega
  all_goals
    have := accept_length hrest
    have := accept_length hmore
    omega

/-- Reading type arguments goes on as before. -/
theorem typeArguments_steady (ts : List Token) :
    c.Alike False (typeArguments ts) (typeArguments (c.tokens ts)) := by
  rw [typeArguments, typeArguments]
  refine (typeArgument_steady ts).elim (fun argument rest _ => ?_) .error fun _ _ => .failed _ _
  dsimp only
  refine symbol_elim ',' rest (fun _ => .ok _ _) fun more _ => ?_
  simp only [length_tokens, Nat.add_lt_add_iff_right]
  split
  · exact (typeArguments_steady more).elim (fun arguments rest _ => .ok _ _) .error
      fun _ _ => .failed _ _
  · exact .ok _ _
termination_by 3 * ts.length + 2

end

/-! ## Locations -/

/-- Reading steps to an inner type goes on as before. -/
theorem innerSteps_steady (ts : List Token) :
    c.Alike False (innerSteps ts) (innerSteps (c.tokens ts)) := by
  rw [innerSteps_eq, innerSteps_eq (c.tokens ts)]
  refine symbol_elim ',' ts (fun _ => .ok _ _) fun more hmore => ?_
  dsimp only
  refine (number_steady more).elim (fun n rest hn => ?_) .error fun _ _ => .failed _ _
  dsimp only
  refine (innerSteps_steady rest).elim (fun steps rest _ => ?_) .error fun _ _ => .failed _ _
  exact .ok _ _
termination_by ts.length
decreasing_by
  have := accept_length hmore
  have := number_length hn
  omega

/-- Reading the location of an inner type goes on as before. -/
theorem innerTypePath_steady : c.Steady innerTypePath := by
  intro ts
  unfold innerTypePath
  refine (number_steady ts).elim (fun n rest _ => ?_) .error fun _ _ => .failed _ _
  dsimp only
  refine (innerSteps_steady rest).elim (fun steps rest _ => ?_) .error fun _ _ => .failed _ _
  exact .ok _ _

/-- Reading a bound goes on as before. -/
theorem bound_steady : c.Steady bound := by
  intro ts
  unfold bound
  refine (number_steady ts).elim (fun parameter rest _ => ?_) .error fun _ _ => .failed _ _
  dsimp only
  refine expect_elim '&' rest (fun rest _ => ?_) .error fun _ _ => .failed _ _
  dsimp only
  refine (number_steady rest).elim (fun bound rest _ => ?_) .error fun _ _ => .failed _ _
  exact .ok _ _

/-- Reading a local variable goes on as before. -/
theorem localVariable_steady : c.Steady localVariable := by
  intro ts
  unfold localVariable
  refine (number_steady ts).elim (fun index rest _ => ?_) .error fun _ _ => .failed _ _
  dsimp only
  refine expect_elim '#' rest (fun rest _ => ?_) .error fun _ _ => .failed _ _
  dsimp only
  refine (number_steady rest).elim (fun start rest _ => ?_) .error fun _ _ => .failed _ _
  dsimp only
  refine expect_elim '+' rest (fun rest _ => ?_) .error fun _ _ => .failed _ _
  dsimp only
  refine (number_steady rest).elim (fun length rest _ => ?_) .error fun _ _ => .failed _ _
  exact .ok _ _

/-- Reading a position in code goes on as before. -/
theorem codePosition_steady : c.Steady codePosition := by
  intro ts
  unfold codePosition
  refine symbol_elim '#' ts (fun _ => ?_) fun rest _ => ?_
  · dsimp only
    refine symbol_elim '*' ts (fun _ => .fail _ ts) fun rest _ => ?_
    dsimp only
    refine (number_steady rest).elim (fun n rest _ => ?_) .error fun _ _ => .failed _ _
    exact .ok _ _
  · dsimp only
    refine (number_steady rest).elim (fun n rest _ => ?_) .error fun _ _ => .failed _ _
    exact .ok _ _

/-- Reading the number of an interface goes on as before. -/
theorem interface_steady : c.Steady interface := by
  intro ts
  unfold interface
  refine (number_steady ts).elim (fun n rest _ => ?_) (fun _ => .fail _ ts) fun _ _ => .failed _ _
  dsimp only
  split
  · exact .ok _ _
  · exact .fail _ ts

/-- Reading the number of an initializer block goes on as before. -/
theorem ordinal_steady : c.Steady ordinal := by
  intro ts
  unfold ordinal
  refine expect_elim '*' ts (fun rest _ => ?_) .error fun _ _ => .failed _ _
  exact number_steady rest

/-- Reading the number of a parameter goes on as before. -/
theorem parameter_steady : c.Steady parameter := by
  intro ts
  unfold parameter
  refine expect_elim '#' ts (fun rest _ => ?_) .error fun _ _ => .failed _ _
  exact number_steady rest

/-- Reading a step of a path in a source goes on as before. -/
theorem sourceStep_steady : c.Steady sourceStep := by
  intro ts
  unfold sourceStep
  refine (identifier_steady ts).elim (fun kind rest _ => ?_) .error fun _ _ => .failed _ _
  dsimp only
  refine expect_elim '.' rest (fun rest _ => ?_) .error fun _ _ => .failed _ _
  dsimp only
  refine (identifier_steady rest).elim (fun child rest _ => ?_) .error fun _ _ => .failed _ _
  simp only [number?_tokens]
  exact .ok _ _

/-- Reading steps of a path in a source goes on as before. -/
theorem sourceSteps_steady (ts : List Token) :
    c.Alike False (sourceSteps ts) (sourceSteps (c.tokens ts)) := by
  rw [sourceSteps_eq, sourceSteps_eq (c.tokens ts)]
  refine (sourceStep_steady ts).elim (fun step rest hstep => ?_) .error fun _ _ => .failed _ _
  dsimp only
  refine symbol_elim ',' rest (fun _ => .ok _ _) fun more hmore => ?_
  dsimp only
  refine (sourceSteps_steady more).elim (fun steps rest _ => ?_) .error fun _ _ => .failed _ _
  exact .ok _ _
termination_by ts.length
decreasing_by
  have := sourceStep_shorter hstep
  have := accept_length hmore
  omega

/-- Reading a path in a source goes on as before. -/
theorem sourcePath_steady : c.Steady sourcePath := by
  intro ts
  unfold sourcePath
  refine (sourceSteps_steady ts).elim (fun steps rest _ => ?_) .error fun _ _ => .failed _ _
  exact .ok _ _

/-- Reading the key of a method goes on as before. -/
theorem methodKey_steady (key : String) : c.Steady (methodKey key) := by
  intro ts
  induction ts generalizing key with
  | nil => exact .nil (r := methodKey key) rfl
  | cons t rest ih =>
    obtain ⟨l, line⟩ := t
    change c.Alike False (methodKey key (⟨l, line⟩ :: rest))
      (methodKey key (⟨l, c.line line⟩ :: c.tokens rest))
    rw [methodKey, methodKey]
    by_cases hcolon : l = .symbol ':'
    · simp only [if_pos hcolon]
      exact .ok key (⟨l, line⟩ :: rest)
    · simp only [if_neg hcolon]
      cases l.spelling? with
      | some s => exact ih (key ++ s)
      | none => exact .error _

/-! ## Values and annotations -/

/-- Reading the spelling of a floating-point number goes on as before, unless it takes
everything. -/
theorem floatingSpelling_wavering : c.Wavering floatingSpelling := by
  have after (whole : String) (ts : List Token) : c.Alike True
      (floatingSpelling.afterWhole whole ts) (floatingSpelling.afterWhole whole (c.tokens ts)) := by
    unfold floatingSpelling.afterWhole
    refine symbol_elim '.' ts (fun _ => ?_) fun more _ => ?_
    · dsimp only
      split
      · exact .fail _ ts
      · exact .ok _ _
    · match more with
      | [] =>
        rcases c.tokens_nil with ⟨-, h⟩ | ⟨hne, -⟩
        · have hok : c.Alike True (.ok (whole ++ ".", [])) _ := .ok _ []
          rw [h] at hok ⊢
          exact hok
        · exact .spent _ _ hne trivial
      | ⟨.word fraction, _⟩ :: rest => exact .ok _ rest
      | ⟨.string _, _⟩ :: _ | ⟨.char _, _⟩ :: _ | ⟨.symbol _, _⟩ :: _ => exact .ok _ (_ :: _)
  intro ts
  match ts with
  | [] => exact .nil (r := floatingSpelling) rfl
  | ⟨.word whole, _⟩ :: rest => exact after whole rest
  | ⟨.string s, line⟩ :: rest => exact after "" (⟨.string s, line⟩ :: rest)
  | ⟨.char ch, line⟩ :: rest => exact after "" (⟨.char ch, line⟩ :: rest)
  | ⟨.symbol s, line⟩ :: rest => exact after "" (⟨.symbol s, line⟩ :: rest)

/-- Reading a basic value goes on as before, unless it takes everything. -/
theorem basicValue_wavering (kind : BasicKind) : c.Wavering (basicValue kind) := by
  intro ts
  cases kind with
  | boolean =>
    unfold basicValue
    dsimp only
    refine word_elim (w := "true") (by decide) ts (fun _ => ?_) fun rest _ => .ok _ _
    dsimp only
    exact word_elim (w := "false") (by decide) ts (fun _ => .fail _ ts) fun rest _ => .ok _ _
  | char =>
    match ts with
    | [] => exact .nil (r := basicValue .char) rfl
    | ⟨.char _, _⟩ :: rest => exact .ok _ rest
    | ⟨.word _, _⟩ :: _ | ⟨.string _, _⟩ :: _ | ⟨.symbol _, _⟩ :: _ => exact .error _
  | string =>
    match ts with
    | [] => exact .nil (r := basicValue .string) rfl
    | ⟨.string _, _⟩ :: rest => exact .ok _ rest
    | ⟨.word _, _⟩ :: _ | ⟨.char _, _⟩ :: _ | ⟨.symbol _, _⟩ :: _ => exact .error _
  | integer kind =>
    match ts with
    | [] => exact .nil (r := basicValue (.integer kind)) rfl
    | ⟨.word w, _⟩ :: rest =>
      simp only [tokens_cons, Token.reline, basicValue]
      cases Numeral.inRange? kind w with
      | some n => exact .ok _ rest
      | none => exact .error _
    | ⟨.string _, _⟩ :: _ | ⟨.char _, _⟩ :: _ | ⟨.symbol _, _⟩ :: _ => exact .error _
  | floating width =>
    unfold basicValue
    dsimp only
    refine (floatingSpelling_wavering ts).elim_unsure (fun spelling rest _ => ?_) .error
      (fun _ _ => .failed _ _) fun spelling b hne => ?_
    · dsimp only
      split
      · exact .ok _ _
      · exact .fail _ _
    · dsimp only
      split
      · exact .spent _ _ hne trivial
      · exact .failed _ _ hne

/-- Reading the parts of a class literal goes on as before. -/
theorem classParts_steady (name : String) (ts : List Token) :
    c.Alike False (classParts name ts) (classParts name (c.tokens ts)) := by
  rw [classParts_eq, classParts_eq name (c.tokens ts)]
  refine symbol_elim '.' ts (fun _ => .ok _ _) fun more hmore => ?_
  dsimp only
  have hclass : word? (c.tokens more) = some "class" ↔ word? more = some "class" := by
    rcases c.word?_tokens more with h | ⟨rfl, h⟩
    · rw [h]
    · rw [h]
      decide
  simp only [hclass]
  split
  · exact .ok _ _
  refine (identifier_steady more).elim (fun w rest hw => ?_) .error fun _ _ => .failed _ _
  exact classParts_steady _ rest
termination_by ts.length
decreasing_by
  have := accept_length hmore
  have := identifier_length hw
  omega

/-- Reading a class literal goes on as before. -/
theorem classToken_steady : c.Steady classToken := by
  intro ts
  unfold classToken
  refine (identifier_steady ts).elim (fun w rest _ => ?_) .error fun _ _ => .failed _ _
  dsimp only
  refine (classParts_steady w rest).elim (fun name rest _ => ?_) .error fun _ _ => .failed _ _
  dsimp only
  refine (brackets_steady name rest).elim (fun name rest _ => ?_) .error fun _ _ => .failed _ _
  dsimp only
  refine expect_elim '.' rest (fun rest _ => ?_) .error fun _ _ => .failed _ _
  dsimp only [expectWord]
  exact word_elim (w := "class") (by decide) rest (fun _ => .fail _ rest) fun rest _ => .ok _ _

mutual

/-- An array in braces ends with a symbol; any other value may waver. -/
theorem value_wavering (scope : Scope) (type : FieldType) (ts : List Token) :
    c.Alike True (value scope type ts) (value scope type (c.tokens ts)) := by
  by_cases harray : ∃ element, type = .array element
  · obtain ⟨element, rfl⟩ := harray
    rw [value_array_eq, value_array_eq scope element (c.tokens ts)]
    refine symbol_elim '\x7b' ts (fun _ => ?_) fun more hmore => ?_
    · dsimp only
      refine (item_wavering scope element ts).elim_unsure (fun v rest _ => .ok _ _) .error
        (fun _ _ => .failed _ _) fun _ _ hne => .spent _ _ hne trivial
    · dsimp only
      refine symbol_elim '\x7d' more (fun _ => ?_) fun rest _ => .ok _ _
      dsimp only
      refine (elements_wavering scope element more).elim_unsure (fun vs rest _ => ?_) .error
        (fun _ _ => .failed _ _) fun _ _ hne => .failed _ _ hne
      dsimp only
      exact expect_elim '\x7d' rest (fun rest _ => .ok _ _) .error fun _ _ => .failed _ _
  · have hitem : ∀ element, type ≠ .array element := fun element h => harray ⟨element, h⟩
    rw [value_item hitem, value_item hitem]
    exact item_wavering scope type ts
termination_by 4 * ts.length + 2
decreasing_by
  · omega
  · have := accept_length hmore
    omega
  · omega

/-- Reading an element goes on as before, unless it takes everything. -/
theorem item_wavering (scope : Scope) (type : FieldType) (ts : List Token) :
    c.Alike True (item scope type ts) (item scope type (c.tokens ts)) := by
  cases type with
  | basic kind =>
    rw [item, item]
    exact basicValue_wavering kind ts
  | classToken =>
    rw [item, item]
    exact (classToken_steady ts).elim (fun _ _ _ => .ok _ _) .error fun _ _ => .failed _ _
  | enum name =>
    rw [item, item]
    exact (identifier_steady ts).elim (fun _ _ _ => .ok _ _) .error fun _ _ => .failed _ _
  | nested d =>
    rw [item, item]
    refine (single_steady scope false ts).elim (fun a rest _ => ?_) .error fun _ _ => .failed _ _
    dsimp only
    split
    · exact .ok _ _
    · exact .fail _ ts
  | _ =>
    rw [item, item]
    refine expect_elim '\x7b' ts (fun more _ => ?_) .error fun _ _ => .failed _ _
    dsimp only
    exact symbol_elim '\x7d' more (fun _ => .fail _ more) fun rest _ => .ok _ _
termination_by 4 * ts.length + 1

/-- Reading elements goes on as before, unless it takes everything. -/
theorem elements_wavering (scope : Scope) (type : FieldType) (ts : List Token) :
    c.Alike True (elements scope type ts) (elements scope type (c.tokens ts)) := by
  rw [elements, elements]
  refine (value_wavering scope type ts).elim_unsure (fun v rest _ => ?_) .error
    (fun _ _ => .failed _ _) fun _ _ hne => .spent _ _ hne trivial
  dsimp only
  refine symbol_elim ',' rest (fun _ => .ok _ _) fun more _ => ?_
  simp only [length_tokens, Nat.add_lt_add_iff_right]
  split
  · exact (elements_wavering scope type more).elim_unsure (fun vs rest _ => .ok _ _) .error
      (fun _ _ => .failed _ _) fun _ _ hne => .spent _ _ hne trivial
  · exact .ok _ _
termination_by 4 * ts.length + 3

/-- Reading an annotation goes on as before: a parenthesis is at its end, or no value. -/
theorem single_steady (scope : Scope) (top : Bool) (ts : List Token) :
    c.Alike False (single scope top ts) (single scope top (c.tokens ts)) := by
  rw [single_eq, single_eq scope top (c.tokens ts)]
  refine expect_elim '@' ts (fun rest hrest => ?_) .error fun _ _ => .failed _ _
  dsimp only
  refine (qualifiedName_steady rest).elim (fun name rest hname => ?_) .error fun _ _ => .failed _ _
  dsimp only
  cases scope.resolve? name with
  | none => exact .fail _ ts
  | some d =>
    dsimp only
    split
    · exact .fail _ ts
    refine symbol_elim '(' rest (fun _ => .ok _ _) fun more hmore => ?_
    dsimp only
    refine symbol_elim ')' more (fun _ => ?_) fun rest _ => .ok _ _
    dsimp only
    -- what the values leave must start with the closing parenthesis
    refine (assignments_wavering scope d [] more).elim_unsure (fun values rest _ => ?_) .error
      (fun _ _ => .failed _ _) fun _ _ hne => .failed _ _ hne
    dsimp only
    exact expect_elim ')' rest (fun rest _ => .ok _ _) .error fun _ _ => .failed _ _
termination_by 4 * ts.length
decreasing_by
  have := expectSymbol_length hrest
  have := qualifiedName_shorter hname
  have := accept_length hmore
  omega

/-- Reading the values of an annotation goes on as before, unless it takes everything. -/
theorem assignments_wavering (scope : Scope) (d : Definition) (given : List (String × Value))
    (ts : List Token) : c.Alike True (assignments scope d given ts)
      (assignments scope d given (c.tokens ts)) := by
  rw [assignments_eq, assignments_eq scope d given (c.tokens ts)]
  refine (identifier_steady ts).elim (fun field rest hfield => ?_) .error fun _ _ => .failed _ _
  dsimp only
  refine expect_elim '=' rest (fun rest hrest => ?_) .error fun _ _ => .failed _ _
  dsimp only
  cases Keyed.get? field d.fields with
  | none => exact .fail _ rest
  | some type =>
    dsimp only
    split
    · exact .fail _ rest
    refine (value_wavering scope type rest).elim_unsure (fun v rest _ => ?_) .error
      (fun _ _ => .failed _ _) fun _ _ hne => .spent _ _ hne trivial
    dsimp only
    refine symbol_elim ',' rest (fun _ => .ok _ _) fun more _ => ?_
    simp only [length_tokens, Nat.add_lt_add_iff_right]
    split
    · exact assignments_wavering scope d _ more
    · exact .ok _ _
termination_by 4 * ts.length
decreasing_by
  · have := identifier_length hfield
    have := expectSymbol_length hrest
    omega
  · omega

end

end Continuation
end AnnotationIndex
