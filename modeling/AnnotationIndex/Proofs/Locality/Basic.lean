import AnnotationIndex.Proofs.Reader.Definition
import AnnotationIndex.Proofs.Token.Fault
import AnnotationIndex.Reader.File

/-!
# Where a reader fails, and why there

A reader that fails names a cause. `Culprit` says which tokens a cause is about: those that the
reader has taken when it notices (a name that is defined twice, say), or none, when the cause is
about the token that comes next. Some causes are noticed late: the failure is then at the token
after the culprit (`Cause.isLate`), and at its first token otherwise.

A reader is local where it decides by the tokens that it takes and by the next one (`LocalAt`): what
it reads it reads however the text goes on after that token, and when it fails, it fails at the same
place however the text goes on, while the tokens before the culprit are no reason to fail. Readers
are put together from a few forms, such as `andThen` and `onLexeme`, and each form is local where
its parts are.
-/

namespace AnnotationIndex

namespace Reader

/-- The tokens that a cause is about and that have been read when it is noticed. A cause that is
about the token that comes next has none. -/
def Culprit : Cause → List Token → Prop
  | .duplicateDefinition name, ts => ∃ retention base package,
      ts.map (·.lexeme) = .word "annotation" ::
        (retentionLexemes retention ++ [.symbol '@', .word base, .symbol ':']) ∧
      name = qualify package base
  | .annotationUndefined name, ts | .retentionMissing name, ts =>
      ∃ at' us, ts = at' :: us ∧ at'.lexeme = .symbol '@' ∧ qualifiedName us = .ok (name, [])
  | .annotationTwice name, ts | .annotationMismatch _ name, ts =>
      ∃ scope top a, single scope top ts = .ok (a, []) ∧ name = a.name
  | .fieldTypeExpected name, ts | .undefinedFieldType name, ts => qualifiedName ts = .ok (name, [])
  | .duplicateField field _, ts => ts.map (·.lexeme) = [.word field]
  | .unknownField field _, ts | .duplicateValue field, ts =>
      ts.map (·.lexeme) = [.word field, .symbol '=']
  | .malformedFloating _ text, ts => ∃ spelling, floatingSpelling ts = .ok (spelling, []) ∧
      text = String.ofList (dropWidthMark spelling.toList)
  | .signatureExpected, ts => ts.map (·.lexeme) = [.symbol ':']
  | .conflictingCastTypes _ type, ts => castType ts = .ok (type, [])
  | _, ts => ts = []

/-- The tokens from the one at which a failure is, where the culprit is followed by others. -/
def noticedAt (c : Cause) (culprit left : List Token) : List Token :=
  if c.isLate then left else culprit ++ left

/-! ## Readers that look one token ahead -/

section

variable {α β : Type} {mayEnd : Bool}

/-- The text goes on with the same token as another, or it ends. -/
def Like (ts us : List Token) : Prop := us = [] ∨ us.head? = ts.head?

/-- The reader misses something at the end of the text. -/
def Misses (a : Read α) : Prop := ∃ c, Culprit c [] ∧ a = .error ⟨none, c⟩

/-- The reader has come to the end of the text: it misses something there, or it may end there and
has read everything. -/
def AtEnd (mayEnd : Bool) (a : Read α) : Prop := Misses a ∨ mayEnd = true ∧ ∃ x, a = .ok (x, [])

/-- The reader decides by the tokens that it takes and the next one. -/
inductive LocalAt (mayEnd : Bool) (r : List Token → Read α) (ts : List Token) : Prop
  /-- It reads the first tokens, whatever follows the next one. -/
  | ok (x : α) (used : List Token) {rest : List Token} (hts : ts = used ++ rest)
      (h : ∀ rest', Like rest rest' → r (used ++ rest') = .ok (x, rest'))
  /-- It misses something at the end of the text. -/
  | short (h : Misses (r ts))
  /-- It fails at the culprit, whatever follows, and not before. -/
  | error {c : Cause} (before culprit : List Token) {left : List Token}
      (hts : ts = before ++ culprit ++ left)
      (hne : culprit ++ left ≠ []) (hc : Culprit c culprit) (hb : AtEnd mayEnd (r before))
      (h : ∀ left', Like left left' → culprit ++ left' ≠ [] →
        r (before ++ culprit ++ left') = fail c (noticedAt c culprit left'))

/-- A text is wrong at the culprit: what comes before is no reason to fail, and the reader fails for
this cause however the text goes on after the next token. -/
structure Offends (r : List Token → Read α) (c : Cause) (before culprit left : List Token) :
    Prop where
  about : Culprit c culprit
  fine : AtEnd true (r before)
  wrong : ∀ left', Like left left' → (culprit ++ left' = [] → left = []) →
    ∃ f, r (before ++ culprit ++ left') = .error f ∧ f.cause = c

/-- A text goes on as it does itself. -/
theorem Like.refl (ts : List Token) : Like ts ts := .inr rfl

/-- A text that ends goes on as any other. -/
theorem Like.nil (ts : List Token) : Like ts [] := .inl rfl

/-- What is put before two texts that go on alike decides how they go on. -/
theorem Like.append {ts us : List Token} (h : Like ts us) (vs : List Token) :
    Like (vs ++ ts) (vs ++ us) := by
  cases vs with
  | nil => exact h
  | cons v vs => exact .inr rfl

/-- A text goes on as each of its beginnings does. -/
theorem Like.of_append (ts us : List Token) : Like (ts ++ us) ts := by
  cases ts with
  | nil => exact .nil us
  | cons t ts => exact .inr rfl

/-- A lexeme that does not come next does not come next where the text ends or goes on alike. -/
theorem Like.accept {ts us : List Token} (h : Like ts us) {l : Lexeme} (hn : accept l ts = none) :
    accept l us = none := by
  cases us with
  | nil => rfl
  | cons u us =>
    obtain h | h := h
    · cases h
    cases ts with
    | nil => cases h
    | cons t ts =>
      obtain rfl : u = t := Option.some.inj h
      simp only [Reader.accept] at hn ⊢
      split at hn
      · cases hn
      · next hl => rw [if_neg hl]

/-- A reader that misses something at the end has come to it. -/
theorem AtEnd.weaken {a : Read α} (h : AtEnd false a) : AtEnd mayEnd a := by
  obtain h | ⟨hf, -⟩ := h
  · exact .inl h
  · cases hf

/-- A reader that is local without ending early is local. -/
theorem LocalAt.weaken {r : List Token → Read α} {ts : List Token} (h : LocalAt false r ts) :
    LocalAt mayEnd r ts := by
  cases h with
  | ok x used hts h => exact .ok _ _ hts h
  | short h => exact .short h
  | error before culprit hts hne hc hb h => exact .error _ _ hts hne hc hb.weaken h

/-- A local reader that fails has a culprit, and tells its line or the line after it. -/
theorem LocalAt.offends {r : List Token → Read α} {ts : List Token} {f : Failure}
    (h : LocalAt true r ts) (hf : r ts = .error f) :
    ∃ before culprit left, ts = before ++ culprit ++ left ∧
      Offends r f.cause before culprit left ∧
      f.line = (noticedAt f.cause culprit left).head?.map (·.line) := by
  cases h with
  | ok x used hts h =>
    rw [hts, h _ (.refl _)] at hf
    cases hf
  | short h =>
    obtain ⟨c, hc, h⟩ := h
    rw [h] at hf
    cases hf
    refine ⟨ts, [], [], by simp, ⟨hc, .inl ⟨c, hc, h⟩, fun left' hl _ => ?_⟩, ?_⟩
    · obtain rfl : left' = [] := hl.elim id fun h => List.head?_eq_none_iff.1 h
      exact ⟨_, by simpa using h, rfl⟩
    · simp [noticedAt]
  | @error c before culprit left hts hne hc hb h =>
    rw [hts, h left (.refl left) hne] at hf
    cases hf
    refine ⟨before, culprit, left, hts, ⟨hc, hb, fun left' hl he => ?_⟩, rfl⟩
    refine ⟨_, h left' hl fun hnil => ?_, rfl⟩
    obtain ⟨rfl, rfl⟩ := List.append_eq_nil_iff.1 hnil
    exact hne (he hnil)

/-- A reader that reads nothing at the end of the text is local there. -/
theorem LocalAt.of_nil {r : List Token → Read α} {x : α} (h : r [] = .ok (x, [])) :
    LocalAt mayEnd r [] := by
  refine .ok x [] rfl fun rest' hl => ?_
  obtain rfl : rest' = [] := hl.elim id fun h => List.head?_eq_none_iff.1 h
  exact h

/-! ## Forms of readers -/

/-- Reads nothing and gives a result. -/
def done (x : α) (ts : List Token) : Read α := .ok (x, ts)

/-- Reads one token. -/
def take (f : Lexeme → Option α) (c : Cause) : List Token → Read α
  | [] => fail c []
  | t :: rest =>
    match f t.lexeme with
    | some x => .ok (x, rest)
    | none => fail c (t :: rest)

/-- Goes on in one way after a lexeme, and in another where it does not come first. -/
def onLexeme (l : Lexeme) (yes no : List Token → Read α) (ts : List Token) : Read α :=
  match accept l ts with
  | some rest => yes rest
  | none => no ts

/-- What follows a symbol or a keyword that has to come. -/
def expect (l : Lexeme) (ts : List Token) : Except Failure (List Token) :=
  match accept l ts with
  | some rest => .ok rest
  | none => fail (.expected (l.spelling?.getD "")) ts

/-- Goes on after a symbol or a keyword that has to come. -/
def expecting (l : Lexeme) (next : List Token → Read α) (ts : List Token) : Read α :=
  match expect l ts with
  | .error e => .error e
  | .ok rest => next rest

/-- Reads one token if it is of a kind. -/
def optional (f : Lexeme → Option α) : List Token → Read (Option α)
  | [] => .ok (none, [])
  | t :: rest =>
    match f t.lexeme with
    | some x => .ok (some x, rest)
    | none => .ok (none, t :: rest)

/-- Goes on with the result of another reader. -/
def andThen (r : List Token → Read α) (next : α → List Token → Read β) (ts : List Token) : Read β :=
  match r ts with
  | .error e => .error e
  | .ok (x, rest) => next x rest

/-- Checks the result of another reader. Where the check fails, what has been read is the
culprit. -/
def demand (r : List Token → Read α) (check : α → Except Cause β) (ts : List Token) : Read β :=
  match r ts with
  | .error e => .error e
  | .ok (x, rest) =>
    match check x with
    | .ok y => .ok (y, rest)
    | .error c => fail c (if c.isLate then rest else ts)

/-- A reader that goes on in one way behind a lexeme, and in the other where it does not come next,
decides by the lexeme. -/
theorem eq_onLexeme {l : Lexeme} {yes no : List Token → Read α} {ts : List Token} {a : Read α}
    (hyes : ∀ rest, accept l ts = some rest → a = yes rest) (hno : accept l ts = none → a = no ts) :
    a = onLexeme l yes no ts := by
  cases ha : accept l ts with
  | none => simp only [onLexeme, ha, hno ha]
  | some rest => simp only [onLexeme, ha, hyes rest ha]

/-- A reader that fails without a lexeme, and goes on behind it, expects the lexeme. -/
theorem eq_expecting {l : Lexeme} {next : List Token → Read α} {ts : List Token} {a : Read α}
    (herror : ∀ e, expect l ts = .error e → a = .error e)
    (hok : ∀ rest, expect l ts = .ok rest → a = next rest) : a = expecting l next ts := by
  cases he : expect l ts with
  | error e => simp only [expecting, he, herror e he]
  | ok rest => simp only [expecting, he, hok rest he]

/-- A reader that fails where another one does, and goes on with its result, comes after it. -/
theorem eq_andThen {r : List Token → Read α} {next : α → List Token → Read β} {ts : List Token}
    {a : Read β} (herror : ∀ e, r ts = .error e → a = .error e)
    (hok : ∀ x rest, r ts = .ok (x, rest) → a = next x rest) : a = andThen r next ts := by
  cases hr : r ts with
  | error e => simp only [andThen, hr, herror e hr]
  | ok read => simp only [andThen, hr, hok read.1 read.2 hr]

/-- Giving a result without reading is local. -/
theorem LocalAt.done (x : α) (ts : List Token) : LocalAt mayEnd (done x) ts :=
  .ok _ [] rfl fun _ _ => rfl

/-- A reader that only fails is about the token that comes next. -/
theorem LocalAt.fail {c : Cause} (hc : Culprit c []) (ts : List Token) :
    LocalAt mayEnd (α := α) (fail c) ts := by
  cases ts with
  | nil => exact .short ⟨c, hc, rfl⟩
  | cons t ts =>
    refine .error [] [] rfl (by simp) hc (.inl ⟨c, hc, rfl⟩) fun left' _ _ => ?_
    simp [noticedAt]

/-- Taking the next lexeme, where nothing is what the cause is about, is local. -/
theorem LocalAt.take {f : Lexeme → Option α} {c : Cause} (hc : Culprit c []) (ts : List Token) :
    LocalAt mayEnd (take f c) ts := by
  cases ts with
  | nil => exact .short ⟨c, hc, rfl⟩
  | cons t ts =>
    cases hf : f t.lexeme with
    | some x =>
      refine .ok x [t] rfl fun rest' _ => ?_
      simp [Reader.take, hf]
    | none =>
      refine .error [] [] rfl (by simp) hc (.inl ⟨c, hc, rfl⟩)
        fun left' hlike hne => ?_
      cases left' with
      | nil => exact absurd rfl hne
      | cons u us =>
        obtain h | h := hlike
        · cases h
        obtain rfl : u = t := Option.some.inj h
        simp [Reader.take, hf, noticedAt]

/-- A lexeme that is accepted is that of the first token. -/
theorem accept_eq_some_iff {l : Lexeme} {ts rest : List Token} :
    accept l ts = some rest ↔ ∃ line, ts = ⟨l, line⟩ :: rest := by
  constructor
  · intro h
    cases ts with
    | nil => cases h
    | cons t ts =>
      rw [accept] at h
      split at h
      · next ht =>
        cases h
        exact ⟨t.line, by rw [← ht]⟩
      · cases h
  · rintro ⟨line, rfl⟩
    exact accept_self l line rest

/-- Where the lexeme comes next, the decision is to go on behind it. -/
theorem onLexeme_of_some {l : Lexeme} {yes no : List Token → Read α} {ts rest : List Token}
    (h : accept l ts = some rest) : onLexeme l yes no ts = yes rest := by
  rw [onLexeme, h]

/-- Where the lexeme does not come next, the decision is to go on without it. -/
theorem onLexeme_of_none {l : Lexeme} {yes no : List Token → Read α} {ts : List Token}
    (h : accept l ts = none) : onLexeme l yes no ts = no ts := by
  rw [onLexeme, h]

/-- At a lexeme the reader goes on after it, and otherwise it goes on in the other way, at the end
of the text too. -/
theorem LocalAt.onLexeme {l : Lexeme} {yes no : List Token → Read α} {ts : List Token}
    (hyes : ∀ rest, accept l ts = some rest → LocalAt mayEnd yes rest)
    (hno : accept l ts = none → LocalAt mayEnd no ts) : LocalAt mayEnd (onLexeme l yes no) ts := by
  cases ha : accept l ts with
  | none =>
    have hsame {us : List Token} (h : Like ts us) : Reader.onLexeme l yes no us = no us := by
      rw [onLexeme_of_none (h.accept ha)]
    cases hno ha with
    | ok x used hts h =>
      subst hts
      exact .ok _ _ rfl fun rest' hl => (hsame (hl.append _)).trans (h rest' hl)
    | short h => exact .short ((hsame (.refl ts)).symm ▸ h)
    | error before culprit hts hne hc hb h =>
      subst hts
      refine .error _ _ rfl hne hc ?_ fun left' hl hne' =>
        (hsame (hl.append _)).trans (h left' hl hne')
      rwa [hsame (by rw [List.append_assoc]; exact .of_append _ _)]
  | some rest =>
    obtain ⟨line, rfl⟩ := accept_eq_some_iff.1 ha
    have hsame (us : List Token) : Reader.onLexeme l yes no (⟨l, line⟩ :: us) = yes us :=
      onLexeme_of_some (accept_self l line us)
    cases hyes rest ha with
    | @ok x used left hts h =>
      exact .ok _ (⟨l, line⟩ :: used) (by rw [hts]; rfl) fun rest' hl =>
        (hsame _).trans (h rest' hl)
    | short h => exact .short ((hsame rest).symm ▸ h)
    | @error c before culprit left hts hne hc hb h =>
      refine .error (⟨l, line⟩ :: before) _ (by rw [hts]; rfl) hne hc ?_
        fun left' hl hne' => (hsame _).trans (h left' hl hne')
      rwa [hsame]

/-- Expecting a lexeme is deciding by it and failing without it. -/
theorem expecting_eq_onLexeme (l : Lexeme) (next : List Token → Read α) :
    expecting l next = onLexeme l next (fail (.expected (l.spelling?.getD ""))) := by
  funext ts
  rw [Reader.expecting, expect, Reader.onLexeme]
  cases accept l ts <;> rfl

/-- Expecting a lexeme is local where going on behind it is. -/
theorem LocalAt.expecting {l : Lexeme} {next : List Token → Read α} {ts : List Token}
    (h : ∀ rest, accept l ts = some rest → LocalAt mayEnd next rest) :
    LocalAt mayEnd (expecting l next) ts := by
  rw [expecting_eq_onLexeme]
  exact .onLexeme h fun _ => .fail (by rfl) ts

/-- A lexeme that is expected and comes next is passed. -/
theorem expecting_self (l : Lexeme) (next : List Token → Read α) (line : Nat) (ts : List Token) :
    expecting l next (⟨l, line⟩ :: ts) = next ts := by
  rw [expecting_eq_onLexeme]
  exact onLexeme_of_some (accept_self l line ts)

/-- What reads an expected lexeme goes on behind it. -/
theorem expecting_eq_ok {l : Lexeme} {next : List Token → Read α} {ts rest : List Token} {x : α}
    (h : expecting l next ts = .ok (x, rest)) :
    ∃ line more, ts = ⟨l, line⟩ :: more ∧ next more = .ok (x, rest) := by
  cases ha : accept l ts with
  | none =>
    rw [expecting_eq_onLexeme, onLexeme_of_none ha] at h
    cases h
  | some more =>
    obtain ⟨line, rfl⟩ := accept_eq_some_iff.1 ha
    rw [expecting_self] at h
    exact ⟨line, more, rfl, h⟩

/-- Taking the next lexeme if it is one that is wanted is local. -/
theorem LocalAt.optional (f : Lexeme → Option α) (ts : List Token) :
    LocalAt mayEnd (optional f) ts := by
  cases ts with
  | nil => exact .of_nil rfl
  | cons t ts =>
    cases hf : f t.lexeme with
    | some x =>
      refine .ok (some x) [t] rfl fun rest' _ => ?_
      simp [Reader.optional, hf]
    | none =>
      refine .ok none [] rfl fun rest' hl => ?_
      cases rest' with
      | nil => rfl
      | cons u us =>
        obtain h | h := hl
        · cases h
        obtain rfl : u = t := Option.some.inj h
        simp [Reader.optional, hf]

/-- Where the first reader reads, the second one goes on behind it. -/
theorem andThen_of_ok {r : List Token → Read α} {next : α → List Token → Read β}
    {ts rest : List Token} {x : α} (h : r ts = .ok (x, rest)) :
    andThen r next ts = next x rest := by
  rw [andThen, h]

/-- Where the first reader fails, so do both together. -/
theorem andThen_of_error {r : List Token → Read α} {next : α → List Token → Read β}
    {ts : List Token} {e : Failure} (h : r ts = .error e) : andThen r next ts = .error e := by
  rw [andThen, h]

/-- What two readers read together is read by one after the other. -/
theorem andThen_eq_ok {r : List Token → Read α} {next : α → List Token → Read β}
    {ts rest : List Token} {y : β} (h : andThen r next ts = .ok (y, rest)) :
    ∃ x more, r ts = .ok (x, more) ∧ next x more = .ok (y, rest) := by
  rw [andThen] at h
  split at h
  · cases h
  · next x more hr => exact ⟨x, more, hr, h⟩

/-- A reader that goes on with the result of another is local where both are. Where the first may
end with the text, the second may too. -/
theorem LocalAt.andThen_end {starts : Bool} {r : List Token → Read α}
    {next : α → List Token → Read β} {ts : List Token} (hr : LocalAt starts r ts)
    (hend : starts = true → ∀ x, AtEnd mayEnd (next x []))
    (hnext : ∀ x rest, r ts = .ok (x, rest) → LocalAt mayEnd (next x) rest) :
    LocalAt mayEnd (andThen r next) ts := by
  cases hr with
  | @ok x used rest hts h =>
    subst hts
    have hsame {us : List Token} (hl : Like rest us) :
        andThen r next (used ++ us) = next x us := andThen_of_ok (h us hl)
    cases hnext x rest (h rest (.refl rest)) with
    | @ok y used' left hts' h' =>
      subst hts'
      refine .ok y _ (List.append_assoc used used' left).symm fun rest' hl => ?_
      rw [List.append_assoc, hsame (hl.append _), h' rest' hl]
    | short h' => exact .short ((hsame (.refl rest)).symm ▸ h')
    | @error c before culprit left hts' hne hc hb h' =>
      subst hts'
      refine .error (used ++ before) _ (by simp) hne hc ?_ fun left' hl hne' => ?_
      · rwa [hsame (by rw [List.append_assoc]; exact .of_append _ _)]
      · rw [List.append_assoc, List.append_assoc, ← List.append_assoc before,
          hsame (hl.append _), h' left' hl hne']
  | short h =>
    obtain ⟨c, hc, h⟩ := h
    exact .short ⟨c, hc, andThen_of_error h⟩
  | error before culprit hts hne hc hb h =>
    refine .error _ _ hts hne hc ?_ fun left' hl hne' => andThen_of_error (h left' hl hne')
    obtain ⟨c', hc', hb⟩ | ⟨hs, x, hb⟩ := hb
    · exact .inl ⟨c', hc', andThen_of_error hb⟩
    · rw [andThen_of_ok hb]
      exact hend hs x

/-- Two readers, one after the other, are local where each of them is. -/
theorem LocalAt.andThen {r : List Token → Read α} {next : α → List Token → Read β}
    {ts : List Token} (hr : LocalAt false r ts)
    (hnext : ∀ x rest, r ts = .ok (x, rest) → LocalAt mayEnd (next x) rest) :
    LocalAt mayEnd (andThen r next) ts :=
  hr.andThen_end (fun h => by cases h) hnext

/-- A result that is not what is demanded is where reading fails, or behind it. -/
theorem demand_of_error {r : List Token → Read α} {check : α → Except Cause β}
    {ts rest : List Token} {x : α} {c : Cause} (h : r ts = .ok (x, rest))
    (hc : check x = .error c) :
    demand r check ts = fail c (if c.isLate then rest else ts) := by
  simp only [demand, h, hc]

/-- A result that is what is demanded is read. -/
theorem demand_of_ok {r : List Token → Read α} {check : α → Except Cause β}
    {ts rest : List Token} {x : α} {y : β} (h : r ts = .ok (x, rest)) (hc : check x = .ok y) :
    demand r check ts = .ok (y, rest) := by
  simp only [demand, h, hc]

/-- A reader that checks the result of another is local where that is: nothing that comes before the
culprit is checked, since the text cannot end there. -/
theorem LocalAt.demand {r : List Token → Read α} {check : α → Except Cause β} {ts : List Token}
    (hr : LocalAt false r ts) (hnil : Misses (r []))
    (hcheck : ∀ x c used, r used = .ok (x, []) → check x = .error c → Culprit c used) :
    LocalAt mayEnd (demand r check) ts := by
  have hmisses {us : List Token} (h : Misses (r us)) : Misses (Reader.demand r check us) := by
    obtain ⟨c, hc, h⟩ := h
    exact ⟨c, hc, by rw [Reader.demand, h]⟩
  cases hr with
  | @ok x used rest hts h =>
    subst hts
    have hused : r used = .ok (x, []) := by
      have := h [] (.nil rest)
      rwa [List.append_nil] at this
    cases hx : check x with
    | ok y =>
      refine .ok y _ rfl fun rest' hl => ?_
      simp only [Reader.demand, h rest' hl, hx]
    | error c =>
      have hne : used ≠ [] := by
        rintro rfl
        obtain ⟨c, -, hnil⟩ := hnil
        rw [hnil] at hused
        cases hused
      refine .error [] _ rfl (by simp [hne]) (hcheck x c used hused hx)
        (.inl (hmisses hnil)) fun left' hl _ => ?_
      simp only [Reader.demand, List.nil_append, h left' hl, hx, noticedAt]
  | short h => exact .short (hmisses h)
  | error before culprit hts hne hc hb h =>
    refine .error _ _ hts hne hc ?_ fun left' hl hne' => ?_
    · obtain hb | ⟨hf, -⟩ := hb
      · exact .inl (hmisses hb)
      · cases hf
    · have := h left' hl hne'
      rw [Reader.fail] at this ⊢
      rw [Reader.demand, this]

/-- A reader that misses something where there is nothing takes at least one token. -/
theorem LocalAt.shorter {r : List Token → Read α} {ts rest : List Token} {x : α}
    (h : LocalAt mayEnd r ts) (hnil : Misses (r [])) (hok : r ts = .ok (x, rest)) :
    rest.length < ts.length := by
  obtain ⟨c, -, hnil⟩ := hnil
  cases h with
  | @ok y used left hts h =>
    have hsame := h left (.refl left)
    rw [← hts, hok, Except.ok.injEq, Prod.mk.injEq] at hsame
    obtain ⟨-, rfl⟩ := hsame
    have hne : used ≠ [] := by
      rintro rfl
      have := h [] (.nil rest)
      rw [List.append_nil, hnil] at this
      cases this
    have := List.length_pos_iff.2 hne
    rw [hts, List.length_append]
    omega
  | short h =>
    obtain ⟨c, -, h⟩ := h
    rw [h] at hok
    cases hok
  | @error c before culprit left hts hne hc hb h =>
    have := h left (.refl left) hne
    rw [← hts, hok, Reader.fail] at this
    cases this

/-- Where a reader does the same as another whenever this token comes first, it is local as that one
is, if that one takes the token. -/
theorem LocalAt.of_head {r r' : List Token → Read α} {t : Token} {ts : List Token}
    (h : LocalAt mayEnd r' (t :: ts)) (hnil : AtEnd mayEnd (r []))
    (hsame : ∀ us, r (t :: us) = r' (t :: us))
    (htakes : ∀ x rest, r' (t :: ts) = .ok (x, rest) → rest.length < (t :: ts).length) :
    LocalAt mayEnd r (t :: ts) := by
  have hlike {us : List Token} (hl : Like (t :: ts) us) (hne : us ≠ []) : r us = r' us := by
    cases us with
    | nil => exact absurd rfl hne
    | cons u us =>
      obtain h | h := hl
      · cases h
      obtain rfl : u = t := Option.some.inj h
      exact hsame us
  cases h with
  | @ok x used rest hts h =>
    have hne : used ≠ [] := by
      rintro rfl
      rw [List.nil_append] at hts
      have := h rest (.refl rest)
      rw [List.nil_append, ← hts] at this
      exact absurd (htakes x _ this) (Nat.lt_irrefl _)
    refine .ok x _ hts fun rest' hl => ?_
    rw [hlike (by rw [hts]; exact hl.append _) (by simp [hne]), h rest' hl]
  | short h => exact .short (hsame ts ▸ h)
  | @error c before culprit left hts hne hc hb h =>
    refine .error _ _ hts hne hc ?_ fun left' hl hne' => ?_
    · by_cases hbefore : before = []
      · rwa [hbefore]
      · rwa [hlike (by rw [hts, List.append_assoc]; exact .of_append _ _) hbefore]
    · rw [← h left' hl hne', List.append_assoc]
      refine hlike ?_ (by simp [hne'])
      rw [hts, List.append_assoc]
      exact (hl.append _).append _

end

end Reader

end AnnotationIndex
