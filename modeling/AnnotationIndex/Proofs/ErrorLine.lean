import AnnotationIndex.Proofs.Deposit
import AnnotationIndex.Proofs.Locality.Definition

/-!
# The lines of errors

A text that is not read has a literal that is wrong, or tokens that are (`Scene.Offence`). The error
tells the line on which these start, or the line after them where the cause is noticed late
(`Scene.ofText_offence`). The latter is a line below as soon as a line break comes in between
(`Scene.error_below_offence`).

To read statement after statement into a scene is, altogether, to read the tokens of the text
(`readTokens`). This reader is local, since every statement is (`readTokens_local`): a deposit that
the scene refuses is a check of what the statement has read.
-/

namespace AnnotationIndex

open Reader Text

namespace Scene

/-! ## Reading statement after statement -/

/-- Reads the rest of a text into a scene: nothing is left, or the rest cannot be read, or a deposit
is refused. -/
def readTokens (s : Scene) (st : State) (ts : List Token) : Read Unit :=
  match (s.load (run st ts).1).2 with
  | some refused => .error ⟨some refused.line, refused.cause⟩
  | none =>
    match (run st ts).2 with
    | some e => .error e
    | none => .ok ((), [])

/-- Goes on after a step. -/
def proceed (s : Scene) (step : Step) : Read Unit :=
  match (s.load step.deposits).2 with
  | some refused => .error ⟨some refused.line, refused.cause⟩
  | none =>
    match step.next with
    | .error e => .error e
    | .ok (st, rest) => (s.load step.deposits).1.readTokens st rest

/-- Where nothing is left, the rest of the text is read. -/
theorem readTokens_nil (s : Scene) (st : State) : s.readTokens st [] = .ok ((), []) := by
  rw [readTokens, run]
  rfl

/-- A rest of a text is read to its end. -/
theorem readTokens_ok {s : Scene} {st : State} {ts rest : List Token} {x : Unit}
    (h : s.readTokens st ts = .ok (x, rest)) : rest = [] := by
  rw [readTokens] at h
  split at h
  · cases h
  · split at h
    · cases h
    · cases h
      rfl

/-- **Reading goes statement by statement**: the step at the first token says what is deposited, and
reading goes on from the scene and the state that it leaves. -/
theorem readTokens_cons (s : Scene) (st : State) (t : Token) (ts : List Token) :
    s.readTokens st (t :: ts) = s.proceed (step st t ts) := by
  rw [readTokens, proceed, run_cons]
  cases hn : (step st t ts).next with
  | error e => rfl
  | ok read =>
    obtain ⟨st', rest⟩ := read
    dsimp only
    cases hl : (s.load (step st t ts).deposits).2 with
    | some e => rw [load_append_of_some hl, hl]
    | none => rw [load_append hl]; rfl

/-- Reading at the end of a text ends there. -/
theorem readTokens_atEnd (s : Scene) (st : State) : AtEnd true (s.readTokens st []) :=
  .inr ⟨rfl, (), readTokens_nil s st⟩

/-! ## One statement -/

section

variable {s : Scene} {st : State} {t : Token} {ts : List Token}

/-- A token at which no statement starts is where reading fails. -/
theorem readTokens_local_of_noStep (hstep : ∀ us, step st t us = noStep st (t :: us)) :
    LocalAt true (s.readTokens st) (t :: ts) := by
  obtain ⟨c, hc, hno⟩ : ∃ c, Culprit c [] ∧ ∀ us, noStep st us = ⟨[], fail c us⟩ := by
    by_cases h : st.inPackage
    · exact ⟨.statementExpected, rfl, fun us => by rw [noStep, if_pos h]⟩
    · exact ⟨.expected "package", rfl, fun us => by rw [noStep, if_neg h]⟩
  have h : LocalAt (α := Unit) true (fail c) (t :: ts) := .fail hc _
  refine h.of_head (s.readTokens_atEnd st) (fun us => ?_) fun _ _ => h.shorter ⟨c, hc, rfl⟩
  rw [readTokens_cons, hstep, hno]
  rfl

/-- A text is local where its first statement and what follows it are. -/
theorem readTokens_local_of_step {α : Type} {r : List Token → Read α}
    (next : α → List Token → Read Unit) (hr : LocalAt true r (t :: ts)) (hnil : Misses (r []))
    (hend : ∀ x, AtEnd true (next x []))
    (hnext : ∀ x rest, rest.length < ts.length + 1 → LocalAt true (next x) rest)
    (hstep : ∀ us, s.proceed (step st t us) = andThen r next (t :: us)) :
    LocalAt true (s.readTokens st) (t :: ts) := by
  have h : LocalAt true (andThen r next) (t :: ts) :=
    hr.andThen_end (fun _ => hend) fun x rest hok => hnext x rest (hr.shorter hnil hok)
  have hmisses : Misses (andThen r next []) := by
    obtain ⟨c, hc, he⟩ := hnil
    exact ⟨c, hc, andThen_of_error he⟩
  exact h.of_head (s.readTokens_atEnd st) (fun us => (readTokens_cons s st t us).trans (hstep us))
    fun _ _ => h.shorter hmisses

variable (ih : ∀ s st us, us.length < ts.length + 1 → LocalAt true (readTokens s st) us)

include ih

/-- A statement that makes one deposit, about all of its tokens and with the line of the first. -/
theorem readTokens_local_of_deposit {α : Type} {r : List Token → Read α} (d : α → Deposit)
    (st' : State) (hr : LocalAt false r (t :: ts)) (hnil : Misses (r []))
    (hrefusal : ∀ x refused l, (d x).refusal? l = some refused →
      refused.line = t.line ∧ ∀ used, r used = .ok (x, []) → Culprit refused.cause used)
    (hstep : ∀ us, step st t us = match r (t :: us) with
      | .error e => ⟨[], .error e⟩
      | .ok (x, rest) => ⟨[d x], .ok (st', rest)⟩) :
    LocalAt true (s.readTokens st) (t :: ts) := by
  let accepted (x : α) : Except Cause Scene :=
    match (d x).refusal? (s.root.labelAt (d x).path) with
    | some refused => .error refused.cause
    | none => .ok (s.modifyAt (d x).path (d x).act)
  have haccepted : LocalAt true (demand r accepted) (t :: ts) := by
    refine hr.demand hnil fun x c used hused hc => ?_
    dsimp only [accepted] at hc
    split at hc
    · next refused hrefused =>
      cases hc
      exact (hrefusal x refused _ hrefused).2 used hused
    · cases hc
  have hmisses : Misses (demand r accepted []) := by
    obtain ⟨c, hc, h⟩ := hnil
    exact ⟨c, hc, by rw [demand, h]⟩
  refine readTokens_local_of_step (fun s => s.readTokens st') haccepted hmisses
    (fun s => s.readTokens_atEnd st') (fun s => ih s st') fun us => ?_
  rw [hstep, andThen, demand]
  cases hread : r (t :: us) with
  | error e => rfl
  | ok read =>
    obtain ⟨x, rest⟩ := read
    dsimp only [accepted]
    cases hd : (d x).refusal? (s.root.labelAt (d x).path) with
    | some refused =>
      have hearly : refused.cause.isLate = false := by
        obtain ⟨name, hc⟩ | ⟨existing, found, hc⟩ := Deposit.refusal?_cause hd <;> rw [hc] <;> rfl
      simp only [proceed, load_cons_of_some hd, (hrefusal x refused _ hd).1, hearly]
      rfl
    | none =>
      simp only [proceed, load_cons_of_none hd]
      rfl

/-- An annotation that is read, or that fails, or that is refused, leaves the error on its lines. -/
theorem readTokens_local_of_mark {path : Path}
    (hstep : ∀ us, step st t us = markStep st path t.line (t :: us)) :
    LocalAt true (s.readTokens st) (t :: ts) := by
  refine readTokens_local_of_deposit ih (fun a => .mark path a t.line) st
    (single_local st.scope true _) ⟨.expected "@", by rfl, by rw [single_eq]; rfl⟩
    (fun a refused l hr => ?_) fun us => ?_
  · rw [Deposit.eq_of_refusal?_mark hr]
    exact ⟨rfl, fun used hused => ⟨st.scope, true, a, hused, rfl⟩⟩
  · rw [hstep, markStep]
    cases single st.scope true (t :: us) <;> rfl

/-- A cast type that is read, or that fails, or that is refused, leaves the error on its lines. -/
theorem readTokens_local_of_castType {path : Path}
    (hstep : ∀ us, step st t us = castTypeStep st path t.line (t :: us)) :
    LocalAt true (s.readTokens st) (t :: ts) := by
  refine readTokens_local_of_deposit ih (fun type => .castType path type t.line)
    { st with target := none } (castType_local _)
    ⟨.identifierExpected, by rfl, by rw [castType_eq]; rfl⟩ (fun type refused l hr => ?_)
    fun us => ?_
  · obtain ⟨existing, rfl⟩ := Deposit.eq_of_refusal?_castType hr
    exact ⟨rfl, fun used hused => hused⟩
  · rw [hstep, castTypeStep]
    cases castType (t :: us) <;> rfl

/-- A definition that is read or that fails leaves the error on its lines. -/
theorem readTokens_local_of_definition (ht : t.lexeme = .word "annotation")
    (hstep : ∀ us, step st t us = definitionStep st t.line us) :
    LocalAt true (s.readTokens st) (t :: ts) := by
  refine readTokens_local_of_step (fun d => s.readTokens
      ⟨st.inPackage, { st.scope with definitions := st.scope.definitions ++ [d] }, none, []⟩)
    (definitionFrom_local st.scope _) ⟨.expected "annotation", by rfl, rfl⟩
    (fun d => s.readTokens_atEnd _) (fun d => ih s _) fun us => ?_
  obtain ⟨l, line⟩ := t
  obtain rfl : l = .word "annotation" := ht
  rw [hstep, definitionStep, andThen, definition_eq_definitionFrom]
  cases definitionFrom st.scope (⟨.word "annotation", line⟩ :: us) <;> rfl

/-- The header of a class that is read or that fails leaves the error on its lines. -/
theorem readTokens_local_of_class (ht : t.lexeme = .word "class")
    (hstep : ∀ us, step st t us = classStep st us) : LocalAt true (s.readTokens st) (t :: ts) := by
  let path (name : String) : Path := [.typeDecl (qualify st.scope.package name)]
  have hheader : LocalAt true (expecting (.word "class")
      (andThen identifier fun name => expecting (.symbol ':') (done name))) (t :: ts) :=
    .expecting fun rest _ => (identifier_local rest).andThen fun name rest _ =>
      .expecting fun rest _ => .done name rest
  refine readTokens_local_of_step
    (fun name => (s.modifyAt (path name) id).readTokens
      { st with target := some ⟨path name, false⟩, frames := [⟨.typeDecl, path name⟩] })
    hheader ⟨.expected "class", by rfl, rfl⟩ (fun name => readTokens_atEnd _ _) (fun name => ih _ _)
    fun us => ?_
  obtain ⟨l, line⟩ := t
  obtain rfl : l = .word "class" := ht
  rw [hstep, classStep, andThen, expecting_self]
  rcases hi : identifier us with e | ⟨name, more⟩
  · simp only [andThen, hi]
    rfl
  · cases he : expect (.symbol ':') more <;>
      simp only [andThen, expecting, expectSymbol_eq_expect, done, hi, he] <;> rfl

/-- The header of a section that is read or that fails leaves the error on its lines. -/
theorem readTokens_local_of_section {w : String} (ht : t.lexeme = .word w) {x : Section}
    {frame : Frame} {outer : List Frame}
    (hstep : ∀ us, step st t us = sectionStep st x frame outer us) :
    LocalAt true (s.readTokens st) (t :: ts) := by
  have hheader : LocalAt true (expecting (.word w) (header x)) (t :: ts) :=
    .expecting fun rest _ => (header_local x rest).weaken
  obtain ⟨l, line⟩ := t
  obtain rfl : l = .word w := ht
  let owner := frame.path ++ frame.context.lead x
  let lead : List Path := if (frame.context.lead x).isEmpty then [] else [owner]
  let inner (slot : Slot) : List Frame := x.context?.toList.map fun context =>
    ⟨context, owner ++ [slot]⟩
  refine readTokens_local_of_step
    (fun slot => (s.load ((lead ++ [owner ++ [slot]]).map .element)).1.readTokens
      { st with
        target := if x.isMarked then some ⟨owner ++ [slot], x = .castInsertion⟩ else none
        frames := inner slot ++ frame.resume x :: outer })
    hheader ⟨.expected w, by rfl, rfl⟩ (fun slot => readTokens_atEnd _ _) (fun slot => ih _ _)
    fun us => ?_
  have hlead : (if (frame.context.lead x).isEmpty then [] else [Deposit.element owner]) =
      lead.map .element := by
    dsimp only [lead]
    split <;> rfl
  rw [hstep, andThen, expecting_self, sectionStep]
  cases header x us with
  | error e =>
    dsimp only
    rw [hlead, proceed, load_elements]
  | ok read =>
    cases hcontext : x.context? <;>
    · dsimp only
      rw [hlead, proceed, ← List.map_singleton, ← List.map_append, load_elements]
      simp only [inner, owner, hcontext, Option.toList, List.map_cons, List.map_nil]

/-- The header of a package that is read, fails or is refused leaves the error on its lines. -/
theorem readTokens_local_of_package (ht : t.lexeme = .word "package")
    (hstep : ∀ us, step st t us = packageStep st us) :
    LocalAt true (s.readTokens st) (t :: ts) := by
  let scene (name : String) (us : List Token) : Scene :=
    if (acceptSymbol '@' us).isSome then s.modifyAt [.package name] id else s
  let state (name : String) : State :=
    ⟨true, { st.scope with package := name }, some ⟨[.package name], false⟩, []⟩
  have hname : LocalAt true (expecting (.word "package") packageName) (t :: ts) :=
    .expecting fun rest _ => (packageName_local rest).weaken
  have hend (name : String) : AtEnd true ((scene name []).readTokens (state name) []) :=
    readTokens_atEnd _ _
  refine readTokens_local_of_step
    (fun name us => (scene name us).readTokens (state name) us)
    hname ⟨.expected "package", by rfl, rfl⟩ hend (fun name rest hrest => ?_) fun us => ?_
  · cases rest with
    | nil => exact .of_nil (readTokens_nil _ _)
    | cons u us =>
      refine (ih (scene name (u :: us)) (state name) _ hrest).of_head (hend name) (fun vs => ?_)
        fun _ left hok => ?_
      · have hscene : scene name (u :: vs) = scene name (u :: us) := by
          by_cases hu : u.lexeme = .symbol '@' <;> simp [scene, accept, hu]
        rw [hscene]
      · rw [readTokens_ok hok]
        exact Nat.succ_pos _
  · obtain ⟨l, line⟩ := t
    obtain rfl : l = .word "package" := ht
    rw [hstep, packageStep, andThen, expecting_self]
    cases packageName us with
    | error e => rfl
    | ok read =>
      dsimp only [proceed, scene]
      cases acceptSymbol '@' read.2 <;> rfl

/-- Whatever statement a word starts, the error is on its lines. -/
theorem readTokens_local_of_word {w : String} (ht : t.lexeme = .word w)
    (hstep : ∀ us, step st t us = wordStep st w t.line us) :
    LocalAt true (s.readTokens st) (t :: ts) := by
  have hno (h : ∀ us, wordStep st w t.line us = noStep st (⟨.word w, t.line⟩ :: us)) :
      LocalAt true (s.readTokens st) (t :: ts) :=
    readTokens_local_of_noStep fun us => by rw [hstep, h, ← ht]
  by_cases hpackage : w = "package"
  · subst hpackage
    exact readTokens_local_of_package ih ht fun us => by rw [hstep, wordStep, if_pos rfl]
  by_cases hin : st.inPackage = false
  · exact hno fun us => by rw [wordStep, if_neg hpackage, if_pos hin]
  by_cases hannotation : w = "annotation"
  · subst hannotation
    exact readTokens_local_of_definition ih ht fun us => by
      rw [hstep, wordStep, if_neg hpackage, if_neg hin, if_pos rfl]
  by_cases hclass : w = "class"
  · subst hclass
    exact readTokens_local_of_class ih ht fun us => by
      rw [hstep, wordStep, if_neg hpackage, if_neg hin, if_neg hannotation, if_pos rfl]
  cases hx : Section.ofKeyword? w with
  | none =>
    exact hno fun us => by
      simp only [wordStep, if_neg hpackage, if_neg hin, if_neg hannotation, if_neg hclass, hx]
  | some x =>
    cases hf : Frame.find? x st.frames with
    | none =>
      exact hno fun us => by
        simp only [wordStep, if_neg hpackage, if_neg hin, if_neg hannotation, if_neg hclass, hx, hf]
    | some found =>
      have hfound (us : List Token) : step st t us = sectionStep st x found.1 found.2 us := by
        rw [hstep]
        simp only [wordStep, if_neg hpackage, if_neg hin, if_neg hannotation, if_neg hclass, hx, hf]
      exact readTokens_local_of_section ih ht hfound

omit ih in
/-- A text is local after any beginning. -/
theorem readTokens_local (s : Scene) (st : State) (ts : List Token) :
    LocalAt true (s.readTokens st) ts := by
  cases ts with
  | nil => exact .of_nil (readTokens_nil s st)
  | cons t ts =>
    have ih (s : Scene) (st : State) (us : List Token) (hus : us.length < ts.length + 1) :
        LocalAt true (readTokens s st) us := readTokens_local s st us
    obtain ⟨l, line⟩ := t
    cases l with
    | symbol c =>
      cases htarget : st.target with
      | none => exact readTokens_local_of_noStep fun us => by simp only [step, htarget]
      | some target =>
        by_cases hc : c = '@'
        · have hmark (us : List Token) : step st ⟨.symbol c, line⟩ us =
              markStep st target.path line (⟨.symbol c, line⟩ :: us) := by
            simp only [step, htarget, if_pos hc]
          exact readTokens_local_of_mark ih hmark
        · exact readTokens_local_of_noStep fun us => by simp only [step, htarget, if_neg hc]
    | word w =>
      by_cases hcast : ∃ path, st.target = some ⟨path, true⟩ ∧ isKeyword w = false
      · obtain ⟨path, htarget, hw⟩ := hcast
        have hcast (us : List Token) : step st ⟨.word w, line⟩ us =
            castTypeStep st path line (⟨.word w, line⟩ :: us) := by
          simp [step, htarget, hw]
        exact readTokens_local_of_castType ih hcast
      · refine readTokens_local_of_word ih rfl fun us => ?_
        rw [step]
        dsimp only
        split
        · next path htarget =>
          rw [if_pos]
          by_contra hw
          exact hcast ⟨path, htarget, by simpa using hw⟩
        · rfl
    | string text => exact readTokens_local_of_noStep fun us => rfl
    | char c => exact readTokens_local_of_noStep fun us => rfl
termination_by ts.length

end

/-! ## Whole texts -/

/-- Reading a text fails where reading it into an empty scene does. -/
theorem ofText_eq_error_iff {text : String} {e : ReadError} :
    ofText text = .error e ↔ (empty.read text).2 = some e := by
  rw [ofText]
  generalize empty.read text = r
  obtain ⟨s, failure⟩ := r
  cases failure <;> simp

/-- A text that is not read has no tokens, or they cannot be read into the empty scene. -/
theorem ofText_eq_error {text : String} {e : ReadError} (h : ofText text = .error e) :
    tokenize text = .error e ∨ ∃ t f, tokenize text = .ok t ∧
      empty.readTokens .start t.tokens = .error f ∧ e = ⟨f.line.getD t.lastLine, f.cause⟩ := by
  rw [ofText, read, depositsOf] at h
  cases ht : tokenize text with
  | error e' =>
    rw [ht] at h
    cases h
    exact .inl rfl
  | ok t =>
    rw [ht] at h
    refine .inr ⟨t, ?_⟩
    dsimp only at h
    generalize hl : empty.load (run .start t.tokens).1 = loaded at h
    generalize hr : (run .start t.tokens).2 = failure at h
    obtain ⟨s, refused⟩ := loaded
    cases refused with
    | some =>
      cases h
      exact ⟨⟨some e.line, e.cause⟩, rfl, by simp only [readTokens, hl], rfl⟩
    | none =>
      cases failure with
      | none => cases h
      | some f =>
        cases h
        exact ⟨f, rfl, by simp only [readTokens, hl, hr], rfl⟩

end Scene

/-- The line on which the rest of a text starts. -/
def TokenizedText.lineAt (t : TokenizedText) (rest : List Token) : Nat :=
  (rest.head?.map (·.line)).getD t.lastLine

namespace Scene

/-- Why a text is wrong, on which line that starts which is wrong, and on which line the text goes
on after it. -/
inductive Offence (text : String) : (c : Cause) → (first next : Nat) → Prop
  /-- A literal is wrong. The text has tokens up to its quote, and then the fault shows in the line,
  or at the end of the line. -/
  | literal {before body : List Char} {quote : Char} {ts : List Token} {fault : LiteralFault}
      (split : text.toList = before ++ quote :: body) (start : quote = '"' ∨ quote = '\'')
      (fine : ∀ body', Lexer.tokens 1 (before ++ quote :: body') =
        (Lexer.tokens (1 + before.count '\n') (quote :: body')).map (.prepend ts))
      (wrong : Lexer.lexeme quote body = .error fault)
      (shows : ShowsInLine (Lexer.lexeme quote) body fault) :
      Offence text fault.cause (1 + before.count '\n') (1 + before.count '\n' + fault.lineBreaks)
  /-- Tokens are wrong: those of the culprit, or the next one where the culprit has none. -/
  | tokens {t : TokenizedText} {c : Cause} {before culprit left : List Token}
      (tokenized : tokenize text = .ok t) (split : t.tokens = before ++ culprit ++ left)
      (offends : Offends (empty.readTokens .start) c before culprit left) :
      Offence text c (t.lineAt (culprit ++ left)) (t.lineAt left)

/-- **An error tells the line on which that starts which is wrong**, unless its cause is noticed
late: then it tells the line on which the text goes on. -/
theorem ofText_offence {text : String} {e : ReadError} (h : ofText text = .error e) :
    ∃ first next, Offence text e.cause first next ∧
      e.line = if e.cause.isLate then next else first := by
  obtain h | ⟨t, f, ht, hf, rfl⟩ := ofText_eq_error h
  · obtain ⟨before, quote, body, fault, ts, hsplit, hquote, hread, hl, rfl⟩ := Lexer.tokens_error h
    have hshows := Lexer.lexeme_showsInLine hl
    exact ⟨_, _, .literal hsplit hquote hread hl hshows, (if_pos hshows.late).symm⟩
  · obtain ⟨before, culprit, left, hsplit, hoffends, hline⟩ :=
      (readTokens_local empty .start t.tokens).offends hf
    refine ⟨_, _, .tokens ht hsplit hoffends, ?_⟩
    rw [hline, noticedAt]
    split <;> rfl

/-- A definition that is there already is reported where it starts, however many lines it has. -/
theorem ofText_offence_redefined :
    let text := "package:\nannotation visible @A:\nannotation visible\n  @A:\n  int x\n"
    ofText text = .error ⟨3, .duplicateDefinition "A"⟩ ∧
      ∃ next, Offence text (.duplicateDefinition "A") 3 next := by
  intro text
  have h : ofText text = .error ⟨3, .duplicateDefinition "A"⟩ :=
    ofText_eq_error_iff.2 (by decide +kernel)
  obtain ⟨first, next, hoffence, hline⟩ := ofText_offence h
  obtain rfl : 3 = first := hline
  exact ⟨h, next, hoffence⟩

/-- What is noticed late is reported on a line below that on which it starts, where a line break
comes in between: a literal that ends with its line, and a field that a definition does not have. -/
theorem error_below_offence :
    let literal := "\"a\n"
    let field := "package:\nannotation visible @A:\nclass C: @A(y=\n1)\n"
    (ofText literal = .error ⟨2, .unterminatedLiteral '"'⟩ ∧
      ∀ first next, Offence literal (.unterminatedLiteral '"') first next → first = 1) ∧
    (ofText field = .error ⟨4, .unknownField "y" "A"⟩ ∧
      ∀ first next, Offence field (.unknownField "y" "A") first next → first = 3) := by
  intro literal field
  refine ⟨⟨ofText_eq_error_iff.2 (by decide +kernel), fun first next h => ?_⟩,
    ofText_eq_error_iff.2 (by decide +kernel), fun first next h => ?_⟩
  · generalize Cause.unterminatedLiteral '"' = c at h
    cases h with
    | @literal before body quote ts fault split start =>
      have hlist : literal.toList = ['"', 'a', '\n'] := by decide +kernel
      rw [hlist] at split
      cases before with
      | nil => rfl
      | cons b before =>
        have hmem : quote ∈ ['a', '\n'] := by
          rw [(List.cons.inj split).2]
          simp
        rcases start with rfl | rfl <;> simp at hmem
    | tokens tokenized =>
      have hnone : (tokenize literal).toBool = false := by decide +kernel
      rw [tokenized] at hnone
      cases hnone
  · generalize hc : Cause.unknownField "y" "A" = c at h
    cases h with
    | @literal before body quote ts fault split start =>
      have hplain : field.toList.all (fun c => c ≠ '"' && c ≠ '\'') = true := by decide +kernel
      have hquote := List.all_eq_true.1 hplain quote (by rw [split]; simp)
      rcases start with rfl | rfl <;> simp at hquote
    | @tokens t c before culprit left tokenized split offends =>
      have hculprit : culprit.map (·.lexeme) = [.word "y", .symbol '='] := by
        subst hc
        exact offends.about
      cases culprit with
      | nil => cases hculprit
      | cons u us =>
        have hlines : (tokenize field).toOption.all (fun t => t.tokens.all fun u =>
            u.lexeme ≠ .word "y" || u.line = 3) = true := by decide +kernel
        have hu : u ∈ t.tokens := by
          rw [split]
          simp
        rw [tokenized] at hlines
        have hy : u.lexeme = .word "y" := (List.cons.inj hculprit).1
        have hline : (u.lexeme ≠ .word "y" || u.line = 3) = true := List.all_eq_true.1 hlines u hu
        simpa [TokenizedText.lineAt, hy] using hline

end Scene

end AnnotationIndex
