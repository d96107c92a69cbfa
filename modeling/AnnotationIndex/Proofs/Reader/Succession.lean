import AnnotationIndex.Proofs.Reader.Continuation
import AnnotationIndex.Proofs.Reader.Statement

/-!
# Statements before a package

The readers of definitions, headers and whole statements decide at the keyword `package` as at the
end of the text (`Continuation.step_alike`), and so a run does (`Continuation.runs_tokens`). Two
statements come of it. A run over tokens on other lines deposits the same on those lines
(`Reader.run_reline`). A run that comes to the end of its tokens may be followed by a package, where
nothing of what is known counts but the definitions in scope (`Reader.run_append`).
-/

namespace AnnotationIndex

namespace Continuation

open Reader

variable {c : Continuation}

/-! ## Definitions -/

/-- Reading a type of single values goes on as before. -/
theorem scalarType_steady (scope : Scope) : c.Steady (scalarType scope) := by
  intro ts
  unfold scalarType
  refine word_elim (w := "enum") (by decide) ts (fun _ => ?_) fun rest _ => ?_
  · dsimp only
    refine word_elim (w := "annotation-field") (by decide) ts (fun _ => ?_) fun rest _ => ?_
    · dsimp only
      refine (qualifiedName_steady ts).elim (fun name rest _ => ?_) .error fun _ _ => .failed _ _
      dsimp only
      split
      · exact .ok _ _
      split
      · exact .ok _ _
      · exact .fail _ rest
    · have hname : c.Alike False (qualifiedName ((acceptSymbol '@' rest).getD rest))
          (qualifiedName ((acceptSymbol '@' (c.tokens rest)).getD (c.tokens rest))) := by
        exact symbol_elim '@' rest (fun _ => qualifiedName_steady rest)
          fun more _ => qualifiedName_steady more
      dsimp only
      refine hname.elim (fun name rest _ => ?_) .error fun _ _ => .failed _ _
      dsimp only
      split
      · exact .ok _ _
      · exact .fail _ rest
  · dsimp only
    exact (qualifiedName_steady rest).elim (fun name rest _ => .ok _ _) .error
      fun _ _ => .failed _ _

/-- Reading the type of a field goes on as before. -/
theorem fieldType_steady (scope : Scope) : c.Steady (fieldType scope) := by
  intro ts
  unfold fieldType
  refine word_elim (w := "unknown") (by decide) ts (fun _ => ?_) fun rest _ => ?_
  · dsimp only
    refine (scalarType_steady scope ts).elim (fun type rest _ => ?_) .error fun _ _ => .failed _ _
    dsimp only
    refine symbol_elim '[' rest (fun _ => .ok _ _) fun rest _ => ?_
    dsimp only
    exact expect_elim ']' rest (fun rest _ => .ok _ _) .error fun _ _ => .failed _ _
  · dsimp only
    refine expect_elim '[' rest (fun rest _ => ?_) .error fun _ _ => .failed _ _
    dsimp only
    exact expect_elim ']' rest (fun rest _ => .ok _ _) .error fun _ _ => .failed _ _

/-- Reading the annotations on a type goes on as before. -/
theorem metas_steady (scope : Scope) (given : List Annotation) (ts : List Token) :
    c.Alike False (metas scope given ts) (metas scope given (c.tokens ts)) := by
  rw [metas_eq, metas_eq scope given (c.tokens ts)]
  refine symbol_elim '@' ts (fun _ => .ok _ _) fun _ _ => ?_
  dsimp only
  refine (single_steady scope true ts).elim (fun a rest ha => ?_) .error fun _ _ => .failed _ _
  dsimp only
  split
  · exact .fail _ ts
  · exact metas_steady scope _ rest
termination_by ts.length
decreasing_by exact single_shorter ha

/-- The keyword of a package ends the fields of a definition as the end of the text does. -/
theorem isKeyword_tokens (ts : List Token) :
    ((c.tokens ts).isEmpty || (word? (c.tokens ts)).any isKeyword) =
      (ts.isEmpty || (word? ts).any isKeyword) := by
  cases ts with
  | cons t ts => rfl
  | nil =>
    rcases c.tokens_nil with ⟨-, h⟩ | ⟨-, line, rest, h⟩
    · rw [h]
    · rw [h]
      rfl

/-- Reading the fields of a definition goes on as before. -/
theorem fields_steady (scope : Scope) (definition : String) (given : List (String × FieldType))
    (ts : List Token) :
    c.Alike False (fields scope definition given ts)
      (fields scope definition given (c.tokens ts)) := by
  rw [fields_eq, fields_eq scope definition given (c.tokens ts)]
  simp only [isKeyword_tokens]
  split
  · exact .ok _ _
  refine (fieldType_steady scope ts).elim (fun type rest htype => ?_) .error fun _ _ => .failed _ _
  dsimp only
  refine (identifier_steady rest).elim (fun field rest hfield => ?_) .error fun _ _ => .failed _ _
  dsimp only
  split
  · exact .fail _ rest
  · exact fields_steady scope definition _ rest
termination_by ts.length
decreasing_by
  have := fieldType_shorter htype
  have := identifier_length hfield
  omega

/-- A retention policy comes first in both or in none. -/
theorem retention?_tokens (ts : List Token) :
    retention? (c.tokens ts) = ((retention? ts).1, c.tokens (retention? ts).2) := by
  cases ts with
  | cons t ts =>
    have hword : word? (t.reline c.line :: c.tokens ts) = word? (t :: ts) := rfl
    rw [tokens_cons, retention?, retention?, hword]
    cases (word? (t :: ts)).bind Retention.ofKeyword? <;> rfl
  | nil =>
    rcases c.tokens_nil with ⟨-, h⟩ | ⟨-, line, rest, h⟩
    · rw [h]
      exact Prod.ext rfl h.symm
    · rw [h, retention?]
      exact Prod.ext rfl h.symm

/-- Reading a definition goes on as before. -/
theorem definition_steady (scope : Scope) (line : Nat) (ts : List Token) :
    c.Alike False (definition scope line ts) (definition scope (c.line line) (c.tokens ts)) := by
  unfold definition
  simp only [retention?_tokens]
  refine expect_elim '@' _ (fun rest _ => ?_) .error fun _ _ => .failed _ _
  dsimp only
  refine (identifier_steady rest).elim (fun base rest _ => ?_) .error fun _ _ => .failed _ _
  dsimp only
  refine expect_elim ':' rest (fun rest _ => ?_) .error fun _ _ => .failed _ _
  dsimp only
  split
  · exact .error _
  refine (metas_steady scope [] rest).elim (fun as rest _ => ?_) .error fun _ _ => .failed _ _
  dsimp only
  exact (fields_steady scope _ [] rest).elim (fun fs rest _ => .ok _ _) .error
    fun _ _ => .failed _ _

/-! ## Headers -/

/-- Reading a location as a slot goes on as before when reading the location does. -/
theorem placed_steady {α : Type} {r : List Token → Read α} (h : c.Steady r) (slot : α → Slot) :
    c.Steady fun ts => placed slot (r ts) := by
  intro ts
  dsimp only [placed]
  exact (h ts).elim (fun _ _ _ => .ok _ _) .error fun _ _ => .failed _ _

/-- Reading a location goes on as before. -/
theorem location_steady (s : Section) : c.Steady (location s) := by
  intro ts
  cases s with
  | superclass | returnType | receiver => exact .ok _ ts
  | bound => exact placed_steady bound_steady _ ts
  | interface => exact placed_steady interface_steady _ ts
  | field => exact placed_steady identifier_steady _ ts
  | method => exact placed_steady (methodKey_steady "") _ ts
  | staticInit | instanceInit => exact placed_steady ordinal_steady _ ts
  | parameter => exact placed_steady parameter_steady _ ts
  | thrown => exact placed_steady number_steady _ ts
  | localVariable => exact placed_steady localVariable_steady _ ts
  | typecast | instanceof | creation => exact placed_steady codePosition_steady _ ts
  | innerType => exact placed_steady innerTypePath_steady _ ts
  | insertion | castInsertion => exact placed_steady sourcePath_steady _ ts

/-- Reading a header goes on as before. -/
theorem header_steady (s : Section) : c.Steady (header s) := by
  intro ts
  unfold header
  refine (location_steady s ts).elim (fun slot rest _ => ?_) .error fun _ _ => .failed _ _
  dsimp only
  refine expect_elim ':' rest (fun rest _ => ?_) .error fun _ _ => .failed _ _
  dsimp only
  split
  · exact .fail _ rest
  · exact .ok _ _

/-- Reading the name of a package goes on as before. -/
theorem packageName_steady : c.Steady packageName := by
  intro ts
  unfold packageName
  refine symbol_elim ':' ts (fun _ => ?_) fun rest _ => .ok _ _
  dsimp only
  refine (qualifiedName_steady ts).elim (fun name rest _ => ?_) .error fun _ _ => .failed _ _
  dsimp only
  exact expect_elim ':' rest (fun rest _ => .ok _ _) .error fun _ _ => .failed _ _

end Continuation

/-! ## Statements -/

/-- The deposit from another line. -/
def Deposit.reline (f : Nat → Nat) : Deposit → Deposit
  | .element path => .element path
  | .mark path a line => .mark path a (f line)
  | .castType path type line => .castType path type (f line)

/-- A deposit from its own line stays as it is. -/
theorem Deposit.reline_id (d : Deposit) : d.reline id = d := by
  cases d <;> rfl

namespace Continuation

open Reader

variable (c : Continuation)

/-- What a statement is before the end of the text and what it is before the continuation. -/
inductive StepAlike : Step → Step → Prop
  | next {ds ds' : List Deposit} (h : ds.map (.reline c.line) = ds') (st : State)
    (rest : List Token) : StepAlike ⟨ds, .ok (st, rest)⟩ ⟨ds', .ok (st, c.tokens rest)⟩
  | error {ds ds' : List Deposit} (h : ds.map (.reline c.line) = ds') (e : Failure) :
    StepAlike ⟨ds, .error e⟩ ⟨ds', .error (e.reline c.line)⟩
  | failed (ds : List Deposit) (e : Failure) (s : Step) (h : c.after ≠ []) :
    StepAlike ⟨ds, .error e⟩ s

variable {c}

/-- A token at which no statement starts is the same before the continuation. -/
theorem noStep_alike (st : State) (ts : List Token) :
    c.StepAlike (noStep st ts) (noStep st (c.tokens ts)) := by
  unfold noStep
  rcases c.reline_fail (if st.inPackage then .statementExpected else .expected "package") ts
    with h | hne
  · rw [Reader.fail, Reader.fail, h]
    exact .error rfl _
  · exact .failed _ _ _ hne

/-- An annotation is the same before the continuation. -/
theorem markStep_alike (st : State) (path : Path) (line : Nat) (ts : List Token) :
    c.StepAlike (markStep st path line ts) (markStep st path (c.line line) (c.tokens ts)) := by
  unfold markStep
  exact (single_steady st.scope true ts).elim (fun a rest _ => .next rfl st rest) (.error rfl)
    fun e _ => .failed [] e _

/-- A cast type is the same before the continuation. -/
theorem castTypeStep_alike (st : State) (path : Path) (line : Nat) (ts : List Token) :
    c.StepAlike (castTypeStep st path line ts)
      (castTypeStep st path (c.line line) (c.tokens ts)) := by
  unfold castTypeStep
  exact (castType_steady ts).elim (fun type rest _ => .next rfl _ rest) (.error rfl)
    fun e _ => .failed [] e _

/-- A package is the same before the continuation. -/
theorem packageStep_alike (st : State) (ts : List Token) :
    c.StepAlike (packageStep st ts) (packageStep st (c.tokens ts)) := by
  unfold packageStep
  refine (packageName_steady ts).elim (fun name rest _ => ?_) (.error rfl) fun e _ => .failed [] e _
  dsimp only
  exact symbol_elim '@' rest (fun _ => .next rfl _ rest) fun more _ => .next rfl _ rest

/-- A definition is the same before the continuation. -/
theorem definitionStep_alike (st : State) (line : Nat) (ts : List Token) :
    c.StepAlike (definitionStep st line ts) (definitionStep st (c.line line) (c.tokens ts)) := by
  unfold definitionStep
  exact (definition_steady st.scope line ts).elim (fun d rest _ => .next rfl _ rest) (.error rfl)
    fun e _ => .failed [] e _

/-- A class is the same before the continuation. -/
theorem classStep_alike (st : State) (ts : List Token) :
    c.StepAlike (classStep st ts) (classStep st (c.tokens ts)) := by
  unfold classStep
  refine (identifier_steady ts).elim (fun name rest _ => ?_) (.error rfl) fun e _ => .failed [] e _
  dsimp only
  exact expect_elim ':' rest (fun rest _ => .next rfl _ rest) (.error rfl)
    fun e _ => .failed [] e _

/-- A section is the same before the continuation. -/
theorem sectionStep_alike (st : State) (s : Section) (frame : Frame) (outer : List Frame)
    (ts : List Token) :
    c.StepAlike (sectionStep st s frame outer ts) (sectionStep st s frame outer (c.tokens ts)) := by
  unfold sectionStep
  dsimp only
  generalize hcreated : (if (frame.context.lead s).isEmpty then []
    else [Deposit.element (frame.path ++ frame.context.lead s)]) = created
  have hsame : created.map (.reline c.line) = created := by
    rw [← hcreated]
    split <;> rfl
  refine (header_steady s ts).elim (fun slot rest _ => ?_) (.error hsame) fun e _ => .failed _ e _
  exact .next (by rw [List.map_append, hsame]; rfl) _ rest

/-- Whatever statement a word starts is the same before the continuation. -/
theorem wordStep_alike (st : State) (word : String) (line : Nat) (rest : List Token) :
    c.StepAlike (wordStep st word line rest)
      (wordStep st word (c.line line) (c.tokens rest)) := by
  unfold wordStep
  dsimp only
  split
  · exact packageStep_alike st rest
  split
  · exact noStep_alike st (⟨.word word, line⟩ :: rest)
  split
  · exact definitionStep_alike st line rest
  split
  · exact classStep_alike st rest
  split
  · exact noStep_alike st (⟨.word word, line⟩ :: rest)
  split
  · exact noStep_alike st (⟨.word word, line⟩ :: rest)
  · exact sectionStep_alike ..

/-- **A statement is the same before a package** as before the end of the text. -/
theorem step_alike (st : State) (t : Token) (rest : List Token) :
    c.StepAlike (step st t rest) (step st (t.reline c.line) (c.tokens rest)) := by
  obtain ⟨l, line⟩ := t
  cases l with
  | string s => exact noStep_alike st (⟨.string s, line⟩ :: rest)
  | char ch => exact noStep_alike st (⟨.char ch, line⟩ :: rest)
  | symbol ch =>
    dsimp only [step, Token.reline]
    split
    · split
      · exact markStep_alike st _ line (⟨.symbol ch, line⟩ :: rest)
      · exact noStep_alike st (⟨.symbol ch, line⟩ :: rest)
    · exact noStep_alike st (⟨.symbol ch, line⟩ :: rest)
  | word w =>
    dsimp only [step, Token.reline]
    split
    · split
      · exact wordStep_alike st w line rest
      · exact castTypeStep_alike st _ line (⟨.word w, line⟩ :: rest)
    · exact wordStep_alike st w line rest

end Continuation

/-! ## Runs -/

namespace Reader

/-- What is known at the end of a text, or before the first statement that cannot be read. -/
def stateAfter (st : State) (ts : List Token) : State :=
  match ts with
  | [] => st
  | t :: rest =>
    match _h : (step st t rest).next with
    | .error _ => st
    | .ok (st', rest') => stateAfter st' rest'
termination_by ts.length
decreasing_by
  have := step_le _h
  simp
  omega

/-- A statement that can be read leads to what is known behind it. -/
theorem stateAfter_of_next {st st' : State} {t : Token} {ts rest : List Token}
    (h : (step st t ts).next = .ok (st', rest)) :
    stateAfter st (t :: ts) = stateAfter st' rest := by
  rw [stateAfter]
  grind

/-- The beginning of a text with definitions in scope. -/
def State.startWith (ds : List Definition) : State := ⟨false, ⟨"", ds⟩, none, []⟩

/-- A package header leaves nothing of what was known before it but the definitions. -/
theorem run_package (st : State) (line : Nat) (rest : List Token) :
    run st (⟨.word "package", line⟩ :: rest) =
      run (.startWith st.scope.definitions) (⟨.word "package", line⟩ :: rest) := by
  have hstep : step st ⟨.word "package", line⟩ rest =
      step (.startWith st.scope.definitions) ⟨.word "package", line⟩ rest := by
    rw [step_keyword (by rfl), step_keyword (by rfl)]
    simp only [wordStep, if_true, packageStep]
    cases packageName rest <;> rfl
  rw [run, run, hstep]

end Reader

namespace Continuation

open Reader

variable {c : Continuation} {st st' : State} {t : Token} {ts rest : List Token}

/-- A statement that can be read leads to the same state before a package. -/
theorem step_of_next (h : (step st t ts).next = .ok (st', rest)) :
    step st (t.reline c.line) (c.tokens ts) =
      ⟨(step st t ts).deposits.map (.reline c.line), .ok (st', c.tokens rest)⟩ := by
  have halike := c.step_alike st t ts
  generalize step st t ts = s, step st (t.reline c.line) (c.tokens ts) = s' at h halike
  cases halike with
  | next hds st rest =>
    cases h
    rw [hds]
  | error | failed => cases h

/-- A statement that cannot be read fails in the same way on other lines, if nothing follows. -/
theorem step_of_error {e : Failure} (hc : c.after = []) (h : (step st t ts).next = .error e) :
    step st (t.reline c.line) (c.tokens ts) =
      ⟨(step st t ts).deposits.map (.reline c.line), .error (e.reline c.line)⟩ := by
  have halike := c.step_alike st t ts
  generalize step st t ts = s, step st (t.reline c.line) (c.tokens ts) = s' at h halike
  cases halike with
  | next => cases h
  | error hds =>
    cases h
    rw [hds]
  | failed _ _ _ hne => exact absurd hc hne

/-- **A run to the end of the text goes on as before**, and then with what follows. -/
theorem runs_tokens (h : (run st ts).2 = none) :
    Runs st (c.tokens ts) ((run st ts).1.map (.reline c.line)) (stateAfter st ts) c.after := by
  fun_induction run st ts with
  | case1 st =>
    rw [stateAfter]
    exact .refl ..
  | case2 => cases h
  | case3 st t ts st' rest hnext more e hrun ih =>
    rw [hrun] at ih
    have hstep := step_of_next (c := c) hnext
    have hfirst := Runs.step (congrArg Step.next hstep)
    rw [hstep] at hfirst
    rw [stateAfter_of_next hnext, List.map_append]
    exact hfirst.trans (ih h)

/-- Nothing follows, so that a run ends as before. -/
theorem run_tokens (hc : c.after = []) (st : State) (ts : List Token) :
    run st (c.tokens ts) =
      ((run st ts).1.map (.reline c.line), (run st ts).2.map (.reline c.line)) := by
  fun_induction run st ts with
  | case1 st =>
    rw [show c.tokens [] = [] from hc, run]
    rfl
  | case2 st t ts e herror =>
    rw [tokens_cons, run_cons, step_of_error hc herror]
    rfl
  | case3 st t ts st' rest hnext more e hrun ih =>
    rw [hrun] at ih
    rw [tokens_cons, run_cons, step_of_next hnext]
    simp only [ih, List.map_append]

end Continuation

namespace Reader

/-- **A text on other lines is read in the same way.** -/
theorem run_reline (f : Nat → Nat) (st : State) (ts : List Token) :
    run st (ts.map (.reline f)) =
      ((run st ts).1.map (.reline f), (run st ts).2.map (.reline f)) := by
  have h := Continuation.run_tokens (c := ⟨f, [], nofun⟩) rfl st ts
  rwa [Continuation.tokens, List.append_nil] at h

/-- **A text that can be read may be followed by a package**: what comes before it matters by its
definitions alone. -/
theorem run_append {st : State} {ts us : List Token} (h : (run st ts).2 = none)
    (hu : us.head?.map (·.lexeme) = some (.word "package")) :
    Runs st (ts ++ us) (run st ts).1 (.startWith (stateAfter st ts).scope.definitions) us := by
  obtain ⟨t, us, rfl⟩ : ∃ t us', us = t :: us' := by
    cases us with
    | nil => cases hu
    | cons t us => exact ⟨t, us, rfl⟩
  obtain ⟨l, line⟩ := t
  obtain rfl : l = .word "package" := by simpa using hu
  have hruns := Continuation.runs_tokens (c := ⟨id, ⟨.word "package", line⟩ :: us, by simp⟩) h
  have htokens : ts.map (.reline id) = ts := List.map_id ts
  have hdeposits : (run st ts).1.map (.reline id) = (run st ts).1 :=
    List.map_id'' Deposit.reline_id _
  rw [Continuation.tokens, htokens, hdeposits] at hruns
  rw [Runs, ← run_package]
  exact hruns

end Reader

end AnnotationIndex
