import AnnotationIndex.Deposit
import AnnotationIndex.Reader.CastType
import AnnotationIndex.Reader.Definition
import AnnotationIndex.Reader.Place
import AnnotationIndex.Token.Lexer

/-!
# Index texts

An index text is a sequence of statements: headers of packages, classes and sections, definitions,
annotations, and cast types. `step` reads one statement and tells what it deposits; `run` goes on to
the end of the text or to the first statement that cannot be read. Reading never looks at the scene:
`Scene.read` loads the deposits afterwards.
-/

namespace AnnotationIndex

namespace Reader

/-- The slot that what has been read names. -/
def placed {α : Type} (slot : α → Slot) : Read α → Read Slot
  | .error e => .error e
  | .ok (x, rest) => .ok (slot x, rest)

/-- Reads the location in the header of a section. -/
def location (s : Section) (ts : List Token) : Read Slot :=
  match s with
  | .bound => placed .bound (bound ts)
  | .superclass => .ok (.supertype .superclass, ts)
  | .interface => placed .supertype (interface ts)
  | .field => placed .field (identifier ts)
  | .method => placed .method (methodKey "" ts)
  | .staticInit => placed .staticInit (ordinal ts)
  | .instanceInit => placed .instanceInit (ordinal ts)
  | .returnType => .ok (.returnType, ts)
  | .receiver => .ok (.receiver, ts)
  | .parameter => placed .parameter (parameter ts)
  | .thrown => placed .thrown (number ts)
  | .localVariable => placed .localVariable (localVariable ts)
  | .typecast => placed .typecast (codePosition ts)
  | .instanceof => placed .instanceof (codePosition ts)
  | .creation => placed .creation (codePosition ts)
  | .innerType => placed .innerType (innerTypePath ts)
  | .insertion => placed .insertion (sourcePath ts)
  | .castInsertion => placed .castInsertion (sourcePath ts)

/-- Reads the header of a section after its keyword: the location and a colon. -/
def header (s : Section) (ts : List Token) : Read Slot :=
  match location s ts with
  | .error e => .error e
  | .ok (slot, rest) =>
    match expectSymbol ':' rest with
    | .error e => .error e
    | .ok rest => if slot = .method "" then fail .signatureExpected rest else .ok (slot, rest)

/-- The element whose header has been read and whose annotations follow. The type that is cast to
follows the annotations of a cast. -/
structure Target where
  path : Path
  isCast : Bool

/-- What is known in the middle of a text. -/
structure State where
  /-- Some package has begun. -/
  inPackage : Bool
  scope : Scope
  target : Option Target
  /-- The open elements, the innermost first. -/
  frames : List Frame

/-- The beginning of a text. -/
def State.start : State := ⟨false, ⟨"", []⟩, none, []⟩

/-- What a statement deposits, and how the text goes on unless the statement cannot be read. -/
structure Step where
  deposits : List Deposit
  next : Except Failure (State × List Token)

/-- Reads an annotation of an element. -/
def markStep (st : State) (path : Path) (line : Nat) (ts : List Token) : Step :=
  match single st.scope true ts with
  | .error e => ⟨[], .error e⟩
  | .ok (a, rest) => ⟨[.mark path a line], .ok (st, rest)⟩

/-- Reads the type of a cast. -/
def castTypeStep (st : State) (path : Path) (line : Nat) (ts : List Token) : Step :=
  match castType ts with
  | .error e => ⟨[], .error e⟩
  | .ok (type, rest) => ⟨[.castType path type line], .ok ({ st with target := none }, rest)⟩

/-- Reads the name of a package and the colon after it. The package without a name has a colon
alone. -/
def packageName (ts : List Token) : Read String :=
  match acceptSymbol ':' ts with
  | some rest => .ok ("", rest)
  | none =>
    match qualifiedName ts with
    | .error e => .error e
    | .ok (name, rest) =>
      match expectSymbol ':' rest with
      | .error e => .error e
      | .ok rest => .ok (name, rest)

/-- Reads the header of a package after its keyword. A package is deposited if it is annotated. -/
def packageStep (st : State) (ts : List Token) : Step :=
  match packageName ts with
  | .error e => ⟨[], .error e⟩
  | .ok (name, rest) =>
    ⟨if (acceptSymbol '@' rest).isSome then [.element [.package name]] else [],
      .ok (⟨true, { st.scope with package := name }, some ⟨[.package name], false⟩, []⟩, rest)⟩

/-- Reads a definition after its keyword. -/
def definitionStep (st : State) (line : Nat) (ts : List Token) : Step :=
  match definition st.scope line ts with
  | .error e => ⟨[], .error e⟩
  | .ok (d, rest) =>
    let scope := { st.scope with definitions := st.scope.definitions ++ [d] }
    ⟨[], .ok (⟨st.inPackage, scope, none, []⟩, rest)⟩

/-- Reads the header of a class after its keyword. -/
def classStep (st : State) (ts : List Token) : Step :=
  match identifier ts with
  | .error e => ⟨[], .error e⟩
  | .ok (name, rest) =>
    match expectSymbol ':' rest with
    | .error e => ⟨[], .error e⟩
    | .ok rest =>
      let path := [Slot.typeDecl (qualify st.scope.package name)]
      let target : Target := ⟨path, false⟩
      ⟨[.element path],
        .ok ({ st with target := some target, frames := [⟨.typeDecl, path⟩] }, rest)⟩

/-- Reads the header of a section that belongs to an open element. What lies between that element
and the section is created even when the header cannot be read. -/
def sectionStep (st : State) (s : Section) (frame : Frame) (outer : List Frame)
    (ts : List Token) : Step :=
  let lead := frame.context.lead s
  let owner := frame.path ++ lead
  let created := if lead.isEmpty then [] else [Deposit.element owner]
  match header s ts with
  | .error e => ⟨created, .error e⟩
  | .ok (slot, rest) =>
    let path := owner ++ [slot]
    let inner := match s.context? with
      | some context => [⟨context, path⟩]
      | none => []
    ⟨created ++ [.element path],
      .ok ({ st with
        target := if s.isMarked then some ⟨path, s = .castInsertion⟩ else none
        frames := inner ++ frame.resume s :: outer }, rest)⟩

/-- The step at a token that starts no statement. -/
def noStep (st : State) (ts : List Token) : Step :=
  ⟨[], fail (if st.inPackage then .statementExpected else .expected "package") ts⟩

/-- Reads the statement that a word starts. -/
def wordStep (st : State) (word : String) (line : Nat) (rest : List Token) : Step :=
  let ts := ⟨.word word, line⟩ :: rest
  if word = "package" then packageStep st rest
  else if st.inPackage = false then noStep st ts
  else if word = "annotation" then definitionStep st line rest
  else if word = "class" then classStep st rest
  else
    match Section.ofKeyword? word with
    | none => noStep st ts
    | some s =>
      match Frame.find? s st.frames with
      | none => noStep st ts
      | some (frame, outer) => sectionStep st s frame outer rest

/-- Reads one statement. -/
def step (st : State) (t : Token) (rest : List Token) : Step :=
  match t.lexeme with
  | .symbol c =>
    match st.target with
    | some target =>
      if c = '@' then markStep st target.path t.line (t :: rest) else noStep st (t :: rest)
    | none => noStep st (t :: rest)
  | .word w =>
    match st.target with
    | some ⟨path, true⟩ =>
      if isKeyword w then wordStep st w t.line rest else castTypeStep st path t.line (t :: rest)
    | _ => wordStep st w t.line rest
  | _ => noStep st (t :: rest)

/-! ## Progress -/

/-- A location that is read as a slot is read as what the slot is made of. -/
theorem placed_ok {α : Type} {f : α → Slot} {r : Read α} {slot : Slot} {rest : List Token}
    (h : placed f r = .ok (slot, rest)) : ∃ x, r = .ok (x, rest) ∧ slot = f x := by
  unfold placed at h
  split at h
  · simp at h
  · simp only [Except.ok.injEq, Prod.mk.injEq] at h
    exact ⟨_, by rw [h.2], h.1.symm⟩

/-- What says which slot it is leaves no more tokens than there were. -/
theorem location_le {s : Section} {ts rest : List Token} {slot : Slot}
    (h : location s ts = .ok (slot, rest)) : rest.length ≤ ts.length := by
  cases s <;> simp only [location] at h
  case bound => obtain ⟨_, h, -⟩ := placed_ok h; exact bound_le h
  case interface => obtain ⟨_, h, -⟩ := placed_ok h; exact interface_le h
  case field => obtain ⟨_, h, -⟩ := placed_ok h; have := identifier_length h; omega
  case method => obtain ⟨_, h, -⟩ := placed_ok h; exact methodKey_le h
  case staticInit | instanceInit => obtain ⟨_, h, -⟩ := placed_ok h; exact ordinal_le h
  case parameter => obtain ⟨_, h, -⟩ := placed_ok h; exact parameter_le h
  case thrown => obtain ⟨_, h, -⟩ := placed_ok h; have := number_length h; omega
  case localVariable => obtain ⟨_, h, -⟩ := placed_ok h; exact localVariable_le h
  case typecast | instanceof | creation =>
    obtain ⟨_, h, -⟩ := placed_ok h; exact codePosition_le h
  case innerType => obtain ⟨_, h, -⟩ := placed_ok h; exact innerTypePath_le h
  case insertion | castInsertion => obtain ⟨_, h, -⟩ := placed_ok h; exact sourcePath_le h
  case superclass | returnType | receiver => simp_all

/-- A header takes at least one token. -/
theorem header_shorter {s : Section} {ts rest : List Token} {slot : Slot}
    (h : header s ts = .ok (slot, rest)) : rest.length < ts.length := by
  unfold header at h
  split at h
  · simp at h
  rename_i h₁
  have := location_le h₁
  split at h
  · simp at h
  rename_i h₂
  have := expectSymbol_length h₂
  split at h
  · simp [fail] at h
  · cases h
    omega

/-- The name of a package takes at least the colon. -/
theorem packageName_shorter {ts rest : List Token} {name : String}
    (h : packageName ts = .ok (name, rest)) : rest.length < ts.length := by
  unfold packageName at h
  split at h
  · have := accept_length (by assumption); simp_all
  · split at h
    · simp at h
    rename_i h₁
    have := qualifiedName_shorter h₁
    split at h
    · simp at h
    · have := expectSymbol_length (by assumption); simp_all; omega

/-- A step at a word takes none of the tokens back. -/
theorem wordStep_le {st st' : State} {word : String} {line : Nat} {ts rest : List Token}
    (h : (wordStep st word line ts).next = .ok (st', rest)) : rest.length ≤ ts.length := by
  unfold wordStep at h
  simp only at h
  split at h
  · unfold packageStep at h
    split at h
    · simp at h
    · have := packageName_shorter (by assumption); simp_all; omega
  split at h
  · simp [noStep, fail] at h
  split at h
  · unfold definitionStep at h
    split at h
    · simp at h
    · have := definition_shorter (by assumption); simp_all; omega
  split at h
  · unfold classStep at h
    split at h
    · simp at h
    · have := identifier_length (by assumption)
      split at h
      · simp at h
      · have := expectSymbol_length (by assumption); simp_all; omega
  split at h
  · simp [noStep, fail] at h
  split at h
  · simp [noStep, fail] at h
  · unfold sectionStep at h
    simp only at h
    split at h
    · simp at h
    · have := header_shorter (by assumption); simp_all; omega

/-- A statement has at least one token. -/
theorem step_le {st st' : State} {t : Token} {ts rest : List Token}
    (h : (step st t ts).next = .ok (st', rest)) : rest.length ≤ ts.length := by
  unfold step at h
  split at h
  · split at h
    · split at h
      · unfold markStep at h
        split at h
        · simp at h
        · rename_i hs
          have := single_shorter hs
          cases h
          exact Nat.le_of_lt_succ this
      · simp [noStep, fail] at h
    · simp [noStep, fail] at h
  · split at h
    · split at h
      · exact wordStep_le h
      · unfold castTypeStep at h
        split at h
        · simp at h
        · rename_i hc
          have := castType_shorter hc
          cases h
          exact Nat.le_of_lt_succ this
    · exact wordStep_le h
  · simp [noStep, fail] at h

/-! ## Whole texts -/

/-- Reads statements up to the end of the text or the first that cannot be read: everything that is
deposited, and why reading stops before the end. -/
def run (st : State) (ts : List Token) : List Deposit × Option Failure :=
  match ts with
  | [] => ([], none)
  | t :: rest =>
    match _h : (step st t rest).next with
    | .error e => ((step st t rest).deposits, some e)
    | .ok (st', rest') =>
      let (more, e) := run st' rest'
      ((step st t rest).deposits ++ more, e)
termination_by ts.length
decreasing_by
  have := step_le _h
  simp
  omega

end Reader

/-- What a text deposits, and why it cannot be read to its end. -/
def depositsOf (text : String) : List Deposit × Option ReadError :=
  match tokenize text with
  | .error e => ([], some e)
  | .ok t =>
    let (deposits, failure) := Reader.run .start t.tokens
    (deposits, failure.map fun e => ⟨e.line.getD t.lastLine, e.cause⟩)

namespace Scene

/-- Puts what a text says into a scene. When the text cannot be read or does not fit the scene, the
scene keeps what was deposited before that showed. -/
def read (s : Scene) (text : String) : Scene × Option ReadError :=
  let (deposits, e) := depositsOf text
  match s.load deposits with
  | (s, some refused) => (s, some refused)
  | (s, none) => (s, e)

/-- The scene that a text describes. -/
def ofText (text : String) : Except ReadError Scene :=
  match empty.read text with
  | (_, some e) => .error e
  | (s, none) => .ok s

end Scene

end AnnotationIndex
