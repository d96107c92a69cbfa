import AnnotationIndex.Location
import AnnotationIndex.Reader.Basic

/-!
# Locations in section headers

Readers of the locations that section headers name.
-/

namespace AnnotationIndex.Reader

/-- Reads further steps of a way into a type, each after a comma. -/
def innerSteps (ts : List Token) : Read (List UInt32) :=
  match _h : acceptSymbol ',' ts with
  | none => .ok ([], ts)
  | some more =>
    match _hn : number more with
    | .error e => .error e
    | .ok (n, rest) =>
      match innerSteps rest with
      | .error e => .error e
      | .ok (steps, rest) => .ok (n :: steps, rest)
termination_by ts.length
decreasing_by
  have := accept_length _h
  have := number_length _hn
  omega

/-- Reads a way into a type, of at least one step. -/
def innerTypePath (ts : List Token) : Read InnerTypePath :=
  match number ts with
  | .error e => .error e
  | .ok (n, rest) =>
    match innerSteps rest with
    | .error e => .error e
    | .ok (steps, rest) => .ok (⟨n :: steps⟩, rest)

/-- Reads a bound of a type parameter. -/
def bound (ts : List Token) : Read Bound :=
  match number ts with
  | .error e => .error e
  | .ok (parameter, rest) =>
    match expectSymbol '&' rest with
    | .error e => .error e
    | .ok rest =>
      match number rest with
      | .error e => .error e
      | .ok (bound, rest) => .ok (⟨parameter, bound⟩, rest)

/-- Reads the slot and the range of a local variable. -/
def localVariable (ts : List Token) : Read LocalVariable :=
  match number ts with
  | .error e => .error e
  | .ok (index, rest) =>
    match expectSymbol '#' rest with
    | .error e => .error e
    | .ok rest =>
      match number rest with
      | .error e => .error e
      | .ok (start, rest) =>
        match expectSymbol '+' rest with
        | .error e => .error e
        | .ok rest =>
          match number rest with
          | .error e => .error e
          | .ok (length, rest) => .ok (⟨index, start, length⟩, rest)

/-- Reads the position of an expression. -/
def codePosition (ts : List Token) : Read CodePosition :=
  match acceptSymbol '#' ts with
  | some rest =>
    match number rest with
    | .error e => .error e
    | .ok (n, rest) => .ok (.offset n, rest)
  | none =>
    match acceptSymbol '*' ts with
    | some rest =>
      match number rest with
      | .error e => .error e
      | .ok (n, rest) => .ok (.index n, rest)
    | none => fail .positionExpected ts

/-- Reads the number of an interface. -/
def interface (ts : List Token) : Read Supertype :=
  match number ts with
  | .error _ => fail .interfaceExpected ts
  | .ok (n, rest) =>
    match Supertype.ofInterface? n with
    | some s => .ok (s, rest)
    | none => fail .interfaceExpected ts

/-- Reads the number of an initializer block. -/
def ordinal (ts : List Token) : Read UInt32 :=
  match expectSymbol '*' ts with
  | .error e => .error e
  | .ok rest => number rest

/-- Reads the number of a parameter. -/
def parameter (ts : List Token) : Read UInt32 :=
  match expectSymbol '#' ts with
  | .error e => .error e
  | .ok rest => number rest

/-- Reads one step down a syntax tree. -/
def sourceStep (ts : List Token) : Read SourceStep :=
  match identifier ts with
  | .error e => .error e
  | .ok (kind, rest) =>
    match expectSymbol '.' rest with
    | .error e => .error e
    | .ok rest =>
      match identifier rest with
      | .error e => .error e
      | .ok (child, rest) =>
        let (argument, rest) := number? rest
        .ok (⟨kind, child, argument⟩, rest)

/-- A step of a path in a source takes at least one token. -/
theorem sourceStep_shorter {s : SourceStep} {ts rest : List Token}
    (h : sourceStep ts = .ok (s, rest)) : rest.length < ts.length := by
  unfold sourceStep at h
  split at h
  · simp at h
  · rename_i h₁
    have := identifier_length h₁
    split at h
    · simp at h
    · rename_i h₂
      have := expectSymbol_length h₂
      split at h
      · simp at h
      · rename_i r h₃
        have := identifier_length h₃
        have := number?_le r
        simp at h
        grind

/-- Reads a way down a syntax tree, of at least one step, with commas between the steps. -/
def sourceSteps (ts : List Token) : Read (List SourceStep) :=
  match _h : sourceStep ts with
  | .error e => .error e
  | .ok (step, rest) =>
    match _ha : acceptSymbol ',' rest with
    | none => .ok ([step], rest)
    | some more =>
      match sourceSteps more with
      | .error e => .error e
      | .ok (steps, rest) => .ok (step :: steps, rest)
termination_by ts.length
decreasing_by
  have := sourceStep_shorter _h
  have := accept_length _ha
  omega

/-- Reads a node of a syntax tree. -/
def sourcePath (ts : List Token) : Read SourcePath :=
  match sourceSteps ts with
  | .error e => .error e
  | .ok (steps, rest) => .ok (⟨steps⟩, rest)

/-- Reads the key of a method: the spellings of all tokens up to the next colon. -/
def methodKey (key : String) : List Token → Read String
  | [] => fail .signatureEndExpected []
  | t :: rest =>
    if t.lexeme = .symbol ':' then .ok (key, t :: rest)
    else
      match t.lexeme.spelling? with
      | some s => methodKey (key ++ s) rest
      | none => fail .signatureEndExpected (t :: rest)

/-! ## Progress -/

/-- Further steps to an inner type leave no more tokens than there were. -/
theorem innerSteps_le {ts rest : List Token} {steps : List UInt32}
    (h : innerSteps ts = .ok (steps, rest)) : rest.length ≤ ts.length := by
  fun_induction innerSteps ts generalizing steps rest with
  | case1 => simp_all
  | case2 => simp at h
  | case3 => simp at h
  | case4 _ _ ha _ _ hn _ _ hs ih =>
    have := accept_length ha
    have := number_length hn
    have := ih hs
    simp_all
    omega

/-- The location of an inner type leaves no more tokens than there were. -/
theorem innerTypePath_le {ts rest : List Token} {p : InnerTypePath}
    (h : innerTypePath ts = .ok (p, rest)) : rest.length ≤ ts.length := by
  unfold innerTypePath at h
  split at h
  · simp at h
  split at h
  · simp at h
  have := number_length (by assumption)
  have := innerSteps_le (by assumption)
  simp_all
  omega

/-- A bound leaves no more tokens than there were. -/
theorem bound_le {ts rest : List Token} {b : Bound} (h : bound ts = .ok (b, rest)) :
    rest.length ≤ ts.length := by
  unfold bound at h
  split at h
  · simp at h
  rename_i h₁
  have := number_length h₁
  split at h
  · simp at h
  rename_i h₂
  have := expectSymbol_length h₂
  split at h
  · simp at h
  rename_i h₃
  have := number_length h₃
  simp_all
  omega

/-- A local variable leaves no more tokens than there were. -/
theorem localVariable_le {ts rest : List Token} {l : LocalVariable}
    (h : localVariable ts = .ok (l, rest)) : rest.length ≤ ts.length := by
  unfold localVariable at h
  split at h
  · simp at h
  rename_i h₁
  have := number_length h₁
  split at h
  · simp at h
  rename_i h₂
  have := expectSymbol_length h₂
  split at h
  · simp at h
  rename_i h₃
  have := number_length h₃
  split at h
  · simp at h
  rename_i h₄
  have := expectSymbol_length h₄
  split at h
  · simp at h
  rename_i h₅
  have := number_length h₅
  simp_all
  omega

/-- A position in code leaves no more tokens than there were. -/
theorem codePosition_le {ts rest : List Token} {p : CodePosition}
    (h : codePosition ts = .ok (p, rest)) : rest.length ≤ ts.length := by
  unfold codePosition at h
  split at h
  · have := accept_length (by assumption)
    split at h
    · simp at h
    · have := number_length (by assumption); simp_all; omega
  split at h
  · have := accept_length (by assumption)
    split at h
    · simp at h
    · have := number_length (by assumption); simp_all; omega
  · simp [fail] at h

/-- An interface leaves no more tokens than there were. -/
theorem interface_le {ts rest : List Token} {s : Supertype} (h : interface ts = .ok (s, rest)) :
    rest.length ≤ ts.length := by
  unfold interface at h
  split at h
  · simp [fail] at h
  · rename_i hn
    have := number_length hn
    split at h
    · cases h
      omega
    · simp [fail] at h

/-- The number of an initializer block leaves no more tokens than there were. -/
theorem ordinal_le {ts rest : List Token} {n : UInt32} (h : ordinal ts = .ok (n, rest)) :
    rest.length ≤ ts.length := by
  unfold ordinal at h
  split at h
  · simp at h
  · have := expectSymbol_length (by assumption)
    have := number_length h
    omega

/-- The number of a parameter leaves no more tokens than there were. -/
theorem parameter_le {ts rest : List Token} {n : UInt32} (h : parameter ts = .ok (n, rest)) :
    rest.length ≤ ts.length := by
  unfold parameter at h
  split at h
  · simp at h
  · have := expectSymbol_length (by assumption)
    have := number_length h
    omega

/-- Further steps of a path in a source leave no more tokens than there were. -/
theorem sourceSteps_le {ts rest : List Token} {steps : List SourceStep}
    (h : sourceSteps ts = .ok (steps, rest)) : rest.length ≤ ts.length := by
  fun_induction sourceSteps ts generalizing steps rest with
  | case1 => simp at h
  | case2 => have := sourceStep_shorter (by assumption); simp_all; omega
  | case3 => simp at h
  | case4 _ _ _ hs _ ha _ _ hm ih =>
    have := sourceStep_shorter hs
    have := accept_length ha
    have := ih hm
    simp_all
    omega

/-- A path in a source leaves no more tokens than there were. -/
theorem sourcePath_le {ts rest : List Token} {p : SourcePath}
    (h : sourcePath ts = .ok (p, rest)) : rest.length ≤ ts.length := by
  unfold sourcePath at h
  split at h
  · simp at h
  · have := sourceSteps_le (by assumption); simp_all

/-- A method key leaves no more tokens than there were. -/
theorem methodKey_le {key k : String} {ts rest : List Token}
    (h : methodKey key ts = .ok (k, rest)) : rest.length ≤ ts.length := by
  fun_induction methodKey key ts with
  | case1 => simp [fail] at h
  | case2 => simp_all
  | case3 _ _ _ _ _ _ ih => have := ih h; simp; omega
  | case4 => simp [fail] at h

end AnnotationIndex.Reader
