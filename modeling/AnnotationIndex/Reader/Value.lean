import AnnotationIndex.Annotation.Basic
import AnnotationIndex.Reader.Basic

/-!
# Annotations and values

Readers of annotations and of the values inside them. The type of a field decides how its value is
read, and annotation types are looked up among the definitions in scope.
-/

namespace AnnotationIndex

/-- What names refer to: the current package, and the definitions of the text so far. -/
structure Scope where
  package : String
  definitions : List Definition

namespace Scope

/-- The definition of an annotation type: the one with exactly this name, or else the one that has
the name in the current package. -/
def resolve? (scope : Scope) (name : String) : Option Definition :=
  match scope.definitions.find? fun d => d.name = name with
  | some d => some d
  | none => scope.definitions.find? fun d => d.name = qualify scope.package name

end Scope

namespace Reader

/-! ## Basic values -/

/-- A number without its last character, if that is one of `f`, `F`, `d` and `D` and a digit or a
point stands before it. -/
def dropWidthMark (cs : List Char) : List Char :=
  match cs.getLast? with
  | none => cs
  | some mark =>
    if mark = 'f' ∨ mark = 'F' ∨ mark = 'd' ∨ mark = 'D' then
      match cs.dropLast.getLast? with
      | none => cs
      | some c => if c.isDigit ∨ c = '.' then cs.dropLast else cs
    else cs

/-- Reads the spelling of a floating-point number: words before and after a point, of which any part
may be missing. -/
def floatingSpelling (ts : List Token) : Read String :=
  match ts with
  | ⟨.word whole, _⟩ :: rest => afterWhole whole rest
  | _ => afterWhole "" ts
where
  /-- Reads the point and what follows it. -/
  afterWhole (whole : String) (ts : List Token) : Read String :=
    match acceptSymbol '.' ts with
    | some (⟨.word fraction, _⟩ :: rest) => .ok (whole ++ "." ++ fraction, rest)
    | some rest => .ok (whole ++ ".", rest)
    | none => if whole = "" then fail .floatingExpected ts else .ok (whole, ts)

/-- Reads a value of a basic kind. -/
def basicValue (kind : BasicKind) (ts : List Token) : Read Value :=
  match kind with
  | .boolean =>
    match acceptWord "true" ts with
    | some rest => .ok (.boolean true, rest)
    | none =>
      match acceptWord "false" ts with
      | some rest => .ok (.boolean false, rest)
      | none => fail .booleanExpected ts
  | .char =>
    match ts with
    | ⟨.char c, _⟩ :: rest => .ok (.char c, rest)
    | _ => fail .characterExpected ts
  | .string =>
    match ts with
    | ⟨.string s, _⟩ :: rest => .ok (.string s, rest)
    | _ => fail .stringExpected ts
  | .integer kind =>
    match ts with
    | ⟨.word w, _⟩ :: rest =>
      match Numeral.inRange? kind w with
      | some n => .ok (.integer kind n, rest)
      | none => fail (.integerExpected kind) ts
    | _ => fail (.integerExpected kind) ts
  | .floating width =>
    match floatingSpelling ts with
    | .error e => .error e
    | .ok (spelling, rest) =>
      let digits := dropWidthMark spelling.toList
      match Floating.ofText? width digits with
      | some x => .ok (.floating width x, rest)
      | none => fail (.malformedFloating width (String.ofList digits)) rest

/-! ## Class tokens -/

/-- Reads further parts of the name in a class token, each after a point, up to the final
`.class`. -/
def classParts (name : String) (ts : List Token) : Read String :=
  match _h : acceptSymbol '.' ts with
  | none => .ok (name, ts)
  | some more =>
    if word? more = some "class" then .ok (name, ts)
    else
      match _hi : identifier more with
      | .error e => .error e
      | .ok (w, rest) => classParts (name ++ "." ++ w) rest
termination_by ts.length
decreasing_by
  have := accept_length _h
  have := identifier_length _hi
  omega

/-- Reads a class token: a name, pairs of brackets, and `.class`. -/
def classToken (ts : List Token) : Read String :=
  match identifier ts with
  | .error e => .error e
  | .ok (w, rest) =>
    match classParts w rest with
    | .error e => .error e
    | .ok (name, rest) =>
      match brackets name rest with
      | .error e => .error e
      | .ok (name, rest) =>
        match expectSymbol '.' rest with
        | .error e => .error e
        | .ok rest =>
          match expectWord "class" rest with
          | .error e => .error e
          | .ok rest => .ok (name, rest)

/-! ## Annotations -/

mutual

/-- Reads a value of a type. An array of one element may be written without braces. -/
def value (scope : Scope) (type : FieldType) (ts : List Token) : Read Value :=
  match type with
  | .array element =>
    match _h : acceptSymbol '\x7b' ts with
    | none =>
      match item scope element ts with
      | .error e => .error e
      | .ok (v, rest) => .ok (.array [v], rest)
    | some more =>
      match acceptSymbol '\x7d' more with
      | some rest => .ok (.array [], rest)
      | none =>
        match elements scope element more with
        | .error e => .error e
        | .ok (vs, rest) =>
          match expectSymbol '\x7d' rest with
          | .error e => .error e
          | .ok rest => .ok (.array vs, rest)
  | _ => item scope type ts
termination_by 4 * ts.length + 2
decreasing_by
  · omega
  · have := accept_length _h
    omega
  · omega

/-- Reads a value of a type that is not an array with known elements. -/
def item (scope : Scope) (type : FieldType) (ts : List Token) : Read Value :=
  match type with
  | .basic kind => basicValue kind ts
  | .classToken =>
    match classToken ts with
    | .error e => .error e
    | .ok (name, rest) => .ok (.classToken name, rest)
  | .enum _ =>
    match identifier ts with
    | .error e => .error e
    | .ok (name, rest) => .ok (.enum name, rest)
  | .nested d =>
    match single scope false ts with
    | .error e => .error e
    | .ok (a, rest) =>
      if a.name = d.name then .ok (.nested a, rest)
      else fail (.annotationMismatch d.name a.name) ts
  -- no text can declare an array of arrays, so that the first of these is never an element type
  | .array _ | .unknownArray =>
    match expectSymbol '\x7b' ts with
    | .error e => .error e
    | .ok more =>
      match acceptSymbol '\x7d' more with
      | some rest => .ok (.array [], rest)
      | none => fail .emptyArrayExpected more
termination_by 4 * ts.length + 1

/-- Reads the elements of an array, with commas between them. What follows a comma is always shorter
than the whole (`value_le`); the comparison says so to the recursion. -/
def elements (scope : Scope) (type : FieldType) (ts : List Token) : Read (List Value) :=
  match value scope type ts with
  | .error e => .error e
  | .ok (v, rest) =>
    match acceptSymbol ',' rest with
    | none => .ok ([v], rest)
    | some more =>
      if more.length < ts.length then
        match elements scope type more with
        | .error e => .error e
        | .ok (vs, rest) => .ok (v :: vs, rest)
      else .ok ([v], rest)
termination_by 4 * ts.length + 3

/-- Reads one annotation. One that stands on an element or on a definition, and so is `top`, needs a
type with a retention policy. -/
def single (scope : Scope) (top : Bool) (ts : List Token) : Read Annotation :=
  match _h : expectSymbol '@' ts with
  | .error e => .error e
  | .ok rest =>
    match _hn : qualifiedName rest with
    | .error e => .error e
    | .ok (name, rest) =>
      match scope.resolve? name with
      | none => fail (.annotationUndefined name) ts
      | some d =>
        if top && !d.isTopLevel then fail (.retentionMissing name) ts
        else
          match _hp : acceptSymbol '(' rest with
          | none => .ok (⟨d, []⟩, rest)
          | some more =>
            match acceptSymbol ')' more with
            | some rest => .ok (⟨d, []⟩, rest)
            | none =>
              match assignments scope d [] more with
              | .error e => .error e
              | .ok (values, rest) =>
                match expectSymbol ')' rest with
                | .error e => .error e
                | .ok rest => .ok (⟨d, values⟩, rest)
termination_by 4 * ts.length
decreasing_by
  have := expectSymbol_length _h
  have := qualifiedName_shorter _hn
  have := accept_length _hp
  omega

/-- Reads the values of an annotation after those that are given already, with commas between them.
The comparison after a comma always holds, as in `elements`. -/
def assignments (scope : Scope) (d : Definition) (given : List (String × Value))
    (ts : List Token) : Read (List (String × Value)) :=
  match _h : identifier ts with
  | .error e => .error e
  | .ok (field, rest) =>
    match _he : expectSymbol '=' rest with
    | .error e => .error e
    | .ok rest =>
      match Keyed.get? field d.fields with
      | none => fail (.unknownField field d.name) rest
      | some type =>
        if (Keyed.get? field given).isSome then fail (.duplicateValue field) rest
        else
          match value scope type rest with
          | .error e => .error e
          | .ok (v, rest) =>
            match acceptSymbol ',' rest with
            | none => .ok (given ++ [(field, v)], rest)
            | some more =>
              if more.length < ts.length then assignments scope d (given ++ [(field, v)]) more
              else .ok (given ++ [(field, v)], rest)
termination_by 4 * ts.length
decreasing_by
  · have := identifier_length _h
    have := expectSymbol_length _he
    omega
  · omega

end

/-! ## Progress -/

/-- The spelling of a floating-point number leaves no more tokens than there were. -/
theorem floatingSpelling_le {ts rest : List Token} {w : String}
    (h : floatingSpelling ts = .ok (w, rest)) : rest.length ≤ ts.length := by
  have after {whole w : String} {ts rest : List Token}
      (h : floatingSpelling.afterWhole whole ts = .ok (w, rest)) : rest.length ≤ ts.length := by
    unfold floatingSpelling.afterWhole at h
    split at h
    · have := accept_length (by assumption); simp_all; omega
    · have := accept_length (by assumption); simp_all
    · split at h <;> simp_all [fail]
  unfold floatingSpelling at h
  split at h
  · have := after h; simp; omega
  · exact after h

/-- A basic value leaves no more tokens than there were. -/
theorem basicValue_le {kind : BasicKind} {ts rest : List Token} {v : Value}
    (h : basicValue kind ts = .ok (v, rest)) : rest.length ≤ ts.length := by
  unfold basicValue at h
  split at h
  · split at h
    · have := accept_length (by assumption); simp_all
    · split at h
      · have := accept_length (by assumption); simp_all
      · simp [fail] at h
  · split at h
    · simp_all
    · simp [fail] at h
  · split at h
    · simp_all
    · simp [fail] at h
  · split at h
    · split at h
      · simp_all
      · simp [fail] at h
    · simp [fail] at h
  · split at h
    · simp at h
    · rename_i hs
      have := floatingSpelling_le hs
      simp only at h
      split at h
      · simp_all
      · simp [fail] at h

/-- The parts of a class name leave no more tokens than there were. -/
theorem classParts_le {name w : String} {ts rest : List Token}
    (h : classParts name ts = .ok (w, rest)) : rest.length ≤ ts.length := by
  fun_induction classParts name ts with
  | case1 => simp_all
  | case2 => simp_all
  | case3 => simp at h
  | case4 _ _ _ ha _ _ _ hi ih =>
    have := accept_length ha
    have := identifier_length hi
    have := ih h
    omega

/-- A class literal leaves no more tokens than there were. -/
theorem classToken_le {ts rest : List Token} {w : String} (h : classToken ts = .ok (w, rest)) :
    rest.length ≤ ts.length := by
  unfold classToken at h
  split at h
  · simp at h
  rename_i h₁
  split at h
  · simp at h
  rename_i h₂
  split at h
  · simp at h
  rename_i h₃
  split at h
  · simp at h
  rename_i h₄
  split at h
  · simp at h
  rename_i h₅
  have := identifier_length h₁
  have := classParts_le h₂
  have := brackets_le h₃
  have := expectSymbol_length h₄
  have := expectWord_length h₅
  simp_all
  omega

mutual

/-- A value leaves no more tokens than there were. -/
theorem value_le {scope : Scope} {type : FieldType} {ts rest : List Token} {v : Value}
    (h : value scope type ts = .ok (v, rest)) : rest.length ≤ ts.length := by
  unfold value at h
  split at h
  · split at h
    · split at h
      · simp at h
      · have := item_le (by assumption); simp_all
    · rename_i ha
      have := accept_length ha
      split at h
      · have := accept_length (by assumption); simp_all; omega
      · split at h
        · simp at h
        · have := elements_le (by assumption)
          split at h
          · simp at h
          · have := expectSymbol_length (by assumption); simp_all; omega
  · exact item_le h
termination_by 4 * ts.length + 2

/-- An element of an array leaves no more tokens than there were. -/
theorem item_le {scope : Scope} {type : FieldType} {ts rest : List Token} {v : Value}
    (h : item scope type ts = .ok (v, rest)) : rest.length ≤ ts.length := by
  unfold item at h
  split at h
  · exact basicValue_le h
  · split at h
    · simp at h
    · have := classToken_le (by assumption); simp_all
  · split at h
    · simp at h
    · have := identifier_length (by assumption); simp_all
  · split at h
    · simp at h
    · have := single_shorter (by assumption)
      split at h
      · simp_all; omega
      · simp [fail] at h
  · split at h
    · simp at h
    · have := expectSymbol_length (by assumption)
      split at h
      · have := accept_length (by assumption); simp_all; omega
      · simp [fail] at h
  · split at h
    · simp at h
    · have := expectSymbol_length (by assumption)
      split at h
      · have := accept_length (by assumption); simp_all; omega
      · simp [fail] at h
termination_by 4 * ts.length + 1

/-- The elements of an array leave no more tokens than there were. -/
theorem elements_le {scope : Scope} {type : FieldType} {ts rest : List Token} {vs : List Value}
    (h : elements scope type ts = .ok (vs, rest)) : rest.length ≤ ts.length := by
  unfold elements at h
  split at h
  · simp at h
  · have := value_le (by assumption)
    split at h
    · simp_all
    · split at h
      · split at h
        · simp at h
        · have := elements_le (by assumption); simp_all; omega
      · simp_all
termination_by 4 * ts.length + 3

/-- An annotation has at least one token. -/
theorem single_shorter {scope : Scope} {top : Bool} {ts rest : List Token} {a : Annotation}
    (h : single scope top ts = .ok (a, rest)) : rest.length < ts.length := by
  unfold single at h
  split at h
  · simp at h
  rename_i h₁
  split at h
  · simp at h
  rename_i h₂
  have := expectSymbol_length h₁
  have := qualifiedName_shorter h₂
  split at h
  · simp [fail] at h
  split at h
  · simp [fail] at h
  split at h
  · simp_all; omega
  rename_i h₃
  have := accept_length h₃
  split at h
  · have := accept_length (by assumption); simp_all; omega
  split at h
  · simp at h
  · have := assignments_le (by assumption)
    split at h
    · simp at h
    · have := expectSymbol_length (by assumption); simp_all; omega
termination_by 4 * ts.length

/-- Named values leave no more tokens than there were. -/
theorem assignments_le {scope : Scope} {d : Definition} {given values : List (String × Value)}
    {ts rest : List Token} (h : assignments scope d given ts = .ok (values, rest)) :
    rest.length ≤ ts.length := by
  unfold assignments at h
  split at h
  · simp at h
  rename_i h₁
  split at h
  · simp at h
  rename_i h₂
  have := identifier_length h₁
  have := expectSymbol_length h₂
  split at h
  · simp [fail] at h
  split at h
  · simp [fail] at h
  split at h
  · simp at h
  have := value_le (by assumption)
  split at h
  · simp_all; omega
  split at h
  · have := assignments_le h; omega
  · simp_all; omega
termination_by 4 * ts.length

end

end Reader

end AnnotationIndex
