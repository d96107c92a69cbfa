import AnnotationIndex.Reader.Basic

/-!
# Cast types

Types as they stand in source code, without annotations: a qualified name, type arguments in angle
brackets, and pairs of brackets for arrays. A type argument is a type or a wildcard. What is read is
the type in its one spelling.
-/

namespace AnnotationIndex.Reader

mutual

/-- Reads a type. -/
def castType (ts : List Token) : Read String :=
  match _h : qualifiedName ts with
  | .error e => .error e
  | .ok (name, rest) =>
    match _ha : acceptSymbol '<' rest with
    | none => brackets name rest
    | some more =>
      match typeArguments more with
      | .error e => .error e
      | .ok (arguments, rest) =>
        match expectSymbol '>' rest with
        | .error e => .error e
        | .ok rest => brackets (name ++ "<" ++ arguments ++ ">") rest
termination_by 3 * ts.length
decreasing_by
  have := qualifiedName_shorter _h
  have := accept_length _ha
  omega

/-- Reads one type argument. -/
def typeArgument (ts : List Token) : Read String :=
  match _h : acceptSymbol '?' ts with
  | none => castType ts
  | some rest =>
    match _he : acceptWord "extends" rest with
    | some more =>
      match castType more with
      | .error e => .error e
      | .ok (type, rest) => .ok ("? extends " ++ type, rest)
    | none =>
      match _hs : acceptWord "super" rest with
      | some more =>
        match castType more with
        | .error e => .error e
        | .ok (type, rest) => .ok ("? super " ++ type, rest)
      | none => .ok ("?", rest)
termination_by 3 * ts.length + 1
decreasing_by
  · omega
  · have := accept_length _h
    have := accept_length _he
    omega
  · have := accept_length _h
    have := accept_length _hs
    omega

/-- Reads type arguments with commas between them. What follows a comma is always shorter than the
whole (`typeArgument_shorter`); the comparison says so to the recursion. -/
def typeArguments (ts : List Token) : Read String :=
  match typeArgument ts with
  | .error e => .error e
  | .ok (argument, rest) =>
    match acceptSymbol ',' rest with
    | none => .ok (argument, rest)
    | some more =>
      if more.length < ts.length then
        match typeArguments more with
        | .error e => .error e
        | .ok (arguments, rest) => .ok (argument ++ ", " ++ arguments, rest)
      else .ok (argument, rest)
termination_by 3 * ts.length + 2

end

/-! ## Progress -/

mutual

/-- A type has at least one token. -/
theorem castType_shorter {ts rest : List Token} {type : String}
    (h : castType ts = .ok (type, rest)) : rest.length < ts.length := by
  unfold castType at h
  split at h
  · simp at h
  rename_i h₁
  have := qualifiedName_shorter h₁
  split at h
  · have := brackets_le h; omega
  rename_i h₂
  have := accept_length h₂
  split at h
  · simp at h
  rename_i h₃
  have := typeArguments_shorter h₃
  split at h
  · simp at h
  rename_i h₄
  have := expectSymbol_length h₄
  have := brackets_le h
  omega
termination_by 3 * ts.length

/-- A type argument takes at least one token. -/
theorem typeArgument_shorter {ts rest : List Token} {argument : String}
    (h : typeArgument ts = .ok (argument, rest)) : rest.length < ts.length := by
  unfold typeArgument at h
  split at h
  · exact castType_shorter h
  rename_i h₁
  have := accept_length h₁
  split at h
  · rename_i h₂
    have := accept_length h₂
    split at h
    · simp at h
    · have := castType_shorter (by assumption); simp_all; omega
  split at h
  · rename_i h₂
    have := accept_length h₂
    split at h
    · simp at h
    · have := castType_shorter (by assumption); simp_all; omega
  · simp_all
termination_by 3 * ts.length + 1

/-- Type arguments take at least one token. -/
theorem typeArguments_shorter {ts rest : List Token} {arguments : String}
    (h : typeArguments ts = .ok (arguments, rest)) : rest.length < ts.length := by
  unfold typeArguments at h
  split at h
  · simp at h
  rename_i h₁
  have := typeArgument_shorter h₁
  split at h
  · simp_all
  split at h
  · split at h
    · simp at h
    · have := typeArguments_shorter (by assumption); simp_all; omega
  · simp_all
termination_by 3 * ts.length + 2

end

end AnnotationIndex.Reader
