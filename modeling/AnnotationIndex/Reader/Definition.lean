import AnnotationIndex.Annotation.Equality
import AnnotationIndex.Reader.Value
import AnnotationIndex.Section

/-!
# Definitions of annotation types

A definition starts with the keyword `annotation` and goes on to the next keyword that starts a
section. It has a name in the current package, annotations of its own, and fields.
-/

namespace AnnotationIndex

namespace Reader

/-- Reads a type that is no array. -/
def scalarType (scope : Scope) (ts : List Token) : Read FieldType :=
  match acceptWord "enum" ts with
  | some rest =>
    match qualifiedName rest with
    | .error e => .error e
    | .ok (name, rest) => .ok (.enum name, rest)
  | none =>
    match acceptWord "annotation-field" ts with
    | some rest =>
      match qualifiedName ((acceptSymbol '@' rest).getD rest) with
      | .error e => .error e
      | .ok (name, rest) =>
        match scope.resolve? name with
        | some d => .ok (.nested d, rest)
        | none => fail (.undefinedFieldType name) rest
    | none =>
      match qualifiedName ts with
      | .error e => .error e
      | .ok (name, rest) =>
        if name = "Class" ∨ name = "java.lang.Class" then .ok (.classToken, rest)
        else
          match BasicKind.ofKeyword? name with
          | some kind => .ok (.basic kind, rest)
          | none => fail (.fieldTypeExpected name) rest

/-- Reads the type of a field. -/
def fieldType (scope : Scope) (ts : List Token) : Read FieldType :=
  match acceptWord "unknown" ts with
  | some rest =>
    match expectSymbol '[' rest with
    | .error e => .error e
    | .ok rest =>
      match expectSymbol ']' rest with
      | .error e => .error e
      | .ok rest => .ok (.unknownArray, rest)
  | none =>
    match scalarType scope ts with
    | .error e => .error e
    | .ok (type, rest) =>
      match acceptSymbol '[' rest with
      | none => .ok (type, rest)
      | some rest =>
        match expectSymbol ']' rest with
        | .error e => .error e
        | .ok rest => .ok (.array type, rest)

/-- The type of a single value takes at least one token. -/
theorem scalarType_shorter {scope : Scope} {ts rest : List Token} {type : FieldType}
    (h : scalarType scope ts = .ok (type, rest)) : rest.length < ts.length := by
  unfold scalarType at h
  split at h
  · rename_i h₁
    have := accept_length h₁
    split at h
    · simp at h
    · have := qualifiedName_shorter (by assumption); simp_all; omega
  split at h
  · rename_i r h₁
    have := accept_length h₁
    have hr : ((acceptSymbol '@' r).getD r).length ≤ r.length := by
      cases ha : acceptSymbol '@' r with
      | none => simp
      | some q => have := accept_length ha; simp; omega
    split at h
    · simp at h
    · have := qualifiedName_shorter (by assumption)
      split at h
      · simp_all; omega
      · simp [fail] at h
  · split at h
    · simp at h
    · have := qualifiedName_shorter (by assumption)
      split at h
      · simp_all
      · split at h
        · simp_all
        · simp [fail] at h

/-- The type of a field takes at least one token. -/
theorem fieldType_shorter {scope : Scope} {ts rest : List Token} {type : FieldType}
    (h : fieldType scope ts = .ok (type, rest)) : rest.length < ts.length := by
  unfold fieldType at h
  split at h
  · have := accept_length (by assumption)
    split at h
    · simp at h
    rename_i h₁
    split at h
    · simp at h
    rename_i h₂
    have := expectSymbol_length h₁
    have := expectSymbol_length h₂
    simp_all
    omega
  · split at h
    · simp at h
    have := scalarType_shorter (by assumption)
    split at h
    · simp_all
    · have := accept_length (by assumption)
      split at h
      · simp at h
      · have := expectSymbol_length (by assumption)
        simp_all
        omega

/-- Reads the annotations on a definition, after those that it has already. -/
def metas (scope : Scope) (given : List Annotation) (ts : List Token) : Read (List Annotation) :=
  match acceptSymbol '@' ts with
  | none => .ok (given, ts)
  | some _ =>
    match _h : single scope true ts with
    | .error e => .error e
    | .ok (a, rest) =>
      if (AnnotationSet.find? given a.name).isSome then fail (.annotationTwice a.name) ts
      else metas scope (given ++ [a]) rest
termination_by ts.length
decreasing_by exact single_shorter _h

/-- The annotations on a type leave no more tokens than there were. -/
theorem metas_le {scope : Scope} {given as : List Annotation} {ts rest : List Token}
    (h : metas scope given ts = .ok (as, rest)) : rest.length ≤ ts.length := by
  fun_induction metas scope given ts with
  | case1 => simp_all
  | case2 => simp at h
  | case3 => simp [fail] at h
  | case4 _ _ _ _ _ _ hs _ ih =>
    have := single_shorter hs
    have := ih h
    omega

/-- Reads the fields of a definition, after those that it has already. -/
def fields (scope : Scope) (definition : String) (given : List (String × FieldType))
    (ts : List Token) : Read (List (String × FieldType)) :=
  if ts.isEmpty || (word? ts).any isKeyword then .ok (given, ts)
  else
    match _h : fieldType scope ts with
    | .error e => .error e
    | .ok (type, rest) =>
      match _hi : identifier rest with
      | .error e => .error e
      | .ok (field, rest) =>
        if (Keyed.get? field given).isSome then fail (.duplicateField field definition) rest
        else fields scope definition (given ++ [(field, type)]) rest
termination_by ts.length
decreasing_by
  have := fieldType_shorter _h
  have := identifier_length _hi
  omega

/-- The fields of a definition leave no more tokens than there were. -/
theorem fields_le {scope : Scope} {definition : String} {given fs : List (String × FieldType)}
    {ts rest : List Token} (h : fields scope definition given ts = .ok (fs, rest)) :
    rest.length ≤ ts.length := by
  fun_induction fields scope definition given ts with
  | case1 => simp_all
  | case2 => simp at h
  | case3 => simp at h
  | case4 => simp [fail] at h
  | case5 _ _ _ _ _ ht _ _ hi _ ih =>
    have := fieldType_shorter ht
    have := identifier_length hi
    have := ih h
    omega

/-- Reads a retention policy if one comes first. -/
def retention? (ts : List Token) : Option Retention × List Token :=
  match (word? ts).bind Retention.ofKeyword? with
  | some r => (some r, ts.tail)
  | none => (none, ts)

/-- Reads a definition, whose keyword has been read and stands on the given line. -/
def definition (scope : Scope) (line : Nat) (ts : List Token) : Read Definition :=
  let (retention, rest) := retention? ts
  match expectSymbol '@' rest with
  | .error e => .error e
  | .ok rest =>
    match identifier rest with
    | .error e => .error e
    | .ok (base, rest) =>
      let name := qualify scope.package base
      match expectSymbol ':' rest with
      | .error e => .error e
      | .ok rest =>
        if scope.definitions.any fun d => d.name = name then
          .error ⟨some line, .duplicateDefinition name⟩
        else
          match metas scope [] rest with
          | .error e => .error e
          | .ok (as, rest) =>
            match fields scope name [] rest with
            | .error e => .error e
            | .ok (fs, rest) => .ok (⟨name, retention, fs, as⟩, rest)

/-- A retention policy that may be missing leaves no more tokens than there were. -/
theorem retention?_le (ts : List Token) : (retention? ts).2.length ≤ ts.length := by
  unfold retention?
  split <;> simp

/-- A definition takes at least one token. -/
theorem definition_shorter {scope : Scope} {line : Nat} {ts rest : List Token} {d : Definition}
    (h : definition scope line ts = .ok (d, rest)) : rest.length < ts.length := by
  unfold definition at h
  simp only at h
  have := retention?_le ts
  split at h
  · simp at h
  rename_i h₁
  have := expectSymbol_length h₁
  split at h
  · simp at h
  rename_i h₂
  have := identifier_length h₂
  split at h
  · simp at h
  rename_i h₃
  have := expectSymbol_length h₃
  split at h
  · simp at h
  split at h
  · simp at h
  rename_i h₄
  have := metas_le h₄
  split at h
  · simp at h
  rename_i h₅
  have := fields_le h₅
  simp_all
  omega

end Reader

end AnnotationIndex
