import AnnotationIndex.Reader.File

/-!
# Equations of the readers that go on

A reader that reads on until something else comes calls itself on what is left, and its definition
holds on to why that is shorter. The equations here say the same without it, so that a proof can
rewrite with the first token or with the results of other readers. There is one for each such
reader.
-/

namespace AnnotationIndex.Reader

/-! ## Names and types -/

/-- The parts of a name go on behind each point. -/
theorem nameParts_eq (name : String) (ts : List Token) :
    nameParts name ts = match acceptSymbol '.' ts with
      | none => .ok (name, ts)
      | some more =>
        match identifier more with
        | .error e => .error e
        | .ok (w, rest) => nameParts (name ++ "." ++ w) rest := by
  rw [nameParts]
  grind

/-- Brackets go on behind each pair. -/
theorem brackets_eq (type : String) (ts : List Token) :
    brackets type ts = match acceptSymbol '[' ts with
      | none => .ok (type, ts)
      | some more =>
        match expectSymbol ']' more with
        | .error e => .error e
        | .ok rest => brackets (type ++ "[]") rest := by
  rw [brackets]
  grind

/-- A type is a name, then arguments in angle brackets if there are any, and brackets. -/
theorem castType_eq (ts : List Token) :
    castType ts = match qualifiedName ts with
      | .error e => .error e
      | .ok (name, rest) =>
        match acceptSymbol '<' rest with
        | none => brackets name rest
        | some more =>
          match typeArguments more with
          | .error e => .error e
          | .ok (arguments, rest) =>
            match expectSymbol '>' rest with
            | .error e => .error e
            | .ok rest => brackets (name ++ "<" ++ arguments ++ ">") rest := by
  rw [castType]
  grind

/-- A type argument is a wildcard with an upper bound, a lower one or none, or a type. -/
theorem typeArgument_eq (ts : List Token) :
    typeArgument ts = match acceptSymbol '?' ts with
      | none => castType ts
      | some rest =>
        match acceptWord "extends" rest with
        | some more =>
          match castType more with
          | .error e => .error e
          | .ok (type, rest) => .ok ("? extends " ++ type, rest)
        | none =>
          match acceptWord "super" rest with
          | some more =>
            match castType more with
            | .error e => .error e
            | .ok (type, rest) => .ok ("? super " ++ type, rest)
          | none => .ok ("?", rest) := by
  rw [typeArgument]
  grind

/-! ## Locations -/

/-- Steps to an inner type go on behind each comma. -/
theorem innerSteps_eq (ts : List Token) :
    innerSteps ts = match acceptSymbol ',' ts with
      | none => .ok ([], ts)
      | some more =>
        match number more with
        | .error e => .error e
        | .ok (n, rest) =>
          match innerSteps rest with
          | .error e => .error e
          | .ok (steps, rest) => .ok (n :: steps, rest) := by
  rw [innerSteps]
  grind

/-- Steps of a path in a source go on behind each comma. -/
theorem sourceSteps_eq (ts : List Token) :
    sourceSteps ts = match sourceStep ts with
      | .error e => .error e
      | .ok (step, rest) =>
        match acceptSymbol ',' rest with
        | none => .ok ([step], rest)
        | some more =>
          match sourceSteps more with
          | .error e => .error e
          | .ok (steps, rest) => .ok (step :: steps, rest) := by
  rw [sourceSteps]
  grind

/-! ## Values and annotations -/

/-- The parts of a class literal go on behind each point, up to the word at its end. -/
theorem classParts_eq (name : String) (ts : List Token) :
    classParts name ts = match acceptSymbol '.' ts with
      | none => .ok (name, ts)
      | some more =>
        if word? more = some "class" then .ok (name, ts)
        else
          match identifier more with
          | .error e => .error e
          | .ok (w, rest) => classParts (name ++ "." ++ w) rest := by
  rw [classParts]
  grind

/-- A value for an array is elements in braces, none in braces, or one element. -/
theorem value_array_eq (scope : Scope) (element : FieldType) (ts : List Token) :
    value scope (.array element) ts = match acceptSymbol '\x7b' ts with
      | none =>
        match item scope element ts with
        | .error e => .error e
        | .ok (v, rest) => .ok (.array [v], rest)
      | some more =>
        match acceptSymbol '\x7d' more with
        | some rest => .ok (.array [], rest)
        | none =>
          match elements scope element more with
          | .error e => .error e
          | .ok (vs, rest) =>
            match expectSymbol '\x7d' rest with
            | .error e => .error e
            | .ok rest => .ok (.array vs, rest) := by
  rw [value]
  split <;> next h => exact h ▸ rfl

/-- A value for anything but an array is one element. -/
theorem value_item {scope : Scope} {type : FieldType} (h : ∀ element, type ≠ .array element)
    (ts : List Token) : value scope type ts = item scope type ts := by
  rw [value]
  intro element he
  exact h element he

/-- An annotation is its name, which has to be of a known type, and its values in parentheses. -/
theorem single_eq (scope : Scope) (top : Bool) (ts : List Token) :
    single scope top ts = match expectSymbol '@' ts with
      | .error e => .error e
      | .ok rest =>
        match qualifiedName rest with
        | .error e => .error e
        | .ok (name, rest) =>
          match scope.resolve? name with
          | none => fail (.annotationUndefined name) ts
          | some d =>
            if top && !d.isTopLevel then fail (.retentionMissing name) ts
            else
              match acceptSymbol '(' rest with
              | none => .ok (⟨d, []⟩, rest)
              | some more =>
                match acceptSymbol ')' more with
                | some rest => .ok (⟨d, []⟩, rest)
                | none =>
                  match assignments scope d [] more with
                  | .error e => .error e
                  | .ok (values, rest) =>
                    match expectSymbol ')' rest with
                    | .error e => .error e
                    | .ok rest => .ok (⟨d, values⟩, rest) := by
  rw [single]
  split
  · next h => simp only [h]
  next h =>
  simp only [h]
  split
  · next hq => simp only [hq]
  next name rest hq =>
  simp only [hq]
  cases scope.resolve? name with
  | none => rfl
  | some d =>
    simp only
    split
    · rfl
    split <;> next hp => exact hp ▸ rfl

/-- The values of an annotation go on behind each comma; each is for a new field of its type. -/
theorem assignments_eq (scope : Scope) (d : Definition) (given : List (String × Value))
    (ts : List Token) :
    assignments scope d given ts = match identifier ts with
      | .error e => .error e
      | .ok (field, rest) =>
        match expectSymbol '=' rest with
        | .error e => .error e
        | .ok rest =>
          match Keyed.get? field d.fields with
          | none => fail (.unknownField field d.name) rest
          | some type =>
            if (Keyed.get? field given).isSome then fail (.duplicateValue field) rest
            else
              match value scope type rest with
              | .error e => .error e
              | .ok (v, rest) =>
                match acceptSymbol ',' rest with
                | none => .ok (given ++ [(field, v)], rest)
                | some more =>
                  if more.length < ts.length then assignments scope d (given ++ [(field, v)]) more
                  else .ok (given ++ [(field, v)], rest) := by
  rw [assignments]
  split
  · next h => simp only [h]
  next h =>
  simp only [h]
  split <;> next he => exact he ▸ rfl

/-! ## Definitions -/

/-- Annotations on a type go on up to what is none; each has a new name. -/
theorem metas_eq (scope : Scope) (given : List Annotation) (ts : List Token) :
    metas scope given ts = match acceptSymbol '@' ts with
      | none => .ok (given, ts)
      | some _ =>
        match single scope true ts with
        | .error e => .error e
        | .ok (a, rest) =>
          if (AnnotationSet.find? given a.name).isSome then fail (.annotationTwice a.name) ts
          else metas scope (given ++ [a]) rest := by
  rw [metas]
  grind

/-- The fields of a definition go on up to where a statement may start; each has a new name. -/
theorem fields_eq (scope : Scope) (definition : String) (given : List (String × FieldType))
    (ts : List Token) :
    fields scope definition given ts =
      if ts.isEmpty || (word? ts).any isKeyword then .ok (given, ts)
      else
        match fieldType scope ts with
        | .error e => .error e
        | .ok (type, rest) =>
          match identifier rest with
          | .error e => .error e
          | .ok (field, rest) =>
            if (Keyed.get? field given).isSome then fail (.duplicateField field definition) rest
            else fields scope definition (given ++ [(field, type)]) rest := by
  rw [fields]
  grind

/-! ## Runs -/

/-- A run makes a step at the first token and then goes on with what the step leaves. -/
theorem run_cons (st : State) (t : Token) (ts : List Token) :
    run st (t :: ts) = match (step st t ts).next with
      | .error e => ((step st t ts).deposits, some e)
      | .ok (st', rest) => ((step st t ts).deposits ++ (run st' rest).1, (run st' rest).2) := by
  rw [run]
  grind

end AnnotationIndex.Reader
