import AnnotationIndex.Proofs.Locality.Place

/-!
# Values and annotations look one token ahead

The readers of annotations and of the values in them are local. What they check of a name when they
have read it (that an annotation type is defined, that a definition has a field, that an annotation
has the type of its field) is the check of a `demand`. The main statement is `single_local`,
together with `value_local`, since annotations and values hold one another.
-/

namespace AnnotationIndex

namespace Lexeme

/-- The content of a character literal. -/
def char? : Lexeme → Option Char
  | .char c => some c
  | _ => none

/-- The content of a string literal. -/
def string? : Lexeme → Option String
  | .string text => some text
  | _ => none

end Lexeme

namespace Reader

/-! ## Basic values -/

/-- The value that a floating-point literal spells. -/
def floatingValue (width : Width) (spelling : String) : Except Cause Value :=
  match Floating.ofText? width (dropWidthMark spelling.toList) with
  | some x => .ok (.floating width x)
  | none => .error (.malformedFloating width (String.ofList (dropWidthMark spelling.toList)))

/-- Reading the spelling of a floating-point number is local. -/
theorem floatingSpelling_local (ts : List Token) : LocalAt false floatingSpelling ts := by
  have h : floatingSpelling = andThen (optional Lexeme.word?) fun whole =>
      floatingSpelling.afterWhole (whole.getD "") := by
    funext ts
    rcases ts with - | ⟨⟨w⟩ | _ | _ | _, line⟩ <;> rfl
  have hafter (whole : String) : floatingSpelling.afterWhole whole = onLexeme (.symbol '.')
      (andThen (optional Lexeme.word?) fun fraction =>
        done (whole ++ "." ++ fraction.getD ""))
      (if whole = "" then fail .floatingExpected else done whole) := by
    funext ts
    cases ha : acceptSymbol '.' ts with
    | none =>
      rw [onLexeme_of_none ha, floatingSpelling.afterWhole]
      simp only [ha]
      split <;> rfl
    | some more =>
      rw [onLexeme_of_some ha, floatingSpelling.afterWhole]
      rcases more with - | ⟨⟨w⟩ | _ | _ | _, line⟩ <;>
        simp [ha, andThen, optional, Lexeme.word?, done]
  rw [h]
  refine (LocalAt.optional _ ts).andThen fun whole rest _ => ?_
  rw [hafter]
  refine .onLexeme (fun more _ => (LocalAt.optional _ more).andThen fun fraction rest _ =>
    .done _ rest) fun _ => ?_
  split
  · exact .fail (by rfl) rest
  · exact .done _ rest

/-- Reading a basic value is local. -/
theorem basicValue_local (kind : BasicKind) (ts : List Token) :
    LocalAt false (basicValue kind) ts := by
  cases kind with
  | boolean =>
    have h : basicValue .boolean = onLexeme (.word "true") (done (.boolean true))
        (onLexeme (.word "false") (done (.boolean false)) (fail .booleanExpected)) := by
      refine funext fun ts => eq_onLexeme (fun rest h => ?_) fun h =>
        eq_onLexeme (fun rest h => ?_) fun h => ?_
      all_goals simp only [basicValue, done, *]
    rw [h]
    exact .onLexeme (fun rest _ => .done _ rest) fun _ =>
      .onLexeme (fun rest _ => .done _ rest) fun _ => .fail (by rfl) ts
  | char =>
    have h : basicValue .char = take (fun l => l.char?.map .char) .characterExpected := by
      funext ts
      rcases ts with - | ⟨_ | _ | _ | _, line⟩ <;> rfl
    rw [h]
    exact .take (by rfl) ts
  | string =>
    have h : basicValue .string = take (fun l => l.string?.map .string) .stringExpected := by
      funext ts
      rcases ts with - | ⟨_ | _ | _ | _, line⟩ <;> rfl
    rw [h]
    exact .take (by rfl) ts
  | integer kind =>
    have h : basicValue (.integer kind) = take
        (fun l => (l.word?.bind (Numeral.inRange? kind)).map (.integer kind))
        (.integerExpected kind) := by
      funext ts
      rcases ts with - | ⟨⟨w⟩ | _ | _ | _, line⟩
      · rfl
      · cases hw : Numeral.inRange? kind w <;> simp [basicValue, take, Lexeme.word?, hw]
      · rfl
      · rfl
      · rfl
    rw [h]
    exact .take (by rfl) ts
  | floating width =>
    have h : basicValue (.floating width) = demand floatingSpelling (floatingValue width) := by
      funext ts
      rcases hs : floatingSpelling ts with e | ⟨spelling, rest⟩
      · simp only [basicValue, demand, hs]
      cases hx : Floating.ofText? width (dropWidthMark spelling.toList) with
      | none =>
        have hdemand : demand floatingSpelling (floatingValue width) ts = fail (.malformedFloating
            width (String.ofList (dropWidthMark spelling.toList))) rest :=
          demand_of_error hs (by simp only [floatingValue, hx])
        simp only [basicValue, hs, hx, hdemand]
      | some x =>
        have hcheck : floatingValue width spelling = .ok (.floating width x) := by
          simp only [floatingValue, hx]
        simp only [basicValue, hs, hx, demand_of_ok hs hcheck]
    rw [h]
    refine (floatingSpelling_local ts).demand ⟨.floatingExpected, rfl, rfl⟩ ?_
    intro spelling c used hused hc
    rw [floatingValue] at hc
    split at hc
    · cases hc
    · cases hc
      exact ⟨spelling, hused, rfl⟩

/-! ## Class tokens -/

/-- Reads a class token after the beginning of its name. -/
def classTail (name : String) (ts : List Token) : Read String :=
  match classParts name ts with
  | .error e => .error e
  | .ok (name, rest) => andThen (brackets name)
      (fun name => expecting (.symbol '.') (expecting (.word "class") (done name))) rest

/-- The rest of a class literal, from the local forms: further words behind points, or brackets, and
then the word at its end. -/
theorem classTail_eq_onLexeme (name : String) :
    classTail name = onLexeme (.symbol '.')
      (onLexeme (.word "class") (done name)
        (andThen identifier fun w => classTail (name ++ "." ++ w)))
      (andThen (brackets name)
        fun name => expecting (.symbol '.') (expecting (.word "class") (done name))) := by
  funext ts
  rw [classTail, classParts_eq]
  cases ha : acceptSymbol '.' ts with
  | none => rw [onLexeme_of_none ha]
  | some more =>
    rw [onLexeme_of_some ha]
    cases hc : acceptWord "class" more with
    | none =>
      have hword : word? more ≠ some "class" := by
        rcases more with - | ⟨⟨w⟩ | _ | _ | _, line⟩ <;> simp_all [word?, Lexeme.word?, accept]
      rw [onLexeme_of_none hc, andThen]
      simp only [if_neg hword]
      cases identifier more <;> rfl
    | some rest =>
      obtain ⟨line, rfl⟩ := accept_eq_some_iff.1 ha
      obtain ⟨line', rfl⟩ := accept_eq_some_iff.1 hc
      rw [onLexeme_of_some hc]
      simp [word?, Lexeme.word?, andThen, brackets_eq, expecting, expect, accept, done]

/-- Reading the rest of a class literal is local. -/
theorem classTail_local (name : String) (ts : List Token) : LocalAt false (classTail name) ts := by
  rw [classTail_eq_onLexeme]
  refine .onLexeme (fun more ha => ?_) fun _ => ?_
  · refine .onLexeme (fun rest _ => .done name rest) fun _ => ?_
    refine (identifier_local more).andThen fun w rest hi => ?_
    have := accept_length ha
    have := identifier_length hi
    exact classTail_local _ rest
  · exact (brackets_local name ts).andThen fun name rest _ =>
      .expecting fun rest _ => .expecting fun rest _ => .done name rest
termination_by ts.length

/-- Reading a class literal is local. -/
theorem classToken_local (ts : List Token) : LocalAt false classToken ts := by
  have h : classToken = andThen identifier classTail := by
    refine funext fun ts => eq_andThen (fun e h => ?_) fun w rest h => ?_
    · simp only [classToken, h]
    · rcases hparts : classParts w rest with e | ⟨name, rest⟩
      · simp only [classToken, classTail, h, hparts]
      · simp only [classTail, hparts]
        refine eq_andThen (fun e h => ?_) fun name rest h => eq_expecting (fun e h => ?_)
          fun rest h => eq_expecting (fun e h => ?_) fun rest h => ?_
        all_goals simp only [classToken, expectSymbol_eq_expect, expectWord_eq_expect, done, *]
  rw [h]
  exact (identifier_local ts).andThen fun w rest _ => classTail_local w rest

/-! ## Annotations and their values -/

/-- A value for an array is elements in braces, or one element without braces. -/
theorem value_array_eq_onLexeme (scope : Scope) (element : FieldType) :
    value scope (.array element) = onLexeme (.symbol '\x7b')
      (onLexeme (.symbol '\x7d') (done (.array []))
        (andThen (elements scope element) fun vs => expecting (.symbol '\x7d') (done (.array vs))))
      (andThen (item scope element) fun v => done (.array [v])) := by
  refine funext fun ts => eq_onLexeme (fun more h => eq_onLexeme (fun rest h => ?_) fun h =>
    eq_andThen (fun e h => ?_) fun vs rest h => eq_expecting (fun e h => ?_) fun rest h => ?_)
    fun h => eq_andThen (fun e h => ?_) fun v rest h => ?_
  all_goals simp only [value_array_eq, expectSymbol_eq_expect, done, *]

/-- Elements are a value and, behind a comma, further elements. -/
theorem elements_eq_andThen (scope : Scope) (type : FieldType) :
    elements scope type = andThen (value scope type) fun v => onLexeme (.symbol ',')
      (andThen (elements scope type) fun vs => done (v :: vs)) (done [v]) := by
  refine funext fun ts => eq_andThen (fun e h => ?_) fun v rest h =>
    eq_onLexeme (fun more ha => ?_) fun ha => ?_
  · rw [elements, h]
  · have := value_le h
    have := accept_length ha
    have hless : more.length < ts.length := by omega
    refine eq_andThen (fun e h => ?_) fun vs rest h => ?_ <;>
      simp only [elements.eq_def scope type ts, done, if_true, *]
  · simp only [elements.eq_def scope type ts, done, *]

/-- The definition that an annotation of this name needs. -/
def needed (scope : Scope) (top : Bool) (name : String) : Except Cause Definition :=
  match scope.resolve? name with
  | none => .error (.annotationUndefined name)
  | some d => if top && !d.isTopLevel then .error (.retentionMissing name) else .ok d

/-- Reads the name of an annotation, for its definition. -/
def annotationType (scope : Scope) (top : Bool) : List Token → Read Definition :=
  demand (expecting (.symbol '@') qualifiedName) (needed scope top)

/-- An annotation is its type and, in parentheses, its values. -/
theorem single_eq_andThen (scope : Scope) (top : Bool) :
    single scope top = andThen (annotationType scope top) fun d =>
      onLexeme (.symbol '(')
        (onLexeme (.symbol ')') (done ⟨d, []⟩)
          (andThen (assignments scope d []) fun values =>
            expecting (.symbol ')') (done ⟨d, values⟩)))
        (done ⟨d, []⟩) := by
  funext ts
  rcases he : expect (.symbol '@') ts with e | rest
  · simp only [single_eq, expectSymbol_eq_expect, andThen, annotationType, demand, expecting, he]
  rcases hq : qualifiedName rest with e | ⟨name, more⟩
  · simp only [single_eq, expectSymbol_eq_expect, andThen, annotationType, demand, expecting, he,
      hq]
  have hread : expecting (.symbol '@') qualifiedName ts = .ok (name, more) := by
    simp only [expecting, he, hq]
  cases hr : scope.resolve? name with
  | none =>
    have htype : annotationType scope top ts = fail (.annotationUndefined name) ts :=
      demand_of_error hread (by simp only [needed, hr])
    simp only [single_eq, expectSymbol_eq_expect, andThen, fail, he, hq, hr, htype]
  | some d =>
    by_cases ht : (top && !d.isTopLevel) = true
    · have htype : annotationType scope top ts = fail (.retentionMissing name) ts :=
        demand_of_error hread (by simp only [needed, hr, if_pos ht])
      simp only [single_eq, expectSymbol_eq_expect, andThen, fail, he, hq, hr, htype, if_pos ht]
    · have htype : annotationType scope top ts = .ok (d, more) :=
        demand_of_ok hread (by simp only [needed, hr, if_neg ht])
      refine Eq.trans ?_ (andThen_of_ok htype).symm
      refine eq_onLexeme (fun rest h => eq_onLexeme (fun rest h => ?_) fun h =>
        eq_andThen (fun e h => ?_) fun values rest h => eq_expecting (fun e h => ?_)
          fun rest h => ?_) fun h => ?_
      all_goals simp only [single_eq, expectSymbol_eq_expect, done, Bool.false_eq_true, if_false, *]

/-- Reading the type of an annotation is local. -/
theorem annotationType_local (scope : Scope) (top : Bool) (ts : List Token) :
    LocalAt false (annotationType scope top) ts := by
  refine LocalAt.demand (.expecting fun rest _ => qualifiedName_local rest)
    ⟨.expected "@", by rfl, rfl⟩ ?_
  intro name c used hused hc
  obtain ⟨line, us, rfl, hname⟩ := expecting_eq_ok hused
  have hculprit : ∃ at' us', ⟨.symbol '@', line⟩ :: us = at' :: us' ∧ at'.lexeme = .symbol '@' ∧
      qualifiedName us' = .ok (name, []) := ⟨_, us, rfl, rfl, hname⟩
  rw [needed] at hc
  split at hc
  · cases hc
    exact hculprit
  · split at hc
    · cases hc
      exact hculprit
    · cases hc

/-- The type of a field that a value is given to, unless it has one. -/
def assigned (d : Definition) (given : List (String × Value)) (field : String) :
    Except Cause (String × FieldType) :=
  match Keyed.get? field d.fields with
  | none => .error (.unknownField field d.name)
  | some type =>
    if (Keyed.get? field given).isSome then .error (.duplicateValue field) else .ok (field, type)

/-- Reads the name of a field that a value is given to, and the sign after it. -/
def assignedField (d : Definition) (given : List (String × Value)) :
    List Token → Read (String × FieldType) :=
  demand (andThen identifier fun field => expecting (.symbol '=') (done field)) (assigned d given)

/-- Values are one for a field and, behind a comma, further values. -/
theorem assignments_eq_andThen (scope : Scope) (d : Definition) (given : List (String × Value)) :
    assignments scope d given = andThen (assignedField d given) fun assigned =>
      andThen (value scope assigned.2) fun v => onLexeme (.symbol ',')
        (assignments scope d (given ++ [(assigned.1, v)])) (done (given ++ [(assigned.1, v)])) := by
  funext ts
  rcases hi : identifier ts with e | ⟨field, rest⟩
  · simp only [assignments_eq scope d given ts, andThen, assignedField, demand, hi]
  rcases he : expect (.symbol '=') rest with e | more
  · simp only [assignments_eq scope d given ts, expectSymbol_eq_expect, andThen, assignedField,
      demand, expecting, hi, he]
  have hread : andThen identifier (fun field => expecting (.symbol '=') (done field)) ts =
      .ok (field, more) := by
    simp only [andThen, expecting, done, hi, he]
  cases hf : Keyed.get? field d.fields with
  | none =>
    have hfield : assignedField d given ts = fail (.unknownField field d.name) more :=
      demand_of_error hread (by simp only [assigned, hf])
    simp only [assignments_eq scope d given ts, expectSymbol_eq_expect, andThen, fail, hi, he, hf,
      hfield]
  | some type =>
    by_cases hg : (Keyed.get? field given).isSome
    · have hfield : assignedField d given ts = fail (.duplicateValue field) more :=
        demand_of_error hread (by simp only [assigned, hf, if_pos hg])
      simp only [assignments_eq scope d given ts, expectSymbol_eq_expect, andThen, fail, hi, he, hf,
        hfield, if_pos hg]
    · have hfield : assignedField d given ts = .ok ((field, type), more) :=
        demand_of_ok hread (by simp only [assigned, hf, if_neg hg])
      refine Eq.trans ?_ (andThen_of_ok hfield).symm
      refine eq_andThen (fun e hv => ?_) fun v rest' hv => eq_onLexeme (fun more' ha => ?_)
        fun ha => ?_
      · simp only [assignments_eq scope d given ts, expectSymbol_eq_expect, hi, he, hf, if_neg hg,
          hv]
      · have := identifier_length hi
        have := expectSymbol_length ((congrFun (expectSymbol_eq_expect '=') rest).trans he)
        have := value_le hv
        have := accept_length ha
        have hless : more'.length < ts.length := by omega
        simp only [assignments_eq scope d given ts, expectSymbol_eq_expect, hi, he, hf, if_neg hg,
          hv, ha, if_pos hless]
      · simp only [assignments_eq scope d given ts, expectSymbol_eq_expect, done, hi, he, hf,
          if_neg hg, hv, ha]

/-- Reading which field is given a value is local. -/
theorem assignedField_local (d : Definition) (given : List (String × Value)) (ts : List Token) :
    LocalAt false (assignedField d given) ts := by
  refine LocalAt.demand ((identifier_local ts).andThen fun field rest _ =>
    .expecting fun rest _ => .done _ rest) ⟨.identifierExpected, by rfl, rfl⟩ ?_
  intro field c used hused hc
  have hculprit : used.map (·.lexeme) = [.word field, .symbol '='] := by
    obtain ⟨w, more, hi, hmore⟩ := andThen_eq_ok hused
    obtain ⟨line, us, rfl, hdone⟩ := expecting_eq_ok hmore
    cases hdone
    obtain ⟨us, rfl, hus⟩ := (identifier_takes hi).2
    rw [List.map_append, hus]
    rfl
  rw [assigned] at hc
  split at hc
  · cases hc
    exact hculprit
  · split at hc
    · cases hc
      exact hculprit
    · cases hc

/-- An element that is an annotation has to be of the type that is asked for. -/
theorem item_nested_eq_demand (scope : Scope) (d : Definition) :
    item scope (.nested d) = demand (single scope false) fun a =>
      if a.name = d.name then .ok (.nested a) else .error (.annotationMismatch d.name a.name) := by
  funext ts
  rw [item, demand]
  cases single scope false ts with
  | error e => rfl
  | ok read =>
    dsimp only
    split <;> rfl

/-- An element that is an array can be an empty one only. -/
theorem item_array_eq_expecting {scope : Scope} {type : FieldType}
    (h : type = .unknownArray ∨ ∃ element, type = .array element) :
    item scope type = expecting (.symbol '\x7b')
      (onLexeme (.symbol '\x7d') (done (.array [])) (fail .emptyArrayExpected)) := by
  refine funext fun ts => eq_expecting (fun e he => ?_) fun more he =>
    eq_onLexeme (fun rest ha => ?_) fun ha => ?_
  all_goals
    obtain rfl | ⟨element, rfl⟩ := h <;>
      simp only [item, expectSymbol_eq_expect, done, *]

/-- An element for class literals is a class literal. -/
theorem item_classToken_eq_andThen (scope : Scope) :
    item scope .classToken = andThen classToken fun name => done (.classToken name) := by
  funext ts
  rw [item, andThen]
  cases classToken ts <;> rfl

/-- An element for an enumeration is an identifier. -/
theorem item_enum_eq_andThen (scope : Scope) (type : String) :
    item scope (.enum type) = andThen identifier fun name => done (.enum name) := by
  funext ts
  rw [item, andThen]
  cases identifier ts <;> rfl

mutual

/-- Reading a value is local. -/
theorem value_local (scope : Scope) (type : FieldType) (ts : List Token) :
    LocalAt false (value scope type) ts := by
  by_cases h : ∃ element, type = .array element
  · obtain ⟨element, rfl⟩ := h
    rw [value_array_eq_onLexeme]
    refine .onLexeme (fun more ha => ?_) fun _ =>
      (item_local scope element ts).andThen fun v rest _ => .done _ rest
    have := accept_length ha
    refine .onLexeme (fun rest _ => .done _ rest) fun _ => ?_
    exact (elements_local scope element more).andThen fun vs rest _ =>
      .expecting fun rest _ => .done _ rest
  · rw [show value scope type = item scope type from
      funext fun ts => value_item (fun element he => h ⟨element, he⟩) ts]
    exact item_local scope type ts
termination_by 4 * ts.length + 2

/-- Reading an element is local. -/
theorem item_local (scope : Scope) (type : FieldType) (ts : List Token) :
    LocalAt false (item scope type) ts := by
  cases type with
  | basic kind =>
    rw [show item scope (.basic kind) = basicValue kind from funext fun ts => by rw [item]]
    exact basicValue_local kind ts
  | classToken =>
    rw [item_classToken_eq_andThen]
    exact (classToken_local ts).andThen fun name rest _ => .done _ rest
  | enum type =>
    rw [item_enum_eq_andThen]
    exact (identifier_local ts).andThen fun name rest _ => .done _ rest
  | nested d =>
    rw [item_nested_eq_demand]
    refine (single_local scope false ts).demand ⟨.expected "@", by rfl, by rw [single_eq]; rfl⟩ ?_
    intro a c used hused hc
    split at hc
    · cases hc
    · cases hc
      exact ⟨scope, false, a, hused, rfl⟩
  | array element =>
    rw [item_array_eq_expecting (.inr ⟨element, rfl⟩)]
    exact .expecting fun more _ =>
      .onLexeme (fun rest _ => .done _ rest) fun _ => .fail (by rfl) more
  | unknownArray =>
    rw [item_array_eq_expecting (.inl rfl)]
    exact .expecting fun more _ =>
      .onLexeme (fun rest _ => .done _ rest) fun _ => .fail (by rfl) more
termination_by 4 * ts.length + 1

/-- Reading elements is local. -/
theorem elements_local (scope : Scope) (type : FieldType) (ts : List Token) :
    LocalAt false (elements scope type) ts := by
  rw [elements_eq_andThen]
  refine (value_local scope type ts).andThen fun v rest h => ?_
  have := value_le h
  refine .onLexeme (fun more ha => ?_) fun _ => .done _ rest
  have := accept_length ha
  exact (elements_local scope type more).andThen fun vs rest _ => .done _ rest
termination_by 4 * ts.length + 3

/-- Reading an annotation is local. -/
theorem single_local (scope : Scope) (top : Bool) (ts : List Token) :
    LocalAt false (single scope top) ts := by
  rw [single_eq_andThen]
  refine (annotationType_local scope top ts).andThen fun d rest h => ?_
  have := (annotationType_local scope top ts).shorter ⟨.expected "@", by rfl, rfl⟩ h
  refine .onLexeme (fun more ha => ?_) fun _ => .done _ rest
  have := accept_length ha
  refine .onLexeme (fun rest _ => .done _ rest) fun _ => ?_
  exact (assignments_local scope d [] more).andThen fun values rest _ =>
    .expecting fun rest _ => .done _ rest
termination_by 4 * ts.length

/-- Reading the values of an annotation is local. -/
theorem assignments_local (scope : Scope) (d : Definition) (given : List (String × Value))
    (ts : List Token) : LocalAt false (assignments scope d given) ts := by
  rw [assignments_eq_andThen]
  refine (assignedField_local d given ts).andThen fun assigned rest h => ?_
  have := (assignedField_local d given ts).shorter ⟨.identifierExpected, by rfl, rfl⟩ h
  refine (value_local scope assigned.2 rest).andThen fun v rest h => ?_
  have := value_le h
  refine .onLexeme (fun more ha => ?_) fun _ => .done _ rest
  have := accept_length ha
  exact assignments_local scope d _ more
termination_by 4 * ts.length

end

end Reader

end AnnotationIndex
