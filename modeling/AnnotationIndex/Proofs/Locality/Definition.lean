import AnnotationIndex.Proofs.Locality.Annotation

/-!
# Definitions look one token ahead

The reader of a definition is local. The definition that it finds to be there already is known from
its header, from the keyword on (`newDefinition`); its annotations and fields may end with the text.
-/

namespace AnnotationIndex.Reader

/-! ## Field types -/

/-- The type that a keyword or the class of classes names. -/
def basicType (name : String) : Except Cause FieldType :=
  if name = "Class" ∨ name = "java.lang.Class" then .ok .classToken
  else
    match BasicKind.ofKeyword? name with
    | some kind => .ok (.basic kind)
    | none => .error (.fieldTypeExpected name)

/-- The type whose values are annotations of this name. -/
def nestedType (scope : Scope) (name : String) : Except Cause FieldType :=
  match scope.resolve? name with
  | some d => .ok (.nested d)
  | none => .error (.undefinedFieldType name)

/-- The type of a nested annotation is a name that has to be known. -/
theorem scalarType_eq_demand_nestedType {scope : Scope} {ts rest : List Token}
    (henum : acceptWord "enum" ts = none)
    (hfield : acceptWord "annotation-field" ts = some rest) :
    scalarType scope ts =
      demand qualifiedName (nestedType scope) ((acceptSymbol '@' rest).getD rest) := by
  rcases hq : qualifiedName ((acceptSymbol '@' rest).getD rest) with e | ⟨name, more⟩
  · simp only [scalarType, demand, henum, hfield, hq]
  cases hr : scope.resolve? name with
  | none =>
    have hcheck : nestedType scope name = .error (.undefinedFieldType name) := by
      simp only [nestedType, hr]
    have hdemand : demand qualifiedName (nestedType scope) ((acceptSymbol '@' rest).getD rest) =
        fail (.undefinedFieldType name) more := demand_of_error hq hcheck
    simp only [scalarType, henum, hfield, hq, hr, hdemand]
  | some d =>
    have hcheck : nestedType scope name = .ok (.nested d) := by simp only [nestedType, hr]
    simp only [scalarType, henum, hfield, hq, hr, demand_of_ok hq hcheck]

/-- A basic type is a name that has to be one of those. -/
theorem scalarType_eq_demand_basicType {scope : Scope} {ts : List Token}
    (henum : acceptWord "enum" ts = none) (hfield : acceptWord "annotation-field" ts = none) :
    scalarType scope ts = demand qualifiedName basicType ts := by
  rcases hq : qualifiedName ts with e | ⟨name, rest⟩
  · simp only [scalarType, demand, henum, hfield, hq]
  by_cases hclass : name = "Class" ∨ name = "java.lang.Class"
  · have hcheck : basicType name = .ok .classToken := if_pos hclass
    simp only [scalarType, henum, hfield, hq, demand_of_ok hq hcheck, if_pos hclass]
  cases hk : BasicKind.ofKeyword? name with
  | none =>
    have hcheck : basicType name = .error (.fieldTypeExpected name) := by
      simp only [basicType, if_neg hclass, hk]
    have hdemand : demand qualifiedName basicType ts = fail (.fieldTypeExpected name) rest :=
      demand_of_error hq hcheck
    simp only [scalarType, henum, hfield, hq, hk, hdemand, if_neg hclass]
  | some kind =>
    have hcheck : basicType name = .ok (.basic kind) := by
      simp only [basicType, if_neg hclass, hk]
    simp only [scalarType, henum, hfield, hq, hk, demand_of_ok hq hcheck, if_neg hclass]

/-- The type of a single value, from the local forms: its first word decides. -/
theorem scalarType_eq_onLexeme (scope : Scope) :
    scalarType scope = onLexeme (.word "enum") (andThen qualifiedName fun name => done (.enum name))
      (onLexeme (.word "annotation-field")
        (onLexeme (.symbol '@') (demand qualifiedName (nestedType scope))
          (demand qualifiedName (nestedType scope)))
        (demand qualifiedName basicType)) := by
  refine funext fun ts => eq_onLexeme (fun rest h => eq_andThen (fun e hq => ?_)
    fun name rest hq => ?_) fun henum => eq_onLexeme (fun rest hfield => ?_) fun hfield => ?_
  · simp only [scalarType, h, hq]
  · simp only [scalarType, done, h, hq]
  · rw [scalarType_eq_demand_nestedType henum hfield]
    refine eq_onLexeme (fun rest ha => ?_) fun ha => ?_ <;>
      simp only [acceptSymbol, ha, Option.getD_some, Option.getD_none]
  · exact scalarType_eq_demand_basicType henum hfield

/-- Reading the type of a single value is local. -/
theorem scalarType_local (scope : Scope) (ts : List Token) :
    LocalAt false (scalarType scope) ts := by
  rw [scalarType_eq_onLexeme]
  refine .onLexeme (fun rest _ => (qualifiedName_local rest).andThen fun name rest _ =>
    .done _ rest) fun _ => .onLexeme (fun rest _ => ?_) fun _ => ?_
  · have hnested (us : List Token) :
        LocalAt false (demand qualifiedName (nestedType scope)) us := by
      refine (qualifiedName_local us).demand ⟨.identifierExpected, rfl, rfl⟩ ?_
      intro name c used hused hc
      rw [nestedType] at hc
      split at hc
      · cases hc
      · cases hc
        exact hused
    exact .onLexeme (fun rest _ => hnested rest) fun _ => hnested rest
  · refine (qualifiedName_local ts).demand ⟨.identifierExpected, rfl, rfl⟩ ?_
    intro name c used hused hc
    rw [basicType] at hc
    split at hc
    · cases hc
    split at hc
    · cases hc
    · cases hc
      exact hused

/-- Reading the type of a field is local. -/
theorem fieldType_local (scope : Scope) (ts : List Token) : LocalAt false (fieldType scope) ts := by
  have h : fieldType scope = onLexeme (.word "unknown")
      (expecting (.symbol '[') (expecting (.symbol ']') (done .unknownArray)))
      (andThen (scalarType scope) fun type => onLexeme (.symbol '[')
        (expecting (.symbol ']') (done (.array type))) (done type)) := by
    refine funext fun ts => eq_onLexeme (fun rest h => eq_expecting (fun e h => ?_) fun rest h =>
      eq_expecting (fun e h => ?_) fun rest h => ?_) fun h => eq_andThen (fun e h => ?_)
        fun type rest h => eq_onLexeme (fun rest h => eq_expecting (fun e h => ?_)
          fun rest h => ?_) fun h => ?_
    all_goals simp only [fieldType, expectSymbol_eq_expect, done, *]
  rw [h]
  refine .onLexeme (fun rest _ => .expecting fun rest _ => .expecting fun rest _ => .done _ rest)
    fun _ => (scalarType_local scope ts).andThen fun type rest _ =>
      .onLexeme (fun rest _ => .expecting fun rest _ => .done _ rest) fun _ => .done _ rest

/-! ## Annotations on definitions -/

/-- Reads an annotation on a definition after others. -/
def nextMeta (scope : Scope) (given : List Annotation) : List Token → Read (List Annotation) :=
  demand (single scope true) fun a =>
    if (AnnotationSet.find? given a.name).isSome then .error (.annotationTwice a.name)
    else .ok (given ++ [a])

/-- At the end of the text the next annotation on a type is missing. -/
theorem nextMeta_nil (scope : Scope) (given : List Annotation) : Misses (nextMeta scope given []) :=
  ⟨.expected "@", by rfl, by rw [nextMeta, demand, single_eq]; rfl⟩

/-- Reading the next annotation on a type is local. -/
theorem nextMeta_local (scope : Scope) (given : List Annotation) (ts : List Token) :
    LocalAt false (nextMeta scope given) ts := by
  refine (single_local scope true ts).demand ⟨.expected "@", by rfl, by rw [single_eq]; rfl⟩ ?_
  intro a c used hused hc
  split at hc
  · cases hc
    exact ⟨scope, true, a, hused, rfl⟩
  · cases hc

/-- Reading the annotations on a type is local. -/
theorem metas_local (scope : Scope) (given : List Annotation) (ts : List Token) :
    LocalAt true (metas scope given) ts := by
  cases ha : acceptSymbol '@' ts with
  | none =>
    refine .ok given [] rfl fun rest' hl => ?_
    have := hl.accept ha
    simp only [List.nil_append, metas_eq, this]
  | some more =>
    obtain ⟨line, rfl⟩ := accept_eq_some_iff.1 ha
    have h : LocalAt true (andThen (nextMeta scope given) (metas scope))
        (⟨.symbol '@', line⟩ :: more) := by
      refine (nextMeta_local scope given _).andThen fun given' rest h => ?_
      have := (nextMeta_local scope given _).shorter (nextMeta_nil scope given) h
      exact metas_local scope given' rest
    have hnil : metas scope given [] = .ok (given, []) := by
      rw [metas_eq]
      rfl
    have hmisses : Misses (andThen (nextMeta scope given) (metas scope) []) := by
      obtain ⟨c, hc, h⟩ := nextMeta_nil scope given
      exact ⟨c, hc, andThen_of_error h⟩
    refine h.of_head (.inr ⟨rfl, given, hnil⟩) (fun us => ?_) fun _ _ => h.shorter hmisses
    have haccept : acceptSymbol '@' (⟨.symbol '@', line⟩ :: us) = some us := accept_self _ _ _
    rcases hs : single scope true (⟨.symbol '@', line⟩ :: us) with e | ⟨a, rest⟩
    · simp only [metas_eq scope given (_ :: us), haccept, andThen, nextMeta, demand, hs]
    by_cases hgiven : (AnnotationSet.find? given a.name).isSome
    · have hnext : nextMeta scope given (⟨.symbol '@', line⟩ :: us) =
          fail (.annotationTwice a.name) (⟨.symbol '@', line⟩ :: us) :=
        demand_of_error hs (if_pos hgiven)
      simp only [metas_eq scope given (_ :: us), haccept, andThen, fail, hs, hnext, if_pos hgiven]
    · have hnext : nextMeta scope given (⟨.symbol '@', line⟩ :: us) = .ok (given ++ [a], rest) :=
        demand_of_ok hs (if_neg hgiven)
      rw [andThen_of_ok hnext, metas_eq, haccept]
      simp only [hs, if_neg hgiven]
termination_by ts.length

/-! ## Fields -/

/-- Reads the name of a field after others. -/
def fieldName (definition : String) (given : List (String × FieldType)) :
    List Token → Read String :=
  demand identifier fun field =>
    if (Keyed.get? field given).isSome then .error (.duplicateField field definition) else .ok field

/-- Reading the name of a field is local. -/
theorem fieldName_local (definition : String) (given : List (String × FieldType))
    (ts : List Token) : LocalAt false (fieldName definition given) ts := by
  refine (identifier_local ts).demand ⟨.identifierExpected, rfl, rfl⟩ ?_
  intro field c used hused hc
  split at hc
  · cases hc
    obtain ⟨us, rfl, hus⟩ := (identifier_takes hused).2
    rw [List.append_nil]
    exact hus
  · cases hc

/-- Reading the fields of a definition is local. -/
theorem fields_local (scope : Scope) (definition : String) (given : List (String × FieldType))
    (ts : List Token) : LocalAt true (fields scope definition given) ts := by
  have hnil : fields scope definition given [] = .ok (given, []) := by
    rw [fields_eq]
    rfl
  cases ts with
  | nil => exact .of_nil hnil
  | cons t ts =>
    by_cases hword : t.lexeme.word?.any isKeyword = true
    · have hstop (us : List Token) :
          fields scope definition given (t :: us) = .ok (given, t :: us) := by
        rw [fields_eq, word?, hword, Bool.or_true, if_pos rfl]
      refine .ok given [] rfl fun rest' hl => ?_
      cases rest' with
      | nil => exact hnil
      | cons u us =>
        obtain h | h := hl
        · cases h
        obtain rfl : u = t := Option.some.inj h
        exact hstop us
    · have h : LocalAt true (andThen (fieldType scope) fun type =>
          andThen (fieldName definition given) fun field =>
            fields scope definition (given ++ [(field, type)])) (t :: ts) := by
        refine (fieldType_local scope _).andThen fun type rest ht => ?_
        have : rest.length < ts.length + 1 := fieldType_shorter ht
        refine (fieldName_local definition given rest).andThen fun field rest' hf => ?_
        have := (fieldName_local definition given rest).shorter ⟨.identifierExpected, rfl, rfl⟩ hf
        exact fields_local scope definition _ rest'
      refine h.of_head (.inr ⟨rfl, given, hnil⟩) (fun us => ?_) fun _ _ => h.shorter ?_
      · rw [fields_eq, word?, List.isEmpty_cons, Bool.false_or, if_neg hword]
        refine eq_andThen (fun e ht => ?_) fun type rest ht => ?_
        · simp only [ht]
        rcases hi : identifier rest with e | ⟨field, rest'⟩
        · simp only [andThen, fieldName, demand, ht, hi]
        by_cases hgiven : (Keyed.get? field given).isSome
        · have hname : fieldName definition given rest =
              fail (.duplicateField field definition) rest' :=
            demand_of_error hi (if_pos hgiven)
          simp only [andThen, fail, ht, hi, hname, if_pos hgiven]
        · have hname : fieldName definition given rest = .ok (field, rest') :=
            demand_of_ok hi (if_neg hgiven)
          simp only [andThen, ht, hi, hname, if_neg hgiven]
      · exact ⟨.identifierExpected, rfl, rfl⟩
termination_by ts.length

/-! ## Whole definitions -/

/-- Reads the beginning of a definition, from its keyword to the colon. -/
def definitionHeader : List Token → Read (Option Retention × String) :=
  expecting (.word "annotation") <|
    andThen (optional fun l => l.word?.bind Retention.ofKeyword?) fun retention =>
      expecting (.symbol '@') <| andThen identifier fun base =>
        expecting (.symbol ':') (done (retention, base))

/-- Reads the beginning of a definition, of a type that is not defined. -/
def newDefinition (scope : Scope) : List Token → Read (Option Retention × String) :=
  demand definitionHeader fun header =>
    let name := qualify scope.package header.2
    if scope.definitions.any fun d => d.name = name then .error (.duplicateDefinition name)
    else .ok (header.1, name)

/-- Reads a definition, from its keyword. -/
def definitionFrom (scope : Scope) : List Token → Read Definition :=
  andThen (newDefinition scope) fun header =>
    andThen (metas scope []) fun as =>
      andThen (fields scope header.2 []) fun fs => done ⟨header.2, header.1, fs, as⟩

/-- A definition is read from the word in front of it. -/
theorem definition_eq_definitionFrom (scope : Scope) (line : Nat) (ts : List Token) :
    definition scope line ts = definitionFrom scope (⟨.word "annotation", line⟩ :: ts) := by
  have hretention :
      optional (fun l => l.word?.bind Retention.ofKeyword?) ts = .ok (retention? ts) := by
    cases ts with
    | nil => rfl
    | cons t ts =>
      rw [retention?, word?, optional]
      cases t.lexeme.word?.bind Retention.ofKeyword? <;> rfl
  rcases hr : retention? ts with ⟨retention, us⟩
  rw [hr] at hretention
  have hheader : definitionHeader (⟨.word "annotation", line⟩ :: ts) =
      expecting (.symbol '@') (andThen identifier fun base =>
        expecting (.symbol ':') (done (retention, base))) us := by
    rw [definitionHeader, expecting_self, andThen_of_ok hretention]
  rcases he : expect (.symbol '@') us with e | more
  · simp only [definition, definitionFrom, newDefinition, expectSymbol_eq_expect, andThen, demand,
      hheader, expecting, hr, he]
  rcases hi : identifier more with e | ⟨base, more'⟩
  · simp only [definition, definitionFrom, newDefinition, expectSymbol_eq_expect, andThen, demand,
      hheader, expecting, hr, he, hi]
  rcases hc : expect (.symbol ':') more' with e | rest
  · simp only [definition, definitionFrom, newDefinition, expectSymbol_eq_expect, andThen, demand,
      hheader, expecting, hr, he, hi, hc]
  have hread : definitionHeader (⟨.word "annotation", line⟩ :: ts) =
      .ok ((retention, base), rest) := by
    simp only [hheader, andThen, expecting, done, he, hi, hc]
  by_cases hold : (scope.definitions.any fun d => d.name = qualify scope.package base) = true
  · have hnew : newDefinition scope (⟨.word "annotation", line⟩ :: ts) =
        fail (.duplicateDefinition (qualify scope.package base))
          (⟨.word "annotation", line⟩ :: ts) :=
      demand_of_error hread (if_pos hold)
    simp only [definition, definitionFrom, expectSymbol_eq_expect, andThen, fail, hr, he, hi, hc,
      hnew, if_pos hold, List.head?_cons, Option.map_some]
  · have hnew : newDefinition scope (⟨.word "annotation", line⟩ :: ts) =
        .ok ((retention, qualify scope.package base), rest) :=
      demand_of_ok hread (if_neg hold)
    rw [definitionFrom, andThen_of_ok hnew]
    refine eq_andThen (fun e hm => ?_) fun as rest hm => eq_andThen (fun e hf => ?_)
      fun fs rest hf => ?_
    all_goals
      simp only [definition, expectSymbol_eq_expect, done, Bool.false_eq_true, if_false, *]

/-- The header of a definition is its retention policy and its name. -/
theorem definitionHeader_takes {ts : List Token} {retention : Option Retention} {base : String}
    (h : definitionHeader ts = .ok ((retention, base), [])) :
    ts.map (·.lexeme) = .word "annotation" ::
      (retentionLexemes retention ++ [.symbol '@', .word base, .symbol ':']) := by
  obtain ⟨_, more, rfl, h⟩ := expecting_eq_ok h
  obtain ⟨retention, rest, hretention, h⟩ := andThen_eq_ok h
  obtain ⟨_, rest, rfl, h⟩ := expecting_eq_ok h
  obtain ⟨base, rest', hbase, h⟩ := andThen_eq_ok h
  obtain ⟨_, left, rfl, h⟩ := expecting_eq_ok h
  cases h
  obtain ⟨us, rfl, hus⟩ := (identifier_takes hbase).2
  cases more with
  | nil => cases hretention
  | cons t more =>
    rw [optional] at hretention
    split at hretention
    · next r hr =>
      cases hretention
      obtain ⟨w, hw, hr⟩ := Option.bind_eq_some_iff.1 hr
      have hkeyword : r.keyword = w := by
        rw [Retention.ofKeyword?] at hr
        simpa using List.find?_some hr
      obtain ⟨⟨w⟩ | _ | _ | _, line⟩ := t <;> cases hw
      simp [retentionLexemes, hus, hkeyword]
    · cases hretention
      simp [retentionLexemes, hus]

/-- Reading the header of a definition whose name has to be new is local. -/
theorem newDefinition_local (scope : Scope) (ts : List Token) :
    LocalAt false (newDefinition scope) ts := by
  refine LocalAt.demand ?_ ⟨.expected "annotation", by rfl, rfl⟩ ?_
  · exact .expecting fun rest _ => (LocalAt.optional _ rest).andThen fun retention rest _ =>
      .expecting fun rest _ => (identifier_local rest).andThen fun base rest _ =>
        .expecting fun rest _ => .done _ rest
  · intro header c used hused hc
    dsimp only at hc
    split at hc
    · cases hc
      exact ⟨header.1, header.2, scope.package, definitionHeader_takes hused, rfl⟩
    · cases hc

/-- Reading a definition from the word in front of it is local. -/
theorem definitionFrom_local (scope : Scope) (ts : List Token) :
    LocalAt true (definitionFrom scope) ts := by
  have hfields (definition : String) : fields scope definition [] [] = .ok ([], []) := by
    rw [fields_eq]
    rfl
  refine (newDefinition_local scope ts).andThen fun header rest _ => ?_
  refine (metas_local scope [] rest).andThen_end (fun _ as => .inr ⟨rfl, ?_⟩) fun as rest _ => ?_
  · exact ⟨_, andThen_of_ok (hfields header.2)⟩
  · exact (fields_local scope header.2 [] rest).andThen_end (fun _ fs => .inr ⟨rfl, _, rfl⟩)
      fun fs rest _ => .done _ rest

end AnnotationIndex.Reader
