import AnnotationIndex.Proofs.Locality.Basic

/-!
# Names, types and places look one token ahead

The readers of names, of cast types, and of the places that headers name are put together from the
forms of readers, and so are local. The main statement is `header_local`. In the header of a method
the signature takes every token up to the colon, so that its reader is local only together with the
colon (`methodHeader`).
-/

namespace AnnotationIndex.Reader

/-! ## Tokens -/

/-- An identifier is a lexeme of a form. -/
theorem identifier_eq_take :
    identifier = take (fun l => l.word?.filter Text.isIdentifier) .identifierExpected := by
  funext ts
  rcases ts with - | ⟨⟨w⟩ | _ | _ | _, line⟩
  · rfl
  · by_cases h : Text.isIdentifier w <;> simp [identifier, take, Lexeme.word?, Option.filter, h]
  · rfl
  · rfl
  · rfl

/-- A number is a lexeme of a form. -/
theorem number_eq_take :
    number = take (fun l => l.word?.bind Numeral.natural?) .naturalExpected := by
  funext ts
  rcases ts with - | ⟨⟨w⟩ | _ | _ | _, line⟩
  · rfl
  · cases h : Numeral.natural? w <;> simp [number, take, Lexeme.word?, h]
  · rfl
  · rfl
  · rfl

/-- Expecting a symbol is expecting its lexeme. -/
theorem expectSymbol_eq_expect (c : Char) : expectSymbol c = expect (.symbol c) := by
  funext ts
  cases ha : accept (.symbol c) ts <;>
    simp only [expectSymbol, expect, acceptSymbol, ha, Lexeme.spelling?, Option.getD_some]

/-- Expecting a word is expecting its lexeme. -/
theorem expectWord_eq_expect (w : String) : expectWord w = expect (.word w) := by
  funext ts
  cases ha : accept (.word w) ts <;>
    simp only [expectWord, expect, acceptWord, ha, Lexeme.spelling?, Option.getD_some]

/-- Reading an identifier is local. -/
theorem identifier_local (ts : List Token) : LocalAt false identifier ts := by
  rw [identifier_eq_take]
  exact .take (by rfl) ts

/-- Reading a number is local. -/
theorem number_local (ts : List Token) : LocalAt false number ts := by
  rw [number_eq_take]
  exact .take (by rfl) ts

/-- Reading a number that may be missing is local. -/
theorem number?_local (ts : List Token) : LocalAt false (fun ts => .ok (number? ts)) ts := by
  have h : (fun ts => .ok (number? ts)) = optional fun l => l.word?.bind Numeral.natural? := by
    funext ts
    rw [number?, number_eq_take]
    cases ts with
    | nil => rfl
    | cons t ts =>
      rw [take, optional]
      cases t.lexeme.word?.bind Numeral.natural? <;> rfl
  rw [h]
  exact .optional _ ts

/-! ## Names and cast types -/

/-- The parts of a name are words behind points. -/
theorem nameParts_eq_onLexeme (name : String) :
    nameParts name = onLexeme (.symbol '.')
      (andThen identifier fun w => nameParts (name ++ "." ++ w)) (done name) := by
  refine funext fun ts => eq_onLexeme (fun rest h => ?_) fun h => ?_
  · refine eq_andThen (fun e h => ?_) fun w rest h => ?_ <;> simp only [nameParts_eq name ts, *]
  · simp only [nameParts_eq name ts, done, *]

/-- Reading the parts of a name is local. -/
theorem nameParts_local (name : String) (ts : List Token) : LocalAt false (nameParts name) ts := by
  rw [nameParts_eq_onLexeme]
  refine .onLexeme (fun more ha => ?_) fun _ => .done name ts
  have := accept_length ha
  refine (identifier_local more).andThen fun w rest hi => ?_
  have := identifier_length hi
  exact nameParts_local _ rest
termination_by ts.length

/-- A name is an identifier and further parts. -/
theorem qualifiedName_eq_andThen : qualifiedName = andThen identifier nameParts := by
  funext ts
  rw [qualifiedName, andThen]
  cases identifier ts <;> rfl

/-- Reading a name is local. -/
theorem qualifiedName_local (ts : List Token) : LocalAt false qualifiedName ts := by
  rw [qualifiedName_eq_andThen]
  exact (identifier_local ts).andThen fun w rest _ => nameParts_local w rest

/-- Brackets come in pairs. -/
theorem brackets_eq_onLexeme (type : String) :
    brackets type = onLexeme (.symbol '[')
      (expecting (.symbol ']') (brackets (type ++ "[]"))) (done type) := by
  refine funext fun ts => eq_onLexeme (fun rest h => ?_) fun h => ?_
  · refine eq_expecting (fun e h => ?_) fun rest h => ?_ <;>
      simp only [brackets_eq type ts, expectSymbol_eq_expect, *]
  · simp only [brackets_eq type ts, done, *]

/-- Reading brackets is local. -/
theorem brackets_local (type : String) (ts : List Token) : LocalAt false (brackets type) ts := by
  rw [brackets_eq_onLexeme]
  refine .onLexeme (fun more ha => ?_) fun _ => .done type ts
  have := accept_length ha
  refine .expecting fun rest ha' => ?_
  have := accept_length ha'
  exact brackets_local _ rest
termination_by ts.length

/-- A type is a name, with arguments or without, and brackets. -/
theorem castType_eq_andThen :
    castType = andThen qualifiedName fun name => onLexeme (.symbol '<')
      (andThen typeArguments fun arguments =>
        expecting (.symbol '>') (brackets (name ++ "<" ++ arguments ++ ">")))
      (brackets name) := by
  refine funext fun ts => eq_andThen (fun e h => ?_) fun name rest h =>
    eq_onLexeme (fun rest h => eq_andThen (fun e h => ?_) fun arguments rest h =>
      eq_expecting (fun e h => ?_) fun rest h => ?_) fun h => ?_
  all_goals simp only [castType_eq ts, expectSymbol_eq_expect, *]

/-- A type argument is a wildcard, which may have a bound, or a type. -/
theorem typeArgument_eq_onLexeme :
    typeArgument = onLexeme (.symbol '?')
      (onLexeme (.word "extends") (andThen castType fun type => done ("? extends " ++ type))
        (onLexeme (.word "super") (andThen castType fun type => done ("? super " ++ type))
          (done "?")))
      castType := by
  refine funext fun ts => eq_onLexeme (fun rest h =>
    eq_onLexeme (fun rest h => eq_andThen (fun e h => ?_) fun type rest h => ?_) fun h =>
      eq_onLexeme (fun rest h => eq_andThen (fun e h => ?_) fun type rest h => ?_) fun h => ?_)
    fun h => ?_
  all_goals simp only [typeArgument_eq ts, done, *]

/-- Type arguments are one and, behind a comma, further ones. -/
theorem typeArguments_eq_andThen :
    typeArguments = andThen typeArgument fun argument => onLexeme (.symbol ',')
      (andThen typeArguments fun arguments => done (argument ++ ", " ++ arguments))
      (done argument) := by
  refine funext fun ts => eq_andThen (fun e h => ?_) fun argument rest h =>
    eq_onLexeme (fun more ha => ?_) fun ha => ?_
  · rw [typeArguments, h]
  · have := typeArgument_shorter h
    have := accept_length ha
    have hless : more.length < ts.length := by omega
    refine eq_andThen (fun e h => ?_) fun arguments rest h => ?_ <;>
      simp only [typeArguments.eq_def ts, done, if_true, *]
  · simp only [typeArguments.eq_def ts, done, *]

mutual

/-- Reading a type is local. -/
theorem castType_local (ts : List Token) : LocalAt false castType ts := by
  rw [castType_eq_andThen]
  refine (qualifiedName_local ts).andThen fun name rest hname => ?_
  have := qualifiedName_shorter hname
  refine .onLexeme (fun more ha => ?_) fun _ => brackets_local name rest
  have := accept_length ha
  exact (typeArguments_local more).andThen fun arguments rest _ =>
    .expecting fun rest _ => brackets_local _ rest
termination_by 3 * ts.length

/-- Reading a type argument is local. -/
theorem typeArgument_local (ts : List Token) : LocalAt false typeArgument ts := by
  rw [typeArgument_eq_onLexeme]
  refine .onLexeme (fun rest ha => ?_) fun _ => castType_local ts
  have := accept_length ha
  refine .onLexeme (fun more hbound => ?_) fun _ => .onLexeme (fun more hbound => ?_) fun _ =>
    .done _ _
  all_goals
    have := accept_length hbound
    exact (castType_local more).andThen fun type rest _ => .done _ rest
termination_by 3 * ts.length + 1

/-- Reading type arguments is local. -/
theorem typeArguments_local (ts : List Token) : LocalAt false typeArguments ts := by
  rw [typeArguments_eq_andThen]
  refine (typeArgument_local ts).andThen fun argument rest h => ?_
  have := typeArgument_shorter h
  refine .onLexeme (fun more ha => ?_) fun _ => .done _ rest
  have := accept_length ha
  exact (typeArguments_local more).andThen fun arguments rest _ => .done _ rest
termination_by 3 * ts.length + 2

end

/-! ## Locations -/

/-- Steps to an inner type are numbers behind commas. -/
theorem innerSteps_eq_onLexeme :
    innerSteps = onLexeme (.symbol ',')
      (andThen number fun n => andThen innerSteps fun steps => done (n :: steps)) (done []) := by
  refine funext fun ts => eq_onLexeme (fun more h => eq_andThen (fun e h => ?_) fun n rest h =>
    eq_andThen (fun e h => ?_) fun steps rest h => ?_) fun h => ?_
  all_goals simp only [innerSteps_eq ts, done, *]

/-- Reading steps to an inner type is local. -/
theorem innerSteps_local (ts : List Token) : LocalAt false innerSteps ts := by
  rw [innerSteps_eq_onLexeme]
  refine .onLexeme (fun more ha => ?_) fun _ => .done [] ts
  have := accept_length ha
  refine (number_local more).andThen fun n rest hn => ?_
  have := number_length hn
  exact (innerSteps_local rest).andThen fun steps rest _ => .done _ rest
termination_by ts.length

/-- Reading the location of an inner type is local. -/
theorem innerTypePath_local (ts : List Token) : LocalAt false innerTypePath ts := by
  have h : innerTypePath =
      andThen number fun n => andThen innerSteps fun steps => done ⟨n :: steps⟩ := by
    refine funext fun ts => eq_andThen (fun e h => ?_) fun n rest h =>
      eq_andThen (fun e h => ?_) fun steps rest h => ?_
    all_goals simp only [innerTypePath, done, *]
  rw [h]
  exact (number_local ts).andThen fun n rest _ =>
    (innerSteps_local rest).andThen fun steps rest _ => .done _ rest

/-- Reading a bound is local. -/
theorem bound_local (ts : List Token) : LocalAt false bound ts := by
  have h : bound = andThen number fun parameter => expecting (.symbol '&')
      (andThen number fun bound => done ⟨parameter, bound⟩) := by
    refine funext fun ts => eq_andThen (fun e h => ?_) fun parameter rest h =>
      eq_expecting (fun e h => ?_) fun rest h => eq_andThen (fun e h => ?_) fun bound rest h => ?_
    all_goals simp only [Reader.bound, expectSymbol_eq_expect, done, *]
  rw [h]
  exact (number_local ts).andThen fun parameter rest _ => .expecting fun rest _ =>
    (number_local rest).andThen fun bound rest _ => .done _ rest

/-- Reading a local variable is local. -/
theorem localVariable_local (ts : List Token) : LocalAt false localVariable ts := by
  have h : localVariable = andThen number fun index => expecting (.symbol '#')
      (andThen number fun start => expecting (.symbol '+')
        (andThen number fun length => done ⟨index, start, length⟩)) := by
    refine funext fun ts => eq_andThen (fun e h => ?_) fun index rest h =>
      eq_expecting (fun e h => ?_) fun rest h => eq_andThen (fun e h => ?_) fun start rest h =>
        eq_expecting (fun e h => ?_) fun rest h =>
          eq_andThen (fun e h => ?_) fun length rest h => ?_
    all_goals simp only [localVariable, expectSymbol_eq_expect, done, *]
  rw [h]
  exact (number_local ts).andThen fun index rest _ => .expecting fun rest _ =>
    (number_local rest).andThen fun start rest _ => .expecting fun rest _ =>
      (number_local rest).andThen fun length rest _ => .done _ rest

/-- Reading a position in code is local. -/
theorem codePosition_local (ts : List Token) : LocalAt false codePosition ts := by
  have h : codePosition = onLexeme (.symbol '#') (andThen number fun n => done (.offset n))
      (onLexeme (.symbol '*') (andThen number fun n => done (.index n))
        (fail .positionExpected)) := by
    refine funext fun ts => eq_onLexeme
      (fun rest h => eq_andThen (fun e h => ?_) fun n rest h => ?_) fun h => eq_onLexeme
        (fun rest h => eq_andThen (fun e h => ?_) fun n rest h => ?_) fun h => ?_
    all_goals simp only [codePosition, done, *]
  rw [h]
  exact .onLexeme (fun rest _ => (number_local rest).andThen fun n rest _ => .done _ rest) fun _ =>
    .onLexeme (fun rest _ => (number_local rest).andThen fun n rest _ => .done _ rest) fun _ =>
      .fail (by rfl) ts

/-- Reading the number of an interface is local. -/
theorem interface_local (ts : List Token) : LocalAt false interface ts := by
  have h : interface = take (fun l => (l.word?.bind Numeral.natural?).bind Supertype.ofInterface?)
      .interfaceExpected := by
    funext ts
    rw [interface, number_eq_take]
    cases ts with
    | nil => rfl
    | cons t ts =>
      rw [take, take]
      cases t.lexeme.word?.bind Numeral.natural? with
      | none => rfl
      | some n => cases h : Supertype.ofInterface? n <;> simp [h]
  rw [h]
  exact .take (by rfl) ts

/-- Reading the number of an initializer block is local. -/
theorem ordinal_local (ts : List Token) : LocalAt false ordinal ts := by
  have h : ordinal = expecting (.symbol '*') number := by
    refine funext fun ts => eq_expecting (fun e h => ?_) fun rest h => ?_ <;>
      simp only [ordinal, expectSymbol_eq_expect, *]
  rw [h]
  exact .expecting fun rest _ => number_local rest

/-- Reading the number of a parameter is local. -/
theorem parameter_local (ts : List Token) : LocalAt false parameter ts := by
  have h : parameter = expecting (.symbol '#') number := by
    refine funext fun ts => eq_expecting (fun e h => ?_) fun rest h => ?_ <;>
      simp only [parameter, expectSymbol_eq_expect, *]
  rw [h]
  exact .expecting fun rest _ => number_local rest

/-- Reading a step of a path in a source is local. -/
theorem sourceStep_local (ts : List Token) : LocalAt false sourceStep ts := by
  have h : sourceStep = andThen identifier fun kind => expecting (.symbol '.')
      (andThen identifier fun child => andThen (fun ts => .ok (number? ts)) fun argument =>
        done ⟨kind, child, argument⟩) := by
    refine funext fun ts => eq_andThen (fun e h => ?_) fun kind rest h =>
      eq_expecting (fun e h => ?_) fun rest h => eq_andThen (fun e h => ?_) fun child rest h => ?_
    all_goals simp only [sourceStep, expectSymbol_eq_expect, andThen, done, *]
  rw [h]
  exact (identifier_local ts).andThen fun kind rest _ => .expecting fun rest _ =>
    (identifier_local rest).andThen fun child rest _ =>
      (number?_local rest).andThen fun argument rest _ => .done _ rest

/-- Steps of a path in a source are one and, behind a comma, further ones. -/
theorem sourceSteps_eq_andThen :
    sourceSteps = andThen sourceStep fun step => onLexeme (.symbol ',')
      (andThen sourceSteps fun steps => done (step :: steps)) (done [step]) := by
  refine funext fun ts => eq_andThen (fun e h => ?_) fun step rest h =>
    eq_onLexeme (fun more h => eq_andThen (fun e h => ?_) fun steps rest h => ?_) fun h => ?_
  all_goals simp only [sourceSteps_eq ts, done, *]

/-- Reading steps of a path in a source is local. -/
theorem sourceSteps_local (ts : List Token) : LocalAt false sourceSteps ts := by
  rw [sourceSteps_eq_andThen]
  refine (sourceStep_local ts).andThen fun step rest hs => ?_
  have := sourceStep_shorter hs
  refine .onLexeme (fun more ha => ?_) fun _ => .done _ rest
  have := accept_length ha
  exact (sourceSteps_local more).andThen fun steps rest _ => .done _ rest
termination_by ts.length

/-- Reading a path in a source is local. -/
theorem sourcePath_local (ts : List Token) : LocalAt false sourcePath ts := by
  have h : sourcePath = andThen sourceSteps fun steps => done ⟨steps⟩ := by
    refine funext fun ts => eq_andThen (fun e h => ?_) fun steps rest h => ?_ <;>
      simp only [sourcePath, done, *]
  rw [h]
  exact (sourceSteps_local ts).andThen fun steps rest _ => .done _ rest

/-- Reads the header of a method after the beginning of its key. -/
def methodHeader (key : String) (ts : List Token) : Read Slot :=
  match methodKey key ts with
  | .error e => .error e
  | .ok (key, rest) =>
    match expectSymbol ':' rest with
    | .error e => .error e
    | .ok rest => if key = "" then fail .signatureExpected rest else .ok (.method key, rest)

/-- A colon ends the header of a method, unless its key is empty. -/
theorem methodHeader_of_colon (key : String) {t : Token} (ht : t.lexeme = .symbol ':')
    (ts : List Token) : methodHeader key (t :: ts) =
      if key = "" then fail .signatureExpected ts else .ok (.method key, ts) := by
  have haccept : acceptSymbol ':' (t :: ts) = some ts := if_pos ht
  rw [methodHeader, methodKey, if_pos ht]
  simp only [expectSymbol, haccept]

/-- Any other token adds its spelling to the key of a method. -/
theorem methodHeader_of_ne (key : String) {t : Token} (ht : t.lexeme ≠ .symbol ':')
    (ts : List Token) : methodHeader key (t :: ts) =
      andThen (take Lexeme.spelling? .signatureEndExpected) (fun s => methodHeader (key ++ s))
        (t :: ts) := by
  rw [methodHeader, methodKey, if_neg ht, andThen, take]
  cases t.lexeme.spelling? <;> rfl

/-- Reading the header of a method is local. -/
theorem methodHeader_local (key : String) (ts : List Token) :
    LocalAt false (methodHeader key) ts := by
  have hnil (key : String) : Misses (methodHeader key []) := ⟨.signatureEndExpected, rfl, rfl⟩
  induction ts generalizing key with
  | nil => exact .short (hnil key)
  | cons t ts ih =>
    by_cases ht : t.lexeme = .symbol ':'
    · by_cases hkey : key = ""
      · refine .error (c := .signatureExpected) [] [t] rfl (by simp)
          (congrArg (fun l => [l]) ht) (.inl (hnil key)) fun left' _ _ => ?_
        exact (methodHeader_of_colon key ht left').trans (if_pos hkey)
      · refine .ok (.method key) [t] rfl fun rest' _ => ?_
        exact (methodHeader_of_colon key ht rest').trans (if_neg hkey)
    · have h : LocalAt false (andThen (take Lexeme.spelling? .signatureEndExpected)
          fun s => methodHeader (key ++ s)) (t :: ts) := by
        refine LocalAt.andThen (.take (by rfl) _) fun s rest hs => ?_
        rw [take] at hs
        split at hs
        · cases hs
          exact ih _
        · cases hs
      exact h.of_head (.inl (hnil key)) (methodHeader_of_ne key ht)
        fun _ _ => h.shorter ⟨.signatureEndExpected, rfl, rfl⟩

/-- A location that is read, other than the key of a method, is of the section that it is read
for. -/
theorem location_local {s : Section} (hs : s ≠ .method) (ts : List Token) :
    LocalAt false (location s) ts ∧ ∀ slot rest, location s ts = .ok (slot, rest) →
      slot ≠ .method "" := by
  have hplaced {α : Type} {r : List Token → Read α} (slot : α → Slot)
      (hr : LocalAt false r ts) (hslot : ∀ x, slot x ≠ .method "")
      (h : location s = fun ts => placed slot (r ts)) :
      LocalAt false (location s) ts ∧ ∀ slot rest, location s ts = .ok (slot, rest) →
        slot ≠ .method "" := by
    have hmap : location s = andThen r fun x => done (slot x) := by
      rw [h]
      funext ts
      simp only [andThen, placed]
      cases r ts <;> rfl
    refine ⟨hmap ▸ hr.andThen fun x rest _ => .done _ rest, fun slot' rest hok => ?_⟩
    rw [h] at hok
    obtain ⟨x, -, rfl⟩ := placed_ok hok
    exact hslot x
  have hkeyword {slot : Slot} (hslot : slot ≠ .method "") (h : location s = done slot) :
      LocalAt false (location s) ts ∧ ∀ slot rest, location s ts = .ok (slot, rest) →
        slot ≠ .method "" := by
    rw [h]
    exact ⟨.done slot ts, fun slot' rest hok => by cases hok; exact hslot⟩
  cases s with
  | bound => exact hplaced .bound (bound_local ts) (by simp) rfl
  | superclass => exact hkeyword (by simp) rfl
  | interface => exact hplaced .supertype (interface_local ts) (by simp) rfl
  | field => exact hplaced .field (identifier_local ts) (by simp) rfl
  | method => exact absurd rfl hs
  | staticInit => exact hplaced .staticInit (ordinal_local ts) (by simp) rfl
  | instanceInit => exact hplaced .instanceInit (ordinal_local ts) (by simp) rfl
  | returnType => exact hkeyword (by simp) rfl
  | receiver => exact hkeyword (by simp) rfl
  | parameter => exact hplaced .parameter (parameter_local ts) (by simp) rfl
  | thrown => exact hplaced .thrown (number_local ts) (by simp) rfl
  | localVariable => exact hplaced .localVariable (localVariable_local ts) (by simp) rfl
  | typecast => exact hplaced .typecast (codePosition_local ts) (by simp) rfl
  | instanceof => exact hplaced .instanceof (codePosition_local ts) (by simp) rfl
  | creation => exact hplaced .creation (codePosition_local ts) (by simp) rfl
  | innerType => exact hplaced .innerType (innerTypePath_local ts) (by simp) rfl
  | insertion => exact hplaced .insertion (sourcePath_local ts) (by simp) rfl
  | castInsertion => exact hplaced .castInsertion (sourcePath_local ts) (by simp) rfl

/-- Reading the header of a section is local. -/
theorem header_local (s : Section) (ts : List Token) : LocalAt false (header s) ts := by
  by_cases hs : s = .method
  · subst hs
    have h : header .method = methodHeader "" := by
      funext ts
      rcases hk : methodKey "" ts with e | ⟨key, rest⟩
      · simp only [header, location, methodHeader, placed, hk]
      · cases he : expectSymbol ':' rest <;>
          simp only [header, location, methodHeader, placed, hk, he, Slot.method.injEq]
    rw [h]
    exact methodHeader_local "" ts
  · have h : header s = andThen (location s) fun slot => expecting (.symbol ':') (done slot) := by
      refine funext fun ts => eq_andThen (fun e h => ?_) fun slot rest h =>
        eq_expecting (fun e h => ?_) fun rest he => ?_
      · simp only [header, h]
      · simp only [header, expectSymbol_eq_expect, *]
      · have hslot := (location_local hs ts).2 _ _ h
        simp only [header, expectSymbol_eq_expect, done, h, he, if_neg hslot]
    rw [h]
    exact (location_local hs ts).1.andThen fun slot rest _ =>
      .expecting fun rest _ => .done slot rest

/-! ## Packages -/

/-- Reading the name of a package is local. -/
theorem packageName_local (ts : List Token) : LocalAt false packageName ts := by
  have h : packageName = onLexeme (.symbol ':') (done "")
      (andThen qualifiedName fun name => expecting (.symbol ':') (done name)) := by
    refine funext fun ts => eq_onLexeme (fun rest h => ?_) fun h => eq_andThen (fun e h => ?_)
      fun name rest h => eq_expecting (fun e h => ?_) fun rest h => ?_
    all_goals simp only [packageName, expectSymbol_eq_expect, done, *]
  rw [h]
  exact .onLexeme (fun rest _ => .done _ rest) fun _ =>
    (qualifiedName_local ts).andThen fun name rest _ => .expecting fun rest _ => .done _ rest

end AnnotationIndex.Reader
