import AnnotationIndex.Proofs.Keyed
import AnnotationIndex.Proofs.Reader.Value

/-!
# Annotations are read back

An annotation that is read is of a type in scope and gives values of the declared types to the
fields of that type (`Annotation.Typed`, `Reader.single_yields`). The text of such an annotation is
read as that annotation (`Reader.shows_single`): its fields and values do not change, nor do the
annotations inside it. `Reader.single_text` says so of every scope that has the types under their
full names.
-/

namespace AnnotationIndex

open Reader Text

/-! ## Typed annotations -/

mutual

/-- The type of the annotation is among the definitions, and the annotation gives to some fields of
that type a value each. -/
def Annotation.Typed (ds : List Definition) : Annotation → Prop
  | ⟨definition, values⟩ =>
    definition ∈ ds ∧ (Keyed.keys values).Nodup ∧ Value.NamedTyped ds definition.fields values
termination_by structural a => a

/-- The value is one that a field of the type can have, with annotations of types among the
definitions. -/
def Value.Typed (ds : List Definition) : Value → FieldType → Prop
  | .nested a, .nested d => a.Typed ds ∧ a.name = d.name
  | .array vs, .array element => Value.AllTyped ds element vs
  | .array vs, .unknownArray => vs = []
  | .classToken name, .classToken => IsClassName name
  | .enum name, .enum _ => IsIdentifier name
  | v, .basic kind => kind.accepts v = true
  | _, _ => False
termination_by structural v => v

/-- Each of the values is one that a field of the type can have. -/
def Value.AllTyped (ds : List Definition) (type : FieldType) : List Value → Prop
  | [] => True
  | v :: vs => v.Typed ds type ∧ Value.AllTyped ds type vs
termination_by structural vs => vs

/-- Each of the values is one that the field of its name can have. -/
def Value.NamedTyped (ds : List Definition) (fields : List (String × FieldType)) :
    List (String × Value) → Prop
  | [] => True
  | (name, v) :: rest =>
    (IsIdentifier name ∧ ∃ type, Keyed.get? name fields = some type ∧ v.Typed ds type) ∧
      Value.NamedTyped ds fields rest
termination_by structural values => values

end

/-- The type of a typed annotation is among the definitions. -/
theorem Annotation.Typed.mem {ds : List Definition} {a : Annotation} (h : a.Typed ds) :
    a.definition ∈ ds := by
  obtain ⟨definition, values⟩ := a
  exact h.1

/-- The values of a typed annotation are typed for the fields of its type. -/
theorem Annotation.Typed.named {ds : List Definition} {a : Annotation} (h : a.Typed ds) :
    Value.NamedTyped ds a.definition.fields a.values := by
  obtain ⟨definition, values⟩ := a
  exact h.2.2

/-- Elements are typed when each of them is. -/
theorem Value.allTyped_iff {ds : List Definition} {type : FieldType} {vs : List Value} :
    Value.AllTyped ds type vs ↔ ∀ v ∈ vs, v.Typed ds type := by
  induction vs with
  | nil => simp [Value.AllTyped]
  | cons v vs ih => rw [Value.AllTyped, ih, List.forall_mem_cons]

/-- Named values are typed when each has a field whose type it has. -/
theorem Value.namedTyped_iff {ds : List Definition} {fields : List (String × FieldType)}
    {values : List (String × Value)} : Value.NamedTyped ds fields values ↔
      ∀ v ∈ values,
        IsIdentifier v.1 ∧ ∃ type, Keyed.get? v.1 fields = some type ∧ v.2.Typed ds type := by
  induction values with
  | nil => simp [Value.NamedTyped]
  | cons v values ih => rw [Value.NamedTyped, ih, List.forall_mem_cons]

/-- Values in two lists are typed when those of each list are. -/
theorem Value.namedTyped_append {ds : List Definition} {fields : List (String × FieldType)}
    {xs ys : List (String × Value)} : Value.NamedTyped ds fields (xs ++ ys) ↔
      Value.NamedTyped ds fields xs ∧ Value.NamedTyped ds fields ys := by
  induction xs with
  | nil => simp [Value.NamedTyped]
  | cons x xs ih => simp only [List.cons_append, Value.NamedTyped, ih, and_assoc]

mutual

/-- Typed annotations are typed for more definitions. -/
theorem Annotation.Typed.mono {ds ds' : List Definition} (hs : ds ⊆ ds') :
    ∀ {a : Annotation}, a.Typed ds → a.Typed ds'
  | ⟨_, _⟩, ⟨hd, hn, hv⟩ => ⟨hs hd, hn, Value.NamedTyped.mono hs hv⟩

/-- Typed values are typed for more definitions. -/
theorem Value.Typed.mono {ds ds' : List Definition} (hs : ds ⊆ ds') :
    ∀ {v : Value} {type : FieldType}, v.Typed ds type → v.Typed ds' type
  | .nested a, type, h => by
    cases type <;> simp only [Value.Typed] at h ⊢
    · exact h
    · have hmono := Annotation.Typed.mono hs h.1
      exact ⟨hmono, h.2⟩
  | .array vs, type, h => by
    cases type <;> simp only [Value.Typed] at h ⊢
    · exact h
    · exact Value.AllTyped.mono hs h
    · exact h
  | .boolean _, type, h | .integer _ _, type, h | .char _, type, h | .floating _ _, type, h
  | .string _, type, h | .classToken _, type, h | .enum _, type, h => by
    cases type <;> simp only [Value.Typed] at h ⊢ <;> exact h

/-- Typed elements are typed for more definitions. -/
theorem Value.AllTyped.mono {ds ds' : List Definition} (hs : ds ⊆ ds') :
    ∀ {vs : List Value} {type : FieldType}, Value.AllTyped ds type vs → Value.AllTyped ds' type vs
  | [], _, _ => trivial
  | _ :: _, _, ⟨hv, hvs⟩ => ⟨Value.Typed.mono hs hv, Value.AllTyped.mono hs hvs⟩

/-- Typed named values are typed for more definitions. -/
theorem Value.NamedTyped.mono {ds ds' : List Definition} (hs : ds ⊆ ds')
    {fields : List (String × FieldType)} : ∀ {values : List (String × Value)},
    Value.NamedTyped ds fields values → Value.NamedTyped ds' fields values
  | [], _ => trivial
  | (_, _) :: _, ⟨⟨hn, type, hg, hv⟩, hrest⟩ =>
    ⟨⟨hn, type, hg, Value.Typed.mono hs hv⟩, Value.NamedTyped.mono hs hrest⟩

end

/-! ## Definitions in scope -/

/-- The definitions have different names, each a qualified name. -/
structure Named (ds : List Definition) : Prop where
  distinct : (ds.map (·.name)).Nodup
  names : ∀ d ∈ ds, IsName d.name

namespace Scope

/-- The definition is in scope under its full name, which is a qualified name. -/
structure Holds (scope : Scope) (d : Definition) : Prop where
  name : IsName d.name
  find : (scope.definitions.find? fun e => e.name = d.name) = some d

/-- The full name of a definition in scope refers to it, whatever the current package. -/
theorem Holds.resolve? {scope : Scope} {d : Definition} (h : scope.Holds d) :
    scope.resolve? d.name = some d := by
  rw [Scope.resolve?, h.find]

/-- Where names differ, every definition in scope is there under its full name. -/
theorem holds_of_named {scope : Scope} (h : Named scope.definitions) :
    ∀ d ∈ scope.definitions, scope.Holds d := by
  intro d hd
  refine ⟨h.names d hd, ?_⟩
  cases hf : scope.definitions.find? fun e => e.name = d.name with
  | none => simpa using List.find?_eq_none.1 hf d hd
  | some e =>
    have he := List.mem_of_find?_eq_some hf
    have hn : e.name = d.name := by simpa using List.find?_some hf
    rw [List.inj_on_of_nodup_map h.distinct he hd hn]

/-- What a name refers to is in scope. -/
theorem mem_of_resolve? {scope : Scope} {name : String} {d : Definition}
    (h : scope.resolve? name = some d) : d ∈ scope.definitions := by
  rw [resolve?] at h
  split at h
  · next hf =>
    cases h
    exact List.mem_of_find?_eq_some hf
  · exact List.mem_of_find?_eq_some h

end Scope

namespace Reader

variable {scope : Scope}

/-! ## What the readers do, case by case -/

/-- Elements in braces are read as an array. -/
theorem value_array {type : FieldType} {ts more rest : List Token} {vs : List Value} (line : Nat)
    (h : acceptSymbol '\x7b' ts = some more) (hne : acceptSymbol '\x7d' more = none)
    (he : elements scope type more = .ok (vs, ⟨.symbol '\x7d', line⟩ :: rest)) :
    value scope (.array type) ts = .ok (.array vs, rest) := by
  rw [value_array_eq]
  simp only [h, hne, he, expectSymbol_self]

/-- Braces without elements are read as an empty array. -/
theorem value_array_nil {type : FieldType} {ts more rest : List Token}
    (h : acceptSymbol '\x7b' ts = some more) (he : acceptSymbol '\x7d' more = some rest) :
    value scope (.array type) ts = .ok (.array [], rest) := by
  rw [value_array_eq]
  simp only [h, he]

/-- A value that no comma follows is the last element. -/
theorem elements_last {type : FieldType} {ts rest : List Token} {v : Value}
    (h : value scope type ts = .ok (v, rest)) (ha : acceptSymbol ',' rest = none) :
    elements scope type ts = .ok ([v], rest) := by
  rw [elements]
  simp [h, ha]

/-- Behind a comma come further elements. -/
theorem elements_more {type : FieldType} {ts rest more left : List Token} {v : Value}
    {vs : List Value} (h : value scope type ts = .ok (v, rest))
    (ha : acceptSymbol ',' rest = some more) (hm : elements scope type more = .ok (vs, left)) :
    elements scope type ts = .ok (v :: vs, left) := by
  have := value_le h
  have := accept_length ha
  rw [elements]
  simp only [h, ha, hm]
  rw [if_pos (by omega)]

/-- An annotation without parentheses has no values. -/
theorem single_bare {d : Definition} {top : Bool} {name : String} (line : Nat)
    {ts rest : List Token} (hn : qualifiedName ts = .ok (name, rest))
    (hd : scope.resolve? name = some d) (ht : top = true → d.isTopLevel = true)
    (ha : acceptSymbol '(' rest = none) :
    single scope top (⟨.symbol '@', line⟩ :: ts) = .ok (⟨d, []⟩, rest) := by
  have htop : ¬(top && !d.isTopLevel) = true := by
    cases top <;> simp_all
  rw [single_eq]
  simp only [expectSymbol_self, hn, hd, if_neg htop, ha]

/-- An annotation with parentheses has the values in them. -/
theorem single_values {d : Definition} {top : Bool} {name : String} (line line' : Nat)
    {ts rest more left : List Token} {values : List (String × Value)}
    (hn : qualifiedName ts = .ok (name, rest)) (hd : scope.resolve? name = some d)
    (ht : top = true → d.isTopLevel = true) (ha : acceptSymbol '(' rest = some more)
    (hne : acceptSymbol ')' more = none)
    (hv : assignments scope d [] more = .ok (values, ⟨.symbol ')', line'⟩ :: left)) :
    single scope top (⟨.symbol '@', line⟩ :: ts) = .ok (⟨d, values⟩, left) := by
  have htop : ¬(top && !d.isTopLevel) = true := by
    cases top <;> simp_all
  rw [single_eq]
  simp only [expectSymbol_self, hn, hd, if_neg htop, ha, hne, hv]

/-- What reading an assignment up to its value comes to. -/
theorem assignments_of_value {d : Definition} {given : List (String × Value)} {field : String}
    (hf : IsIdentifier field) {type : FieldType} (hg : Keyed.get? field d.fields = some type)
    (hnew : Keyed.get? field given = none) (line line' : Nat) {ts rest : List Token} {v : Value}
    (hv : value scope type ts = .ok (v, rest)) :
    assignments scope d given (⟨.word field, line⟩ :: ⟨.symbol '=', line'⟩ :: ts) =
      match acceptSymbol ',' rest with
      | none => .ok (given ++ [(field, v)], rest)
      | some more => assignments scope d (given ++ [(field, v)]) more := by
  have := value_le hv
  rw [assignments_eq]
  simp only [identifier_self hf, expectSymbol_self, hg, hnew, hv, Option.isSome_none,
    Bool.false_eq_true, if_false]
  cases ha : acceptSymbol ',' rest with
  | none => rfl
  | some more =>
    have := accept_length ha
    simp only [List.length_cons]
    rw [if_pos (by omega)]

/-! ## Annotations that are written -/

/-- The text of an array is its elements in braces. -/
theorem scans_array {l : Lexeme} {L : List Lexeme} {text : String}
    (h : Scans text.toList (l :: L)) :
    Scans ("\x7b" ++ text ++ "\x7d").toList (.symbol '\x7b' :: l :: L ++ [.symbol '\x7d']) := by
  have hopen := h.append_symbol (isSymbol_of_mem (c := '\x7d') (by decide)) .nil
  simpa using hopen.cons_symbol (c := '\x7b') (by decide) (by decide)

/-- The text of an empty array is two braces. -/
theorem scans_emptyArray : Scans "\x7b\x7d".toList [.symbol '\x7b', .symbol '\x7d'] := by
  have hclose := Scans.nil.cons_symbol (c := '\x7d') (by decide) (by decide)
  simpa using hclose.cons_symbol (c := '\x7b') (by decide) (by decide)

section
variable {ds : List Definition}

mutual

/-- A written value is read back by the reader for the type of its field. -/
theorem shows_value (hds : ∀ d ∈ ds, scope.Holds d) : ∀ {v : Value} {type : FieldType},
    v.Typed ds type → ShowsElement (value scope type) Closed v.text v
  | .nested a, type, h => by
    cases type <;> simp only [Value.Typed, BasicKind.accepts, Bool.false_eq_true] at h
    next d =>
    obtain ⟨L, hs, hr⟩ := shows_single hds (a := a) h.1
    have hr := hr false (fun h => absurd h Bool.false_ne_true)
    refine ⟨.symbol '@', L, hs, by simp, fun line rest hrest => ?_⟩
    rw [value_item (by simp), item, hr line rest hrest.ended]
    simp only [h.2, if_true]
  | .array [], type, h => by
    cases type <;> simp only [Value.Typed, BasicKind.accepts, Bool.false_eq_true] at h
    · refine ⟨_, _, scans_emptyArray, by simp, fun line rest _ => ?_⟩
      exact value_array_nil (accept_self _ _ _) (accept_self _ _ _)
    · refine ⟨_, _, scans_emptyArray, by simp, fun line rest _ => ?_⟩
      rw [value_item (by simp), item]
      simp
  | .array (v :: vs), type, h => by
    cases type <;> simp only [Value.Typed, BasicKind.accepts, Bool.false_eq_true, reduceCtorEq] at h
    next element =>
    obtain ⟨l, L, hs, hl, hr⟩ := shows_elements hds h (List.cons_ne_nil v vs)
    refine ⟨_, _, scans_array hs, by simp, fun line rest _ => ?_⟩
    have helements := hr line (⟨.symbol '\x7d', line⟩ :: rest) (before_self _ _ _)
    have hne : acceptSymbol '\x7d' (tokensOn line (l :: L) ++ ⟨.symbol '\x7d', line⟩ :: rest) =
        none := accept_of_ne hl line _
    have := value_array line (accept_self (.symbol '\x7b') line _) hne helements
    simpa using this
  | .classToken name, type, h => by
    cases type <;> simp only [Value.Typed, BasicKind.accepts, Bool.false_eq_true] at h
    obtain ⟨l, L, hs, hl, hr⟩ := shows_classToken h
    refine ⟨l, L, hs, hl, fun line rest hrest => ?_⟩
    rw [value_item (by simp), item, hr line rest hrest]
  | .enum name, type, h => by
    cases type <;> simp only [Value.Typed, BasicKind.accepts, Bool.false_eq_true] at h
    rw [Value.text]
    exact shows_word h.toIsWord fun line rest _ => by
      rw [value_item (by simp), item, identifier_self h]
  | .boolean _, type, h | .integer _ _, type, h | .char _, type, h | .floating _ _, type, h
  | .string _, type, h => by
    cases type <;> simp only [Value.Typed] at h
    obtain ⟨l, L, hs, hl, hr⟩ := shows_basicValue h
    refine ⟨l, L, hs, hl, fun line rest hrest => ?_⟩
    rw [value_item (by simp), item, hr line rest hrest]

/-- Written elements of an array are read back. -/
theorem shows_elements (hds : ∀ d ∈ ds, scope.Holds d) : ∀ {vs : List Value} {type : FieldType},
    Value.AllTyped ds type vs → vs ≠ [] →
      ShowsElement (elements scope type) (Before '\x7d') (joinWith ", " (Value.texts vs)) vs
  | [], _, _, hne => absurd rfl hne
  | [v], type, h, _ => by
    obtain ⟨l, L, hs, hl, hr⟩ := shows_value hds (v := v) h.1
    exact ⟨l, L, hs, hl, fun line rest hrest =>
      elements_last (hr line rest (hrest.closed (by decide))) (hrest.accept (by decide))⟩
  | v :: w :: vs, type, h, _ => by
    obtain ⟨hv, hvs⟩ : v.Typed ds type ∧
      Value.AllTyped ds type (w :: vs) := h
    obtain ⟨l, L, hs, hl, hr⟩ := shows_value hds hv
    obtain ⟨m, M, hms, -, hmr⟩ := shows_elements hds hvs (List.cons_ne_nil w vs)
    refine ⟨l, L ++ .symbol ',' :: m :: M, ?_, hl, fun line rest hrest => ?_⟩
    · have := hs.append_symbol (isSymbol_of_mem (c := ',') (by decide)) hms.cons_space
      simpa [joinWith, Value.texts] using this
    · have hfirst := hr line (⟨.symbol ',', line⟩ :: (tokensOn line (m :: M) ++ rest))
        ((before_self _ _ _).closed (by decide))
      have := elements_more hfirst (accept_self _ _ _) (hmr line rest hrest)
      simpa using this

/-- A written annotation is read back, after which neither a point nor a parenthesis comes. -/
theorem shows_single (hds : ∀ d ∈ ds, scope.Holds d) : ∀ {a : Annotation}, a.Typed ds →
    ∃ L, Scans a.text.toList (.symbol '@' :: L) ∧
      ∀ top : Bool, (top = true → a.definition.isTopLevel = true) →
        Reads (single scope top) Ended (.symbol '@' :: L) a
  | ⟨d, []⟩, ⟨hd, _, _⟩ => by
    obtain ⟨L, hs, hr⟩ := shows_qualifiedName (hds d hd).name
    refine ⟨L, ?_, fun top ht line rest hrest => ?_⟩
    · unfold Annotation.text
      simpa using hs.cons_symbol (c := '@') (by decide) (by decide)
    · exact single_bare line (hr line rest hrest.noPoint) (hds d hd).resolve? ht
        (hrest '(' (by simp))
  | ⟨d, f :: values⟩, ⟨hd, hn, hv⟩ => by
    obtain ⟨L, hs, hr⟩ := shows_qualifiedName (hds d hd).name
    obtain ⟨w, M, hms, hmr⟩ := shows_assignments hds [] hv (List.cons_ne_nil f values) hn
    refine ⟨L ++ .symbol '(' :: .word w :: M ++ [.symbol ')'], ?_, fun top ht line rest _ => ?_⟩
    · have hopen := hs.append_symbol (isSymbol_of_mem (c := '(') (by decide)) hms
      have hclose := hopen.append_symbol (isSymbol_of_mem (c := ')') (by decide)) .nil
      unfold Annotation.text
      simpa using hclose.cons_symbol (c := '@') (by decide) (by decide)
    · have hname := hr line (⟨.symbol '(', line⟩ :: (tokensOn line (.word w :: M) ++
        ⟨.symbol ')', line⟩ :: rest)) (accept_of_ne (by simp) _ _)
      have hvalues := hmr line (⟨.symbol ')', line⟩ :: rest) (before_self _ _ _)
      have := single_values line line hname (hds d hd).resolve? ht
        (accept_self _ _ _) (accept_of_ne (by simp) _ _) hvalues
      simpa using this

/-- Written assignments are read back, after those that are given already. -/
theorem shows_assignments (hds : ∀ d ∈ ds, scope.Holds d) :
    ∀ {values : List (String × Value)} {d : Definition} (given : List (String × Value)),
      Value.NamedTyped ds d.fields values → values ≠ [] →
        (Keyed.keys (given ++ values)).Nodup →
          ∃ w L, Scans (joinWith ", " (Value.assignments values)).toList (.word w :: L) ∧
            Reads (assignments scope d given) (Before ')') (.word w :: L) (given ++ values)
  | [], _, _, _, hne, _ => absurd rfl hne
  | [(name, v)], d, given, ⟨⟨hname, type, hg, hv⟩, _⟩, _, hn => by
    obtain ⟨l, L, hs, -, hr⟩ := shows_value hds (v := v) hv
    refine ⟨name, .symbol '=' :: l :: L, ?_, fun line rest hrest => ?_⟩
    · have := hname.scans.append_symbol (isSymbol_of_mem (c := '=') (by decide)) hs
      simpa [joinWith, Value.assignments] using this
    · have := assignments_of_value hname hg (Keyed.get?_eq_none_of_nodup hn) line line
        (hr line rest (hrest.closed (by decide)))
      rw [hrest.accept (by decide)] at this
      simpa using this
  | (name, v) :: f :: values, d, given, ⟨⟨hname, type, hg, hv⟩, hrest⟩, _, hn => by
    obtain ⟨l, L, hs, -, hr⟩ := shows_value hds (v := v) hv
    obtain ⟨w, M, hms, hmr⟩ := shows_assignments hds (d := d) (given ++ [(name, v)]) hrest
      (List.cons_ne_nil f values) (by simpa using hn)
    refine ⟨name, .symbol '=' :: l :: L ++ .symbol ',' :: .word w :: M, ?_,
      fun line rest hrest => ?_⟩
    · have hfirst := hname.scans.append_symbol (isSymbol_of_mem (c := '=') (by decide)) hs
      have := hfirst.append_symbol (isSymbol_of_mem (c := ',') (by decide)) hms.cons_space
      simpa [joinWith, Value.assignments] using this
    · have := assignments_of_value hname hg (Keyed.get?_eq_none_of_nodup hn) line line
        (hr line (⟨.symbol ',', line⟩ :: (tokensOn line (.word w :: M) ++ rest))
          ((before_self _ _ _).closed (by decide)))
      simp only [accept_self] at this
      rw [hmr line rest hrest] at this
      simpa using this

end

end

/-- **The text of an annotation is read back exactly.** The definitions that it uses are in scope
under their full names, and that of the annotation itself has a retention policy. Then the tokens of
the text come first whatever follows, as long as that does not run into the text. From these tokens
and any others, of which the first is neither a point nor a parenthesis, the reader takes the tokens
of the text and gives the annotation, in every current package. -/
theorem single_text (scope : Scope) (ds : List Definition) (a : Annotation)
    (hds : ∀ d ∈ ds, scope.Holds d) (ha : a.Typed ds) (ht : a.definition.isTopLevel = true) :
    ∃ L, (∀ line, Lexer.tokens line a.text.toList = .ok ⟨tokensOn line L, line⟩) ∧
      (∀ line after, Apart a.text.toList after →
        Lexer.tokens line (a.text.toList ++ after) =
          (Lexer.tokens line after).map (.prepend (tokensOn line L))) ∧
      ∀ top line rest, Ended rest → single scope top (tokensOn line L ++ rest) = .ok (a, rest) := by
  obtain ⟨L, hs, hr⟩ := shows_single hds ha
  exact ⟨.symbol '@' :: L, hs.tokens_line, fun line after h => hs.tokens_append h line,
    fun top => hr top fun _ => ht⟩

namespace mixed

/-- A type without retention policy. -/
def inner : Definition := ⟨"Inner", none, [("on", .basic .boolean)], []⟩

/-- A type with fields of several kinds. -/
def outer : Definition :=
  ⟨"p.Outer", some .runtime,
    [("ratio", .basic (.floating .double)), ("type", .classToken), ("level", .enum "p.Level"),
      ("parts", .array (.nested inner)), ("rest", .unknownArray)], []⟩

/-- Another type of the current package has the name of the inner one. -/
def definitions : List Definition := [⟨"q.Inner", none, [], []⟩, inner, outer]

/-- An annotation that gives values in another order than its type has fields. -/
def annotation : Annotation :=
  ⟨outer, [("parts", .array [.nested ⟨inner, [("on", .boolean true)]⟩, .nested ⟨inner, []⟩]),
    ("type", .classToken "java.util.Map[]"), ("level", .enum "HIGH"), ("rest", .array []),
    ("ratio", .floating .double (.ofDecimal .double true ⟨15, 1⟩))]⟩

/-- The annotation is typed. -/
theorem typed_annotation : annotation.Typed [inner, outer] := by
  have hclass : IsClassName "java.util.Map[]" :=
    ⟨"java", ["util", "Map"], 1, by decide, by decide, rfl⟩
  have hlevel : IsIdentifier "HIGH" := by decide
  have hinner (values : List (String × Value)) (hn : (Keyed.keys values).Nodup)
      (hv : Value.NamedTyped [inner, outer] inner.fields values) :
      (Value.nested ⟨inner, values⟩).Typed [inner, outer] (.nested inner) :=
    ⟨⟨List.mem_cons_self, hn, hv⟩, rfl⟩
  have hparts : Value.AllTyped [inner, outer] (.nested inner)
      [.nested ⟨inner, [("on", .boolean true)]⟩, .nested ⟨inner, []⟩] :=
    ⟨hinner _ (by decide) ⟨⟨by decide, _, rfl, rfl⟩, trivial⟩, hinner _ .nil trivial, trivial⟩
  exact ⟨by simp, by decide, ⟨by decide, _, rfl, hparts⟩, ⟨by decide, _, rfl, hclass⟩,
    ⟨by decide, _, rfl, hlevel⟩, ⟨by decide, _, rfl, rfl⟩, ⟨by decide, _, rfl, rfl⟩, trivial⟩

/-- The two definitions are found by their names from any package. -/
theorem holds_definitions (package : String) :
    ∀ d ∈ [inner, outer], (Scope.mk package definitions).Holds d := by
  simp only [List.forall_mem_cons, List.not_mem_nil, false_implies, implies_true, and_true]
  exact ⟨⟨⟨"Inner", [], by decide, by decide, rfl⟩, by simp [definitions, inner]⟩,
    ⟨⟨"p", ["Outer"], by decide, by decide, rfl⟩, by simp [definitions, inner, outer]⟩⟩

end mixed

/-- The annotation is read back where its inner type has a namesake in the current package. -/
theorem single_text_mixed : (∀ d ∈ [mixed.inner, mixed.outer],
      (Scope.mk "q" mixed.definitions).Holds d) ∧
    mixed.annotation.Typed [mixed.inner, mixed.outer] ∧
    mixed.annotation.definition.isTopLevel = true ∧
    ∃ L, (∀ line, Lexer.tokens line mixed.annotation.text.toList = .ok ⟨tokensOn line L, line⟩) ∧
      (∀ line after, Apart mixed.annotation.text.toList after →
        Lexer.tokens line (mixed.annotation.text.toList ++ after) =
          (Lexer.tokens line after).map (.prepend (tokensOn line L))) ∧
      ∀ top line rest, Ended rest →
        single ⟨"q", mixed.definitions⟩ top (tokensOn line L ++ rest) =
          .ok (mixed.annotation, rest) :=
  ⟨mixed.holds_definitions "q", mixed.typed_annotation, rfl,
    single_text _ _ _ (mixed.holds_definitions "q") mixed.typed_annotation rfl⟩

/-! ## Annotations that are read -/

/-- A value that a basic type accepts is typed. -/
theorem typed_basic {ds : List Definition} {kind : BasicKind} {v : Value}
    (h : kind.accepts v = true) : v.Typed ds (.basic kind) := by
  cases v <;> exact h

/-- Values stay typed when a field that has none is given one. -/
theorem namedTyped_snoc {ds : List Definition} {fields : List (String × FieldType)}
    {given : List (String × Value)} {name : String} {v : Value} {type : FieldType}
    (h : Value.NamedTyped ds fields given ∧ (Keyed.keys given).Nodup) (hn : IsIdentifier name)
    (hg : Keyed.get? name fields = some type) (hv : v.Typed ds type)
    (hnew : Keyed.get? name given = none) :
    Value.NamedTyped ds fields (given ++ [(name, v)]) ∧
      (Keyed.keys (given ++ [(name, v)])).Nodup :=
  ⟨Value.namedTyped_append.2 ⟨h.1, ⟨hn, type, hg, hv⟩, trivial⟩, Keyed.nodup_keys_snoc h.2 hnew v⟩

mutual

/-- A value that is read is typed. -/
theorem value_yields {type : FieldType} {ts rest : List Token} {v : Value} (hts : ProperTokens ts)
    (h : value scope type ts = .ok (v, rest)) :
    v.Typed scope.definitions type ∧ ProperTokens rest := by
  unfold value at h
  split at h
  · split at h
    · split at h
      · cases h
      next hi =>
      obtain ⟨hv, hrest⟩ := item_yields hts hi
      cases h
      exact ⟨⟨hv, trivial⟩, hrest⟩
    next ha =>
    have := accept_length ha
    have hmore := proper_of_accept hts ha
    split at h
    · next hc =>
      cases h
      exact ⟨trivial, proper_of_accept hmore hc⟩
    split at h
    · cases h
    next he =>
    obtain ⟨hvs, hrest⟩ := elements_yields hmore he
    split at h
    · cases h
    next hc =>
    cases h
    exact ⟨hvs, proper_of_expectSymbol hrest hc⟩
  · exact item_yields hts h
termination_by 4 * ts.length + 2

/-- An element that is read is typed. -/
theorem item_yields {type : FieldType} {ts rest : List Token} {v : Value} (hts : ProperTokens ts)
    (h : item scope type ts = .ok (v, rest)) :
    v.Typed scope.definitions type ∧ ProperTokens rest := by
  unfold item at h
  split at h
  · obtain ⟨hv, hrest⟩ := yields_basicValue _ hts h
    exact ⟨typed_basic hv, hrest⟩
  · split at h
    · cases h
    next hc =>
    cases h
    exact yields_classToken hts hc
  · split at h
    · cases h
    next hi =>
    cases h
    exact yields_identifier hts hi
  · split at h
    · cases h
    next hs =>
    obtain ⟨⟨ha, -⟩, hrest⟩ := single_yields hts hs
    split at h
    · next hn =>
      cases h
      exact ⟨⟨ha, hn⟩, hrest⟩
    · cases h
  · split at h
    · cases h
    next ho =>
    split at h
    · next hc =>
      cases h
      exact ⟨trivial, proper_of_accept (proper_of_expectSymbol hts ho) hc⟩
    · cases h
  · split at h
    · cases h
    next ho =>
    split at h
    · next hc =>
      cases h
      exact ⟨rfl, proper_of_accept (proper_of_expectSymbol hts ho) hc⟩
    · cases h
termination_by 4 * ts.length + 1

/-- Elements that are read are typed. -/
theorem elements_yields {type : FieldType} {ts rest : List Token} {vs : List Value}
    (hts : ProperTokens ts) (h : elements scope type ts = .ok (vs, rest)) :
    Value.AllTyped scope.definitions type vs ∧ ProperTokens rest := by
  unfold elements at h
  split at h
  · cases h
  next hread =>
  obtain ⟨hv, hrest⟩ := value_yields hts hread
  split at h
  · cases h
    exact ⟨⟨hv, trivial⟩, hrest⟩
  next ha =>
  split at h
  · split at h
    · cases h
    next hm =>
    obtain ⟨hvs, hleft⟩ := elements_yields (proper_of_accept hrest ha) hm
    cases h
    exact ⟨⟨hv, hvs⟩, hleft⟩
  · cases h
    exact ⟨⟨hv, trivial⟩, hrest⟩
termination_by 4 * ts.length + 3

/-- **An annotation that is read is typed**; one that stands on an element or on a definition is of
a type with a retention policy. -/
theorem single_yields {top : Bool} {ts rest : List Token} {a : Annotation} (hts : ProperTokens ts)
    (h : single scope top ts = .ok (a, rest)) :
    (a.Typed scope.definitions ∧ (top = true → a.definition.isTopLevel = true)) ∧
      ProperTokens rest := by
  unfold single at h
  split at h
  · cases h
  next he =>
  have := expectSymbol_length he
  split at h
  · cases h
  next hn =>
  have := qualifiedName_shorter hn
  obtain ⟨-, hrest⟩ := yields_qualifiedName (proper_of_expectSymbol hts he) hn
  split at h
  · cases h
  next d hd =>
  have hd := Scope.mem_of_resolve? hd
  split at h
  · cases h
  next ht =>
  have ht : top = true → d.isTopLevel = true := by simpa using ht
  split at h
  · cases h
    exact ⟨⟨⟨hd, List.nodup_nil, trivial⟩, ht⟩, hrest⟩
  next ha =>
  have := accept_length ha
  have hmore := proper_of_accept hrest ha
  split at h
  · next hc =>
    cases h
    exact ⟨⟨⟨hd, List.nodup_nil, trivial⟩, ht⟩, proper_of_accept hmore hc⟩
  split at h
  · cases h
  next hread =>
  have hnil : Value.NamedTyped scope.definitions d.fields [] := trivial
  obtain ⟨⟨hv, hnodup⟩, hrest⟩ := assignments_yields hmore ⟨hnil, List.nodup_nil⟩ hread
  split at h
  · cases h
  next hc =>
  cases h
  exact ⟨⟨⟨hd, hnodup, hv⟩, ht⟩, proper_of_expectSymbol hrest hc⟩
termination_by 4 * ts.length

/-- Values that are read after typed ones are typed with them. -/
theorem assignments_yields {d : Definition} {given values : List (String × Value)}
    {ts rest : List Token} (hts : ProperTokens ts)
    (hg : Value.NamedTyped scope.definitions d.fields given ∧ (Keyed.keys given).Nodup)
    (h : assignments scope d given ts = .ok (values, rest)) :
    (Value.NamedTyped scope.definitions d.fields values ∧ (Keyed.keys values).Nodup) ∧
      ProperTokens rest := by
  unfold assignments at h
  split at h
  · cases h
  next hi =>
  have := identifier_length hi
  obtain ⟨hname, hrest⟩ := yields_identifier hts hi
  split at h
  · cases h
  next he =>
  have := expectSymbol_length he
  split at h
  · cases h
  next type htype =>
  split at h
  · cases h
  next hnew =>
  split at h
  · cases h
  next hread =>
  obtain ⟨hv, hrest⟩ := value_yields (proper_of_expectSymbol hrest he) hread
  have hg' := namedTyped_snoc hg hname htype hv (by simpa using hnew)
  split at h
  · cases h
    exact ⟨hg', hrest⟩
  next ha =>
  split at h
  · exact assignments_yields (proper_of_accept hrest ha) hg' h
  · cases h
    exact ⟨hg', hrest⟩
termination_by 4 * ts.length

end

end Reader

end AnnotationIndex
