import AnnotationIndex.Proofs.Reader.Annotation
import AnnotationIndex.Reader.Definition
import AnnotationIndex.Writer

/-!
# Definitions are read back

A definition that is read is declared over the definitions in scope: what its fields and its
annotations refer to is among them (`Definition.Declared`, `Reader.yields_definition`). The lines of
such a definition are read as that definition (`Reader.definition_lines`).
-/

namespace AnnotationIndex

open Reader Text

/-! ## Declared definitions -/

/-- The type is no array, and what it refers to is among the definitions. -/
def FieldType.Scalar (ds : List Definition) : FieldType → Prop
  | .basic _ | .classToken => True
  | .enum name => IsName name
  | .nested d => d ∈ ds
  | .array _ | .unknownArray => False

/-- A field may have the type when the definitions are in scope. -/
def FieldType.Declared (ds : List Definition) : FieldType → Prop
  | .array element => element.Scalar ds
  | .unknownArray => True
  | type => type.Scalar ds

/-- The definition may follow the definitions. -/
structure Definition.Declared (ds : List Definition) (d : Definition) : Prop where
  named : ∃ p b, IsPackageName p ∧ IsIdentifier b ∧ d.name = qualify p b
  new : d.name ∉ ds.map (·.name)
  fieldNames : (Keyed.keys d.fields).Nodup
  fields : ∀ f ∈ d.fields, f.2.Declared ds ∧ IsIdentifier f.1
  metaNames : (d.metas.map (·.name)).Nodup
  metas : ∀ a ∈ d.metas, a.Typed ds ∧ a.definition.isTopLevel = true

/-- Each of the definitions may follow those before it. -/
inductive Declarations : List Definition → Prop where
  | nil : Declarations []
  | snoc {ds : List Definition} {d : Definition} (h : Declarations ds) (hd : d.Declared ds) :
      Declarations (ds ++ [d])

/-- A name in a package is a name. -/
theorem isName_qualify {p b : String} (hp : IsPackageName p) (hb : IsIdentifier b) :
    IsName (qualify p b) := by
  rcases hp with rfl | hp
  · simpa [qualify] using hb.isName
  · obtain ⟨w, ws, hw, hws, rfl⟩ := hp
    have hne : dotted w ws ≠ "" := IsName.ne_empty ⟨w, ws, hw, hws, rfl⟩
    rw [qualify, if_neg hne]
    refine ⟨w, ws ++ [b], hw, fun v hv => ?_, by simp [dotted]⟩
    rcases List.mem_append.1 hv with hv | hv
    · exact hws v hv
    · exact List.mem_singleton.1 hv ▸ hb

/-- Declared definitions have different names. -/
theorem Declarations.named {ds : List Definition} (h : Declarations ds) : Named ds := by
  induction h with
  | nil => exact ⟨List.nodup_nil, by simp⟩
  | @snoc ds d _ hd ih =>
    refine ⟨?_, fun e he => ?_⟩
    · rw [List.map_append]
      refine ih.distinct.append (List.nodup_singleton _) ?_
      simpa using hd.new
    · rcases List.mem_append.1 he with he | he
      · exact ih.names e he
      · obtain ⟨p, b, hp, hb, hn⟩ := hd.named
        rw [List.mem_singleton.1 he, hn]
        exact isName_qualify hp hb

/-- The package and the name inside it make up the name of a declared definition. -/
theorem Definition.Declared.qualify {ds : List Definition} {d : Definition} (h : d.Declared ds) :
    IsPackageName d.package ∧ IsIdentifier d.basename ∧
      AnnotationIndex.qualify d.package d.basename = d.name := by
  obtain ⟨p, b, hp, hb, hn⟩ := h.named
  rw [package, basename, hn, splitQualified_qualify hb.toIsWord]
  exact ⟨hp, hb, rfl⟩

namespace Reader

variable {scope : Scope}

/-- Nothing comes next, or a keyword that starts a statement does. -/
def Boundary : List Token → Prop
  | [] => True
  | t :: _ => ∃ w, t.lexeme = .word w ∧ isKeyword w = true

/-- A text may end where a statement may start. -/
theorem boundary_nil : Boundary [] := trivial

/-- No symbol comes next. -/
def NoSymbol (rest : List Token) : Prop := ∀ c, acceptSymbol c rest = none

/-- Where no symbol comes next, nothing goes on with a name or a type. -/
theorem NoSymbol.closed {rest : List Token} (h : NoSymbol rest) : Closed rest := fun c _ => h c

/-- Before a word no symbol comes next. -/
theorem noSymbol_word (w : String) (line : Nat) (rest : List Token) :
    NoSymbol (⟨.word w, line⟩ :: rest) := fun _ => rfl

/-- Where a statement may start, no symbol comes next. -/
theorem Boundary.noSymbol {ts : List Token} (h : Boundary ts) : NoSymbol ts := by
  cases ts with
  | nil => exact fun _ => rfl
  | cons t ts =>
    obtain ⟨l, line⟩ := t
    obtain ⟨w, rfl, -⟩ := h
    exact noSymbol_word w line ts

/-! ## Field types -/

/-- The text of the type starts with the word and is read as the type. -/
def ShowsType (r : List Token → Read FieldType) (stop : List Token → Prop) (w : String)
    (type : FieldType) : Prop :=
  ∃ L, Scans type.text.toList (.word w :: L) ∧ Reads r stop (.word w :: L) type

/-- The keyword of a basic type is an identifier. -/
theorem isIdentifier_keyword (kind : BasicKind) : IsIdentifier kind.keyword := by
  cases kind with
  | boolean | char | string => decide
  | integer kind =>
    cases kind <;> decide
  | floating width =>
    cases width <;> decide

/-- A keyword of a basic kind names that kind and nothing else. -/
theorem keyword_plain (kind : BasicKind) :
    (isKeyword kind.keyword = false ∧ kind.keyword ≠ "unknown") ∧
      (kind.keyword ≠ "enum" ∧ kind.keyword ≠ "annotation-field") ∧
      ¬(kind.keyword = "Class" ∨ kind.keyword = "java.lang.Class") ∧
      BasicKind.ofKeyword? kind.keyword = some kind := by
  cases kind with
  | boolean | char | string => decide
  | integer kind => cases kind <;> decide
  | floating width => cases width <;> decide

/-- An identifier that no point follows is a whole name. -/
theorem qualifiedName_identifier {w : String} (h : IsIdentifier w) (line : Nat) {rest : List Token}
    (hrest : NoPoint rest) : qualifiedName (⟨.word w, line⟩ :: rest) = .ok (w, rest) :=
  (reads_dotted h (List.forall_mem_nil _)).2 line rest hrest

/-- The text of a declared type of single values shows it, and starts with no keyword. -/
theorem shows_scalarType (hds : Named scope.definitions) {type : FieldType}
    (h : type.Scalar scope.definitions) :
    ∃ w, (isKeyword w = false ∧ w ≠ "unknown") ∧ ShowsType (scalarType scope) NoPoint w type := by
  cases type with
  | basic kind =>
    obtain ⟨hplain, ⟨he, ha⟩, hc, hk⟩ := keyword_plain kind
    have hi := isIdentifier_keyword kind
    refine ⟨kind.keyword, hplain, [], hi.scans, fun line rest hrest => ?_⟩
    have hw : ∀ v, kind.keyword ≠ v →
        acceptWord v (⟨.word kind.keyword, line⟩ :: rest) = none :=
      fun v hv => accept_of_ne (by simpa using hv) line rest
    rw [tokensOn_cons, tokensOn_nil, List.cons_append, List.nil_append, scalarType, hw _ he]
    simp only [hw _ ha, qualifiedName_identifier hi line hrest, if_neg hc, hk]
  | classToken =>
    have hi : IsIdentifier "Class" := by decide
    refine ⟨"Class", by decide, [], hi.scans, fun line rest hrest => ?_⟩
    simp [scalarType, accept_of_ne, qualifiedName_identifier hi line hrest]
  | enum name =>
    have hw : IsWord "enum" := by decide
    obtain ⟨L, hs, hr⟩ := shows_qualifiedName h
    refine ⟨"enum", by decide, L, ?_, fun line rest hrest => ?_⟩
    · simpa using hw.scans.append_space hs
    · simp [scalarType, hr line rest hrest]
  | nested d =>
    have hw : IsWord "annotation-field" := by decide
    obtain ⟨w, ws, hi, hws, hn⟩ := hds.names d h
    obtain ⟨hs, hr⟩ := reads_dotted hi hws
    refine ⟨"annotation-field", by decide, .word w :: dottedLexemes ws, ?_,
      fun line rest hrest => ?_⟩
    · rw [← hn] at hs
      simpa using hw.scans.append_space hs
    · have hq := hr line rest hrest
      rw [← hn, tokensOn_cons, List.cons_append] at hq
      simp [scalarType, accept_of_ne, hq, (Scope.holds_of_named hds _ h).resolve?]
  | array element => exact h.elim
  | unknownArray => exact h.elim

/-- A type of single values that no bracket follows is the type of a field. -/
theorem fieldType_scalar {w : String} {line : Nat} {ts rest : List Token} {type : FieldType}
    (hw : w ≠ "unknown") (h : scalarType scope (⟨.word w, line⟩ :: ts) = .ok (type, rest))
    (ha : acceptSymbol '[' rest = none) :
    fieldType scope (⟨.word w, line⟩ :: ts) = .ok (type, rest) := by
  rw [fieldType, show acceptWord "unknown" (⟨.word w, line⟩ :: ts) = none from
    accept_of_ne (by simpa using hw) line ts]
  simp only [h, ha]

/-- A type of single values with brackets behind it is an array of it. -/
theorem fieldType_array {w : String} {line : Nat} {ts rest : List Token} {type : FieldType}
    (hw : w ≠ "unknown") (h : scalarType scope (⟨.word w, line⟩ :: ts) =
      .ok (type, ⟨.symbol '[', line⟩ :: ⟨.symbol ']', line⟩ :: rest)) :
    fieldType scope (⟨.word w, line⟩ :: ts) = .ok (.array type, rest) := by
  rw [fieldType, show acceptWord "unknown" (⟨.word w, line⟩ :: ts) = none from
    accept_of_ne (by simpa using hw) line ts]
  simp [h]

/-- **A written field type is read back**, before a word. -/
theorem shows_fieldType (hds : Named scope.definitions) {type : FieldType}
    (h : type.Declared scope.definitions) :
    ∃ w, isKeyword w = false ∧ ShowsType (fieldType scope) Closed w type := by
  have hclose := Scans.nil.cons_symbol (c := ']') (by decide) (by decide)
  have scalar {type : FieldType} (h : type.Scalar scope.definitions) :
      ∃ w, isKeyword w = false ∧ ShowsType (fieldType scope) Closed w type := by
    obtain ⟨w, hw, L, hs, hr⟩ := shows_scalarType hds h
    refine ⟨w, hw.1, L, hs, fun line rest hrest => ?_⟩
    exact fieldType_scalar hw.2 (hr line rest hrest.noPoint) (hrest '[' (by simp))
  cases type with
  | basic kind => exact scalar h
  | classToken => exact scalar h
  | enum name => exact scalar h
  | nested d => exact scalar h
  | array element =>
    obtain ⟨w, hw, L, hs, hr⟩ := shows_scalarType hds h
    refine ⟨w, hw.1, L ++ [.symbol '[', .symbol ']'], ?_, fun line rest hrest => ?_⟩
    · simpa using hs.append_symbol (isSymbol_of_mem (c := '[') (by decide)) hclose
    · have hread := hr line (⟨.symbol '[', line⟩ :: ⟨.symbol ']', line⟩ :: rest)
        (accept_of_ne (by simp) _ _)
      rw [tokensOn_cons, tokensOn_append, List.cons_append, List.append_assoc]
      exact fieldType_array hw.2 hread
  | unknownArray =>
    have hw : IsWord "unknown" := by decide
    refine ⟨"unknown", by decide, [.symbol '[', .symbol ']'], ?_, fun line rest hrest => ?_⟩
    · simpa using hw.scans.append_symbol (isSymbol_of_mem (c := '[') (by decide)) hclose
    · simp [fieldType]

/-- What is read as a type of single values is declared. -/
theorem yields_scalarType (scope : Scope) :
    Yields (scalarType scope) fun type => type.Scalar scope.definitions := by
  intro ts type rest hts h
  rw [scalarType] at h
  split at h
  · next ha =>
    split at h
    · cases h
    next hq =>
    cases h
    exact yields_qualifiedName (proper_of_accept hts ha) hq
  split at h
  · next _ more ha =>
    have hmore := proper_of_accept hts ha
    have hname : ProperTokens ((acceptSymbol '@' more).getD more) := by
      cases hat : acceptSymbol '@' more with
      | none => exact hmore
      | some more' => exact proper_of_accept hmore hat
    split at h
    · cases h
    next hq =>
    split at h
    · next hd =>
      cases h
      exact ⟨Scope.mem_of_resolve? hd, (yields_qualifiedName hname hq).2⟩
    · cases h
  split at h
  · cases h
  next hq =>
  obtain ⟨-, hrest⟩ := yields_qualifiedName hts hq
  split at h
  · cases h
    exact ⟨trivial, hrest⟩
  split at h
  · cases h
    exact ⟨trivial, hrest⟩
  · cases h

/-- A declared type of single values is declared as the type of a field. -/
theorem declared_of_scalar {ds : List Definition} {type : FieldType} (h : type.Scalar ds) :
    type.Declared ds := by
  cases type with
  | array => exact h.elim
  | unknownArray => trivial
  | basic | classToken | enum | nested => exact h

/-- What is read as the type of a field is declared. -/
theorem yields_fieldType (scope : Scope) :
    Yields (fieldType scope) fun type => type.Declared scope.definitions := by
  intro ts type rest hts h
  rw [fieldType] at h
  split at h
  · next ha =>
    split at h
    · cases h
    next ho =>
    split at h
    · cases h
    next hc =>
    cases h
    exact ⟨trivial, proper_of_expectSymbol (proper_of_expectSymbol (proper_of_accept hts ha) ho) hc⟩
  split at h
  · cases h
  next hs =>
  obtain ⟨htype, hrest⟩ := yields_scalarType scope hts hs
  split at h
  · cases h
    exact ⟨declared_of_scalar htype, hrest⟩
  next ho =>
  split at h
  · cases h
  next hc =>
  cases h
  exact ⟨htype, proper_of_expectSymbol (proper_of_accept hrest ho) hc⟩

/-! ## Annotations on a type -/

/-- The lexemes are annotations of types with a retention policy, one after the other. -/
inductive Marks (scope : Scope) : List Annotation → List Lexeme → Prop where
  | nil : Marks scope [] []
  | cons {a : Annotation} {as : List Annotation} {M L : List Lexeme}
      (ha : Reads (single scope true) Closed (.symbol '@' :: M) a) (has : Marks scope as L) :
      Marks scope (a :: as) (.symbol '@' :: M ++ L)

/-- What comes after annotations, with more of them before it, does not go on with a name. -/
theorem Marks.closed {as : List Annotation} {L : List Lexeme} (h : Marks scope as L) (line : Nat)
    {rest : List Token} (hrest : Closed rest) : Closed (tokensOn line L ++ rest) := by
  cases h with
  | nil => exact hrest
  | cons => exact closed_symbol (by decide) line _

/-- Annotations are written as such. -/
theorem shows_marks (hds : Named scope.definitions) {as : List Annotation}
    (h : ∀ a ∈ as, a.Typed scope.definitions ∧ a.definition.isTopLevel = true) :
    ∃ L, Scans (String.join (as.map fun a => " " ++ a.text)).toList L ∧ Marks scope as L := by
  induction as with
  | nil => exact ⟨[], .nil, .nil⟩
  | cons a as ih =>
    obtain ⟨⟨ha, ht⟩, has⟩ := List.forall_mem_cons.1 h
    obtain ⟨M, hs, hr⟩ := shows_single (Scope.holds_of_named hds) ha
    have hr := hr true fun _ => ht
    obtain ⟨L, hL, hm⟩ := ih has
    refine ⟨.symbol '@' :: M ++ L, ?_, .cons (fun line rest h => hr line rest h.ended) hm⟩
    have happ : Scans (a.text.toList ++ (String.join (as.map fun a => " " ++ a.text)).toList)
        (.symbol '@' :: M ++ L) := by
      cases as with
      | nil =>
        cases hm
        simpa using hs
      | cons b bs =>
        -- the space before the next annotation keeps the two apart
        simp only [List.map_cons, String.join_cons, String.toList_append] at hL ⊢
        exact hs.append hL (.blank_right (by decide) _ _)
    simpa using happ.cons_space

/-- Where no annotation comes next, there is none on the type. -/
theorem metas_none {given : List Annotation} {ts : List Token} (h : acceptSymbol '@' ts = none) :
    metas scope given ts = .ok (given, ts) := by
  rw [metas_eq, h]

/-- An annotation of a new name is added to those on the type. -/
theorem metas_some {given : List Annotation} {a : Annotation} {line : Nat} {ts rest : List Token}
    (hs : single scope true (⟨.symbol '@', line⟩ :: ts) = .ok (a, rest))
    (hn : ∀ b ∈ given, b.name ≠ a.name) :
    metas scope given (⟨.symbol '@', line⟩ :: ts) = metas scope (given ++ [a]) rest := by
  have hfind : ¬(AnnotationSet.find? given a.name).isSome = true := by
    intro hf
    obtain ⟨b, hb, he⟩ := List.find?_isSome.1 hf
    exact hn b hb (by simpa using he)
  rw [metas_eq scope given]
  simp only [accept_self, hs, if_neg hfind]

/-- Written annotations are read back as those on a type, after those that it has already. -/
theorem metas_of_marks {as : List Annotation} {L : List Lexeme} (h : Marks scope as L)
    (given : List Annotation) (hn : ((given ++ as).map (·.name)).Nodup) (line : Nat)
    {rest : List Token} (hrest : NoSymbol rest) :
    metas scope given (tokensOn line L ++ rest) = .ok (given ++ as, rest) := by
  induction h generalizing given with
  | nil => simpa using metas_none (hrest '@')
  | @cons a as M L ha has ih =>
    have hread := ha line (tokensOn line L ++ rest) (has.closed line hrest.closed)
    have hnew : ∀ b ∈ given, b.name ≠ a.name := by
      intro b hb he
      rw [List.map_append] at hn
      exact List.disjoint_of_nodup_append hn (List.mem_map_of_mem hb) (by simp [he])
    rw [tokensOn_append, List.append_assoc]
    rw [tokensOn_cons, List.cons_append] at hread ⊢
    rw [metas_some hread hnew, ih (given ++ [a]) (by simpa using hn)]
    simp

/-- Annotations that are read on a type are typed, and have different names, with those before
them. -/
theorem yields_metas {given as : List Annotation} {ts rest : List Token} (hts : ProperTokens ts)
    (hg : ∀ a ∈ given, a.Typed scope.definitions ∧ a.definition.isTopLevel = true)
    (hn : (given.map (·.name)).Nodup) (h : metas scope given ts = .ok (as, rest)) :
    ((∀ a ∈ as, a.Typed scope.definitions ∧ a.definition.isTopLevel = true) ∧
      (as.map (·.name)).Nodup) ∧ ProperTokens rest := by
  fun_induction metas scope given ts with
  | case1 =>
    cases h
    exact ⟨⟨hg, hn⟩, hts⟩
  | case2 => cases h
  | case3 => cases h
  | case4 given ts _ _ a _ hs hf ih =>
    obtain ⟨⟨ha, ht⟩, hrest⟩ := single_yields hts hs
    refine ih hrest (fun b hb => ?_) ?_ h
    · rcases List.mem_append.1 hb with hb | hb
      · exact hg b hb
      · rw [List.mem_singleton.1 hb]
        exact ⟨ha, ht rfl⟩
    · rw [List.map_append]
      refine hn.append (List.nodup_singleton _) ?_
      rintro n hn hna
      obtain ⟨b, hb, rfl⟩ := List.mem_map.1 hn
      refine hf (List.find?_isSome.2 ⟨b, hb, ?_⟩)
      simpa using hna

/-! ## Fields -/

/-- The lexemes of the line of a field. -/
def FieldLine (scope : Scope) (f : String × FieldType) (L : List Lexeme) : Prop :=
  ∃ w M, L = .word w :: M ++ [.word f.1] ∧ isKeyword w = false ∧
    Reads (fieldType scope) Closed (.word w :: M) f.2 ∧ IsIdentifier f.1

/-- Fields that a definition may have are written as such. -/
theorem shows_fields (hds : Named scope.definitions) {fs : List (String × FieldType)}
    (h : ∀ f ∈ fs, f.2.Declared scope.definitions ∧ IsIdentifier f.1) :
    ∃ Ls, List.Forall₂ (fun f L => Scans (f.2.text ++ " " ++ f.1).toList L ∧ FieldLine scope f L)
      fs Ls := by
  induction fs with
  | nil => exact ⟨[], .nil⟩
  | cons f fs ih =>
    obtain ⟨⟨htype, hname⟩, hfs⟩ := List.forall_mem_cons.1 h
    obtain ⟨w, hw, M, hs, hr⟩ := shows_fieldType hds htype
    obtain ⟨Ls, hLs⟩ := ih hfs
    refine ⟨(.word w :: M ++ [.word f.1]) :: Ls, .cons ⟨?_, w, M, rfl, hw, hr, hname⟩ hLs⟩
    simpa using hs.append_space hname.scans

/-- The fields of a definition stop where a statement may start. -/
theorem fields_stop (name : String) (given : List (String × FieldType)) {ts : List Token}
    (h : Boundary ts) : fields scope name given ts = .ok (given, ts) := by
  rw [fields, if_pos]
  cases ts with
  | nil => rfl
  | cons t ts =>
    obtain ⟨w, hw, hk⟩ := h
    simp [word?, hw, Lexeme.word?, hk]

/-- A field with a new name is added to those of the definition. -/
theorem fields_more {name field w : String} {given : List (String × FieldType)} {type : FieldType}
    {line line' : Nat} {ts rest : List Token} (hw : isKeyword w = false)
    (ht : fieldType scope (⟨.word w, line⟩ :: ts) = .ok (type, ⟨.word field, line'⟩ :: rest))
    (hf : IsIdentifier field) (hnew : Keyed.get? field given = none) :
    fields scope name given (⟨.word w, line⟩ :: ts) =
      fields scope name (given ++ [(field, type)]) rest := by
  have hgo : ¬((⟨.word w, line⟩ :: ts : List Token).isEmpty ||
      (word? (⟨.word w, line⟩ :: ts)).any isKeyword) = true := by
    simp [word?, Lexeme.word?, hw]
  rw [fields_eq scope name given, if_neg hgo]
  simp only [ht, identifier_self hf, hnew, Option.isSome_none, Bool.false_eq_true, if_false]

/-- Written fields are read back, up to the next statement. -/
theorem fields_of_lines {fs : List (String × FieldType)} {Ls : List (List Lexeme)}
    (h : List.Forall₂ (FieldLine scope) fs Ls) (name : String) (given : List (String × FieldType))
    (hn : (Keyed.keys (given ++ fs)).Nodup) (line : Nat) {rest : List Token}
    (hrest : Boundary rest) :
    fields scope name given (tokensFrom line Ls ++ rest) = .ok (given ++ fs, rest) := by
  induction h generalizing given line with
  | nil => simpa using fields_stop name given hrest
  | @cons f L fs Ls hf _ ih =>
    obtain ⟨w, M, rfl, hw, hr, hfield⟩ := hf
    have hread := hr line (⟨.word f.1, line⟩ :: (tokensFrom (line + 1) Ls ++ rest))
      (closed_word _ _ _)
    have hsplit : tokensFrom line ((.word w :: M ++ [.word f.1]) :: Ls) ++ rest =
        ⟨.word w, line⟩ :: (tokensOn line M ++
          ⟨.word f.1, line⟩ :: (tokensFrom (line + 1) Ls ++ rest)) := by
      simp
    rw [hsplit]
    refine (fields_more hw hread hfield (Keyed.get?_eq_none_of_nodup hn)).trans ?_
    simpa using ih (given ++ [(f.1, f.2)]) (by simpa using hn) (line + 1)

/-- The lines of fields start with no symbol. -/
theorem noSymbol_lines {fs : List (String × FieldType)} {Ls : List (List Lexeme)}
    (h : List.Forall₂ (FieldLine scope) fs Ls) (line : Nat) {rest : List Token}
    (hrest : Boundary rest) : NoSymbol (tokensFrom line Ls ++ rest) := by
  cases h with
  | nil => exact hrest.noSymbol
  | cons hf _ =>
    obtain ⟨w, M, rfl, -⟩ := hf
    exact noSymbol_word w line _

/-- Fields that are read are declared, and have different names, with those before them. -/
theorem yields_fields {name : String} {given fs : List (String × FieldType)}
    {ts rest : List Token} (hts : ProperTokens ts)
    (hg : ∀ f ∈ given, f.2.Declared scope.definitions ∧ IsIdentifier f.1)
    (hn : (Keyed.keys given).Nodup) (h : fields scope name given ts = .ok (fs, rest)) :
    ((∀ f ∈ fs, f.2.Declared scope.definitions ∧ IsIdentifier f.1) ∧ (Keyed.keys fs).Nodup) ∧
      ProperTokens rest := by
  fun_induction fields scope name given ts with
  | case1 =>
    cases h
    exact ⟨⟨hg, hn⟩, hts⟩
  | case2 => cases h
  | case3 => cases h
  | case4 => cases h
  | case5 given ts _ type _ ht field _ hi hnew ih =>
    obtain ⟨htype, hrest⟩ := yields_fieldType scope hts ht
    obtain ⟨hfield, hrest⟩ := yields_identifier hrest hi
    refine ih hrest (fun f hf => ?_) ?_ h
    · rcases List.mem_append.1 hf with hf | hf
      · exact hg f hf
      · rw [List.mem_singleton.1 hf]
        exact ⟨htype, hfield⟩
    · exact Keyed.nodup_keys_snoc hn (by simpa using hnew) type

/-! ## Definitions -/

/-- A retention policy as it is written before the name of a type. -/
def retentionText (r : Option Retention) : String :=
  match r with
  | some r => r.keyword ++ " "
  | none => ""

/-- The lexemes of a retention policy. -/
def retentionLexemes (r : Option Retention) : List Lexeme :=
  match r with
  | some r => [.word r.keyword]
  | none => []

/-- A retention policy is scanned before what follows it. -/
theorem scans_retention (r : Option Retention) {text : String} {L : List Lexeme}
    (h : Scans text.toList L) :
    Scans (retentionText r ++ text).toList (retentionLexemes r ++ L) := by
  cases r with
  | none => simpa [retentionText, retentionLexemes] using h
  | some r =>
    have hw : IsWord r.keyword := by
      cases r <;> decide
    simpa [retentionText, retentionLexemes] using hw.scans.append_space h

/-- A retention policy is read up to the sign that follows it. -/
theorem retention?_lexemes (r : Option Retention) (line : Nat) (rest : List Token) :
    retention? (tokensOn line (retentionLexemes r) ++ ⟨.symbol '@', line⟩ :: rest) =
      (r, ⟨.symbol '@', line⟩ :: rest) := by
  cases r with
  | none => rfl
  | some r => cases r <;> rfl

/-- What is written after a header and its colon. -/
def saidText (as : List Annotation) (castType : Option String) : String :=
  String.join (as.map fun a => " " ++ a.text) ++
    match castType with
    | some type => " " ++ type
    | none => ""

/-- Without a cast type, annotations are written, each after a blank. -/
@[simp] theorem saidText_none (as : List Annotation) :
    saidText as none = String.join (as.map fun a => " " ++ a.text) := by
  simp [saidText]

/-- A cast type is written after the annotations. -/
@[simp] theorem saidText_some (as : List Annotation) (type : String) :
    saidText as (some type) = String.join (as.map fun a => " " ++ a.text) ++ " " ++ type := by
  simp [saidText, String.append_assoc]

/-- The text of a header with what follows it. -/
theorem scans_headerText {header : String} {L M : List Lexeme} {as : List Annotation}
    {castType : Option String} (hh : Scans header.toList L)
    (ha : Scans (saidText as castType).toList M) :
    Scans (headerText header as castType).toList (L ++ .symbol ':' :: M) := by
  have h := hh.append_symbol (isSymbol_of_mem (c := ':') (by decide)) ha
  have htext : headerText header as castType = header ++ ":" ++ saidText as castType :=
    String.append_assoc
  simpa [htext] using h

/-- **The lines of a definition are read as the definition**: in the package of the definition and
with what it refers to in scope, the line with its name and its annotations and the lines of its
fields give it back, up to the next statement. -/
theorem definition_lines (hds : Named scope.definitions) {d : Definition}
    (hd : d.Declared scope.definitions) (hp : scope.package = d.package) :
    ∃ L Ls, Scans (headerText ("annotation " ++ retentionText d.retention ++ "@" ++ d.basename)
        d.metas none).toList (.word "annotation" :: L) ∧
      List.Forall₂ (fun f M => Scans (f.2.text ++ " " ++ f.1).toList M) d.fields Ls ∧
      ∀ (start line : Nat) (rest : List Token), Boundary rest →
        definition scope start (tokensOn line L ++ (tokensFrom (line + 1) Ls ++ rest)) =
          .ok (d, rest) := by
  obtain ⟨-, hb, hname⟩ := hd.qualify
  obtain ⟨M, hM, hmarks⟩ := shows_marks hds hd.metas
  obtain ⟨Ls, hLs⟩ := shows_fields hds hd.fields
  have hlines : List.Forall₂ (FieldLine scope) d.fields Ls := hLs.imp fun _ _ h => h.2
  refine ⟨retentionLexemes d.retention ++ .symbol '@' :: .word d.basename :: .symbol ':' :: M, Ls,
    ?_, hLs.imp fun _ _ h => h.1, fun start line rest hrest => ?_⟩
  · have hw : IsWord "annotation" := by decide
    have hbase := hb.scans.cons_symbol (c := '@') (by decide) (by decide)
    have hname : Scans ("@" ++ d.basename).toList [.symbol '@', .word d.basename] := by
      simpa using hbase
    have hret := scans_retention d.retention hname
    have hheader : Scans ("annotation " ++ retentionText d.retention ++ "@" ++ d.basename).toList
        ([.word "annotation"] ++ (retentionLexemes d.retention ++
          [.symbol '@', .word d.basename])) := by
      simpa using hw.scans.append_space hret
    have hmetas : Scans (saidText d.metas none).toList M := saidText_none d.metas ▸ hM
    simpa using scans_headerText hheader hmetas
  · have hmetas := metas_of_marks hmarks [] (by simpa using hd.metaNames) line
      (noSymbol_lines hlines (line + 1) hrest)
    have hfs := fields_of_lines hlines d.name [] (by simpa using hd.fieldNames) (line + 1) hrest
    have hnew : scope.definitions.any (fun e => decide (e.name = d.name)) = false := by
      rw [List.any_eq_false]
      intro e he hn
      exact hd.new (List.mem_map.2 ⟨e, he, by simpa using hn⟩)
    have hsplit : tokensOn line (retentionLexemes d.retention ++
        .symbol '@' :: .word d.basename :: .symbol ':' :: M) ++ (tokensFrom (line + 1) Ls ++ rest) =
        tokensOn line (retentionLexemes d.retention) ++ ⟨.symbol '@', line⟩ ::
          ⟨.word d.basename, line⟩ :: ⟨.symbol ':', line⟩ ::
            (tokensOn line M ++ (tokensFrom (line + 1) Ls ++ rest)) := by
      simp
    rw [hsplit, definition, retention?_lexemes]
    simp only [expectSymbol_self, identifier_self hb, hp, hname, hnew, Bool.false_eq_true,
      if_false, hmetas, hfs, List.nil_append]
    cases d
    rfl

/-- **A definition that is read is declared over those in scope.** -/
theorem yields_definition {start : Nat} (hp : IsPackageName scope.package) :
    Yields (definition scope start) fun d => d.Declared scope.definitions := by
  intro ts d rest hts h
  rw [definition] at h
  have hret : ProperTokens (retention? ts).2 := by
    rw [retention?]
    split
    · exact fun t ht => hts t (List.mem_of_mem_tail ht)
    · exact hts
  simp only at h
  split at h
  · cases h
  next hat =>
  split at h
  · cases h
  next hi =>
  obtain ⟨hb, hrest⟩ := yields_identifier (proper_of_expectSymbol hret hat) hi
  split at h
  · cases h
  next hcolon =>
  split at h
  · cases h
  next hnew =>
  split at h
  · cases h
  next hm =>
  obtain ⟨⟨hmetas, hmetaNames⟩, hrest⟩ := yields_metas (proper_of_expectSymbol hrest hcolon)
    (List.forall_mem_nil _) (List.nodup_nil (α := String)) hm
  split at h
  · cases h
  next hf =>
  obtain ⟨⟨hfields, hfieldNames⟩, hrest⟩ := yields_fields hrest (List.forall_mem_nil _)
    (List.nodup_nil (α := String)) hf
  cases h
  refine ⟨⟨⟨_, _, hp, hb, rfl⟩, fun hmem => hnew ?_, hfieldNames, hfields, hmetaNames, hmetas⟩,
    hrest⟩
  obtain ⟨e, he, hn⟩ := List.mem_map.1 hmem
  exact List.any_eq_true.2 ⟨e, he, by simpa using hn⟩

end Reader

end AnnotationIndex
