import AnnotationIndex.Proofs.Definition.Merged
import AnnotationIndex.Proofs.Reading

/-!
# Scenes that are reached by reading

Texts may be read into the empty scene one after the other, and each may stop at an error
(`Scene.Reached`). What is stored on the way is well typed: annotations give values that the fields
of their types accept, an annotation in a value is of the very definition that its field refers to,
and definitions are finite trees without arrays of arrays, in which no name comes back. The main
statement is `Scene.Reached.wellTyped`. It follows from two facts: the annotations on the elements
of such a scene are typed, each over the definitions of some text (`Scene.Reached.sound`), and what
is in a typed annotation is typed over the same definitions (`Declarations.inherits`).
-/

namespace AnnotationIndex

/-! ## What a scene holds -/

/-- The annotation is the value or an element of it. -/
inductive Value.Holds : Value → Annotation → Prop where
  | nested (a : Annotation) : Holds (.nested a) a
  | array {vs : List Value} {v : Value} {a : Annotation} (hv : v ∈ vs) (h : Holds v a) :
      Holds (.array vs) a

namespace Scene

/-- The scene comes from reading texts into the empty scene, one after the other, each to its end or
to an error. -/
inductive Reached : Scene → Prop where
  | empty : Reached empty
  | read {s : Scene} (h : Reached s) (text : String) : Reached (s.read text).1

mutual

/-- The annotation is in the scene: on an element, on a definition, or in a value of an annotation
that is. -/
inductive Holds (s : Scene) : Annotation → Prop where
  | mark {path : Path} {a : Annotation} (ha : a ∈ (s.root.labelAt path).annotations) : Holds s a
  | value {a b : Annotation} {v : String × Value} (h : Holds s a) (hv : v ∈ a.values)
      (hb : v.2.Holds b) : Holds s b
  | onType {d : Definition} {a : Annotation} (h : Knows s d) (ha : a ∈ d.metas) : Holds s a

/-- The definition is in the scene: that of an annotation, or one that a field refers to. -/
inductive Knows (s : Scene) : Definition → Prop where
  | definition {a : Annotation} (h : Holds s a) : Knows s a.definition
  | field {d x : Definition} {f : String × FieldType} (h : Knows s d) (hf : f ∈ d.fields)
      (hx : f.2.annotationType? = some x) : Knows s x

end

end Scene

/-! ## Well-typed annotations and definitions -/

/-- The annotation gives values to fields of its type only, each one that the field accepts. An
annotation in a value is of the definition that the field refers to. -/
def Annotation.WellTyped (a : Annotation) : Prop :=
  ∀ v ∈ a.values, ∃ type, Keyed.get? v.1 a.definition.fields = some type ∧
    type.accepts v.2 = true ∧ ∀ b, v.2.Holds b → type.annotationType? = some b.definition

/-- The type is an array, of known or of unknown element type. -/
def FieldType.isArray : FieldType → Bool
  | .array _ | .unknownArray => true
  | _ => false

/-- The annotations on the type are of different types, each with a retention policy. No field is an
array of arrays, and no definition that the definition mentions, directly or through others, is of
its name. -/
structure Definition.WellFormed (d : Definition) : Prop where
  distinct : (d.metas.map (·.name)).Nodup
  retained : ∀ a ∈ d.metas, a.definition.retention.isSome
  flat : ∀ f ∈ d.fields, ∀ element, f.2 = .array element → element.isArray = false
  acyclic : ∀ x, Relation.TransGen (fun d e => e ∈ d.mentioned) d x → x.name ≠ d.name

mutual

/-- A typed value is accepted by its type. -/
theorem Value.Typed.accepts {ds : List Definition} : ∀ {v : Value} {type : FieldType},
    v.Typed ds type → type.accepts v = true
  | .nested a, type, h => by
    cases type <;> simp only [Value.Typed] at h
    · exact h
    · exact decide_eq_true h.2
  | .array vs, type, h => by
    cases type <;> simp only [Value.Typed] at h
    · exact h
    · exact Value.AllTyped.accepts h
    · rw [h]
      rfl
  | .boolean _, type, h | .integer _ _, type, h | .char _, type, h | .floating _ _, type, h
  | .string _, type, h | .classToken _, type, h | .enum _, type, h => by
    cases type <;> simp only [Value.Typed] at h <;> first | exact h | rfl

/-- The elements of a typed array are accepted by their type. -/
theorem Value.AllTyped.accepts {ds : List Definition} : ∀ {vs : List Value} {type : FieldType},
    Value.AllTyped ds type vs → vs.all (fun v => type.accepts v) = true
  | [], _, _ => rfl
  | _ :: _, _, ⟨hv, hvs⟩ => by
    rw [List.all_cons, Value.Typed.accepts hv, Value.AllTyped.accepts hvs, Bool.and_self]

end

/-- An annotation in a typed value is typed itself, and its type has the name that the field refers
to. -/
theorem Value.Typed.of_holds {ds : List Definition} {v : Value} {b : Annotation} (hb : v.Holds b) :
    ∀ {type : FieldType}, v.Typed ds type →
      b.Typed ds ∧ ∃ d, type.annotationType? = some d ∧ b.name = d.name := by
  induction hb with
  | nested a =>
    intro type h
    cases type <;> simp only [Value.Typed, BasicKind.accepts, Bool.false_eq_true] at h
    exact ⟨h.1, _, rfl, h.2⟩
  | @array vs v b hv _ ih =>
    intro type h
    cases type <;> simp only [Value.Typed, BasicKind.accepts, Bool.false_eq_true] at h
    · obtain ⟨hb, d, hd, hname⟩ := ih (Value.allTyped_iff.1 h v hv)
      exact ⟨hb, d, hd, hname⟩
    · rw [h] at hv
      cases hv

section
variable {ds : List Definition}

/-- An annotation that is typed over declared definitions is well typed. -/
theorem Declarations.wellTyped_of_typed (hds : Declarations ds) {a : Annotation} (h : a.Typed ds) :
    a.WellTyped := by
  intro v hv
  obtain ⟨-, type, hg, ht⟩ := Value.namedTyped_iff.1 h.named v hv
  refine ⟨type, hg, ht.accepts, fun b hb => ?_⟩
  obtain ⟨htyped, d, hd, hname⟩ := ht.of_holds hb
  have hmentioned : d ∈ a.definition.mentioned :=
    Definition.mem_mentioned_iff.2 (.inl ⟨_, Keyed.mem_of_get? hg, hd⟩)
  have hmem : d ∈ ds := (hds.mentioned _ h.mem d hmentioned).1
  -- two declared definitions of one name are one
  rw [hd, List.inj_on_of_nodup_map hds.named.distinct htyped.mem hmem hname]

/-- What a declared definition mentions, directly or through others, is declared before it. -/
theorem Declarations.idxOf_lt (hds : Declarations ds) {d x : Definition} (hd : d ∈ ds)
    (h : Relation.TransGen (fun d e => e ∈ d.mentioned) d x) :
    x ∈ ds ∧ (ds.map (·.name)).idxOf x.name < (ds.map (·.name)).idxOf d.name := by
  induction h with
  | single hx => exact hds.mentioned d hd _ hx
  | tail _ hx ih =>
    obtain ⟨hmem, hlt⟩ := hds.mentioned _ ih.1 _ hx
    exact ⟨hmem, hlt.trans ih.2⟩

/-- A declared definition is well formed. -/
theorem Declarations.wellFormed (hds : Declarations ds) {d : Definition} (hd : d ∈ ds) :
    d.WellFormed := by
  obtain ⟨pre, -, hdecl⟩ := hds.declared d hd
  refine ⟨hdecl.metaNames, fun a ha => (hdecl.metas a ha).2, fun f hf element he => ?_,
    fun x hx he => ?_⟩
  · have hscalar := (hdecl.fields f hf).1
    rw [he] at hscalar
    cases element with
    | basic | classToken | enum | nested => rfl
    | array | unknownArray => exact hscalar.elim
  · have hlt := (hds.idxOf_lt hd hx).2
    rw [he] at hlt
    exact Nat.lt_irrefl _ hlt

/-- The properties of an annotation and of a definition pass to what is in them. -/
structure Inherits (T : Annotation → Prop) (D : Definition → Prop) : Prop where
  value : ∀ a, T a → ∀ v ∈ a.values, ∀ b, v.2.Holds b → T b
  definition : ∀ a, T a → D a.definition
  onType : ∀ d, D d → ∀ a ∈ d.metas, T a
  field : ∀ d, D d → ∀ f ∈ d.fields, ∀ x, f.2.annotationType? = some x → D x

/-- What is in typed annotations is typed over the same declared definitions. -/
theorem Declarations.inherits (hds : Declarations ds) : Inherits (·.Typed ds) (· ∈ ds) := by
  refine ⟨fun a ha v hv b hb => ?_, fun a ha => ha.mem, fun d hd a ha => ?_,
    fun d hd f hf x hx => ?_⟩
  · obtain ⟨-, type, -, ht⟩ := Value.namedTyped_iff.1 ha.named v hv
    exact (ht.of_holds hb).1
  · obtain ⟨pre, hpre, hdecl⟩ := hds.declared d hd
    exact (hdecl.metas a ha).1.mono hpre
  · exact (hds.mentioned d hd x (Definition.mem_mentioned_iff.2 (.inl ⟨f, hf, hx⟩))).1

/-- What is in annotations that texts can make, texts can make. -/
theorem inherits_readable : Inherits Annotation.Readable Definition.Readable := by
  refine ⟨?_, fun a ha => ha.definition, ?_, ?_⟩
  · rintro a ⟨ds, hds, ha⟩ v hv b hb
    exact ⟨ds, hds, hds.inherits.value a ha v hv b hb⟩
  · rintro d ⟨ds, hds, hd⟩ a ha
    exact ⟨ds, hds, hds.inherits.onType d hd a ha⟩
  · rintro d ⟨ds, hds, hd⟩ f hf x hx
    exact ⟨ds, hds, hds.inherits.field d hd f hf x hx⟩

end

namespace Scene

variable {s : Scene}

/-- What is reached is sound, of annotations that texts can make. -/
theorem Reached.sound (h : s.Reached) : s.Sound Annotation.Readable := by
  induction h with
  | empty => exact sound_empty _
  | read _ text ih => exact ih.read (fun ds hds a ha => ⟨ds, hds, ha⟩) text

/-- In a sound scene of readable annotations every annotation is readable. -/
theorem Sound.readable (hs : s.Sound Annotation.Readable) (path : Path) :
    ∀ a ∈ (s.root.labelAt path).annotations, a.Readable :=
  fun a ha => (hs.marks path a ha).2.2.1

mutual

/-- What is inherited and holds of the annotations on elements holds of all that the scene holds. -/
theorem Holds.inherit {T : Annotation → Prop} {D : Definition → Prop} (h : Inherits T D)
    (hs : ∀ path, ∀ a ∈ (s.root.labelAt path).annotations, T a) :
    ∀ {a : Annotation}, s.Holds a → T a
  | _, .mark ha => hs _ _ ha
  | _, .value ha hv hb => h.value _ (ha.inherit h hs) _ hv _ hb
  | _, .onType hd ha => h.onType _ (hd.inherit h hs) _ ha

/-- What is inherited and holds of the annotations on elements holds of all definitions that the
scene knows. -/
theorem Knows.inherit {T : Annotation → Prop} {D : Definition → Prop} (h : Inherits T D)
    (hs : ∀ path, ∀ a ∈ (s.root.labelAt path).annotations, T a) :
    ∀ {d : Definition}, s.Knows d → D d
  | _, .definition ha => h.definition _ (ha.inherit h hs)
  | _, .field hd hf hx => h.field _ (hd.inherit h hs) _ hf _ hx

end

/-- **Everything that texts leave in a scene is well typed**, whether they can be read to their end
or not. On each element the annotations are of different types, each with a retention policy. Every
annotation anywhere in the scene gives its fields values of their types, with annotations of the
very definitions that the types refer to. Every definition in the scene is well formed. -/
theorem Reached.wellTyped (s : Scene) (h : s.Reached) :
    (∀ path, ((s.root.labelAt path).annotations.map (·.name)).Nodup ∧
      ∀ a ∈ (s.root.labelAt path).annotations, a.definition.retention.isSome) ∧
    (∀ a, s.Holds a → a.WellTyped) ∧ ∀ d, s.Knows d → d.WellFormed := by
  have hsound := h.sound
  refine ⟨fun path => ⟨hsound.names path, fun a ha => (hsound.marks path a ha).2.2.2⟩,
    fun a ha => ?_, fun d hd => ?_⟩
  · obtain ⟨ds, hds, ht⟩ := ha.inherit inherits_readable hsound.readable
    exact hds.wellTyped_of_typed ht
  · obtain ⟨ds, hds, hmem⟩ := hd.inherit inherits_readable hsound.readable
    exact hds.wellFormed hmem

/-- An annotation with another one in its value. -/
def nestedMark : Annotation :=
  let inner : Definition := ⟨"A", none, [], []⟩
  ⟨⟨"B", some .runtime, [("x", .array (.nested inner))], []⟩, [("x", .array [.nested ⟨inner, []⟩])]⟩

/-- A class with an annotation. The text that it comes from breaks off in the annotation of a
field. -/
def brokenOff : Scene :=
  ⟨⟨[], none, [(.typeDecl "C", ⟨[nestedMark], none, [(.field "f", .bare)]⟩)]⟩, []⟩

set_option maxRecDepth 10000 in
/-- The scene is what reading a text leaves that breaks off. -/
theorem reached_brokenOff : brokenOff.Reached := by
  have h : (empty.read ("package: annotation @A: annotation visible @B: annotation-field A[] x " ++
      "class C: @B(x=\x7b@A\x7d) field f: @B(")).1 = brokenOff := by with_unfolding_all rfl
  rw [← h]
  exact .read .empty _

/-- What has been read before the text breaks off is well typed, the inner annotation too. -/
theorem wellTyped_brokenOff : brokenOff.Reached ∧ brokenOff.Holds ⟨⟨"A", none, [], []⟩, []⟩ ∧
    (∀ path, ((brokenOff.root.labelAt path).annotations.map (·.name)).Nodup ∧
      ∀ a ∈ (brokenOff.root.labelAt path).annotations, a.definition.retention.isSome) ∧
    (∀ a, brokenOff.Holds a → a.WellTyped) ∧ ∀ d, brokenOff.Knows d → d.WellFormed := by
  refine ⟨reached_brokenOff, ?_, Reached.wellTyped brokenOff reached_brokenOff⟩
  have hmark : nestedMark ∈ (brokenOff.root.labelAt [.typeDecl "C"]).annotations :=
    List.mem_cons_self
  exact .value (.mark hmark) List.mem_cons_self (.array List.mem_cons_self (.nested _))

end Scene

end AnnotationIndex
