import AnnotationIndex.Proofs.Element.Slots
import AnnotationIndex.Proofs.Reached

/-!
# Scenes that are assembled

A scene can be assembled element by element instead of being read (`Scene.Assembled`), and its tree
then takes any shape that elements can have. `Scene.Regular` says that what is put into it is made
of such names, locations and values as texts have, is well typed, and uses one definition for each
type. Of such parts every annotation could stand in some text (`Scene.Regular.readable`): its
definition can be declared once those that it mentions have been.
-/

namespace AnnotationIndex

open Reader Text

/-! ## Assembling -/

namespace Scene

/-- The scene comes from the empty one by creating elements, by adding annotations to elements below
the root, and by setting the types that casts are to. -/
inductive Assembled : Scene → Prop where
  | empty : Assembled empty
  | create {s : Scene} (h : Assembled s) (path : Path) (hp : Kind.scene.hasPath path = true) :
      Assembled (s.modifyAt path id)
  | annotate {s : Scene} (h : Assembled s) (path : Path) (hp : Kind.scene.hasPath path = true)
      (hne : path ≠ []) (a : Annotation) : Assembled (s.modifyAt path (Element.annotate a))
  | castTo {s : Scene} (h : Assembled s) (path : Path) (hp : Kind.scene.hasPath path = true)
      (hk : Kind.scene.after path = .cast) (type : String) :
      Assembled (s.modifyAt path fun e => { e with castType := some type })

/-- An assembled scene has the shape of a scene. -/
theorem Assembled.shaped {s : Scene} (h : s.Assembled) : s.Shaped := by
  induction h with
  | empty => exact Element.shaped_fresh .scene
  | create _ path hp ih => exact Element.Shaped.modifyAt (fun _ he => he) hp ih
  | annotate _ path hp hne a ih => exact ih.annotate hp hne a
  | castTo _ path hp hk type ih =>
    refine Element.Shaped.modifyAt (fun e he => ?_) hp ih
    cases he with
    | mk unmarked _ distinct filled owned shaped =>
      exact .mk unmarked (fun _ => hk) distinct filled owned shaped

end Scene

/-! ## Names and values as texts have them -/

mutual

/-- Class tokens and constants in the value are as texts have them. -/
def Value.Proper : Value → Prop
  | .classToken name => IsClassName name
  | .enum name => IsIdentifier name
  | .array vs => Value.AllProper vs
  | _ => True
termination_by structural v => v

/-- Class tokens and constants in the values are as texts have them. -/
def Value.AllProper : List Value → Prop
  | [] => True
  | v :: vs => v.Proper ∧ Value.AllProper vs
termination_by structural vs => vs

end

/-- The annotation gives each field at most one value, and values as texts have them. -/
structure Annotation.Proper (a : Annotation) : Prop where
  fieldNames : (Keyed.keys a.values).Nodup
  values : ∀ v ∈ a.values, v.2.Proper

/-- The enumeration that the type refers to has a qualified name. -/
def FieldType.Proper : FieldType → Prop
  | .enum name => IsName name
  | .array element => element.Proper
  | _ => True

/-- The definition has a qualified name and different fields, named by identifiers. -/
structure Definition.Proper (d : Definition) : Prop where
  named : ∃ p b, IsPackageName p ∧ IsIdentifier b ∧ d.name = qualify p b
  fieldNames : (Keyed.keys d.fields).Nodup
  fields : ∀ f ∈ d.fields, IsIdentifier f.1 ∧ f.2.Proper

/-- The names, locations, keys and cast types in the scene are as texts have them, supertypes apart,
which may have any number. Each element has annotations of different types, all with a retention
policy. All annotations are well typed, and all definitions of one name are the same. -/
structure Scene.Regular (s : Scene) : Prop where
  slots : ∀ path e, s.at? path = some e → ∀ slot ∈ path, slot.family ≠ .supertype → slot.Proper
  casts : ∀ path, ∀ type ∈ (s.root.labelAt path).castType, IsCastType type
  distinct : ∀ path, ((s.root.labelAt path).annotations.map (·.name)).Nodup
  retained : ∀ path, ∀ a ∈ (s.root.labelAt path).annotations, a.definition.retention.isSome
  annotations : ∀ a, s.Holds a → a.WellTyped ∧ a.Proper
  definitions : ∀ d, s.Knows d → d.WellFormed ∧ d.Proper
  unique : ∀ d, s.Knows d → ∀ e, s.Knows e → d.name = e.name → d = e

/-! ## Well-typed annotations are typed over their definitions -/

/-- The annotation itself is well typed, of a type among the definitions. -/
structure Annotation.Fits (ds : List Definition) (a : Annotation) : Prop where
  mem : a.definition ∈ ds
  wellTyped : a.WellTyped
  proper : a.Proper

section
variable {ds : List Definition}

mutual

/-- An annotation is typed when all annotations in it are well typed. -/
theorem Annotation.typed_of_parts (hds : ∀ d ∈ ds, d.Proper) :
    ∀ {a : Annotation}, (∀ p ∈ a.parts, p.Fits ds) → a.Typed ds
  | ⟨definition, values⟩, h => by
    unfold Annotation.parts at h
    rw [List.forall_mem_cons] at h
    obtain ⟨⟨hmem, hwell, hproper⟩, hparts⟩ := h
    refine ⟨hmem, hproper.fieldNames, Value.namedTyped_of_parts hds (fun v hv => ?_) hparts⟩
    obtain ⟨type, hg, ha, -⟩ := hwell v hv
    exact ⟨((hds _ hmem).fields _ (Keyed.mem_of_get? hg)).1, hproper.values v hv, type, hg, ha⟩

/-- A value that its type accepts is typed when all annotations in it are well typed. -/
theorem Value.typed_of_parts (hds : ∀ d ∈ ds, d.Proper) : ∀ {v : Value} {type : FieldType},
    type.accepts v = true → v.Proper → (∀ p ∈ v.parts, p.Fits ds) → v.Typed ds type
  | .nested a, type, ha, _, hparts => by
    cases type <;> simp only [FieldType.accepts, Bool.false_eq_true, decide_eq_true_eq] at ha
    · simp [BasicKind.accepts] at ha
    · have htyped := Annotation.typed_of_parts hds hparts
      exact ⟨htyped, ha⟩
  | .array vs, type, ha, hv, hparts => by
    cases type <;> simp only [FieldType.accepts, Bool.false_eq_true] at ha
    · simp [BasicKind.accepts] at ha
    · exact Value.allTyped_of_parts hds ha hv hparts
    · exact List.isEmpty_iff.1 ha
  | .classToken name, type, ha, hv, _ => by
    cases type <;> simp only [FieldType.accepts, Bool.false_eq_true] at ha
    · exact ha
    · exact hv
  | .enum name, type, ha, hv, _ => by
    cases type <;> simp only [FieldType.accepts, Bool.false_eq_true] at ha
    · exact ha
    · exact hv
  | .boolean _, type, ha, _, _ | .integer _ _, type, ha, _, _ | .char _, type, ha, _, _
  | .floating _ _, type, ha, _, _ | .string _, type, ha, _, _ => by
    cases type <;> simp only [FieldType.accepts, Bool.false_eq_true] at ha
    exact ha

/-- Values that their type accepts are typed when all annotations in them are well typed. -/
theorem Value.allTyped_of_parts (hds : ∀ d ∈ ds, d.Proper) {type : FieldType} :
    ∀ {vs : List Value}, vs.all (fun v => type.accepts v) = true → Value.AllProper vs →
      (∀ p ∈ Value.partsAll vs, p.Fits ds) → Value.AllTyped ds type vs
  | [], _, _, _ => trivial
  | _ :: _, ha, hv, hparts => by
    rw [List.all_cons, Bool.and_eq_true] at ha
    rw [Value.partsAll, List.forall_mem_append] at hparts
    exact ⟨Value.typed_of_parts hds ha.1 hv.1 hparts.1,
      Value.allTyped_of_parts hds ha.2 hv.2 hparts.2⟩

/-- Values of declared fields are typed when all annotations in them are well typed. -/
theorem Value.namedTyped_of_parts (hds : ∀ d ∈ ds, d.Proper) {fields : List (String × FieldType)} :
    ∀ {values : List (String × Value)},
      (∀ v ∈ values, IsIdentifier v.1 ∧ v.2.Proper ∧
        ∃ type, Keyed.get? v.1 fields = some type ∧ type.accepts v.2 = true) →
      (∀ p ∈ Value.partsNamed values, p.Fits ds) → Value.NamedTyped ds fields values
  | [], _, _ => trivial
  | (_, _) :: _, hvalues, hparts => by
    obtain ⟨⟨hi, hv, type, hg, ha⟩, hrest⟩ := List.forall_mem_cons.1 hvalues
    rw [Value.partsNamed, List.forall_mem_append] at hparts
    exact ⟨⟨hi, type, hg, Value.typed_of_parts hds ha hv hparts.1⟩,
      Value.namedTyped_of_parts hds hrest hparts.2⟩

end

end

/-! ## What a scene holds is closed -/

namespace Scene

variable {s : Scene}

mutual

/-- The annotations inside an annotation of a scene are in the scene. -/
theorem Holds.part : ∀ {a p : Annotation}, s.Holds a → p ∈ a.parts → s.Holds p
  | ⟨definition, values⟩, p, h, hp => by
    rcases Annotation.mem_parts_iff.1 hp with rfl | hp
    · exact h
    · exact Holds.partNamed (fun v hv b hb => .value h hv hb) hp

/-- What a value of a scene holds is in the scene with all that is inside it. -/
theorem Holds.partValue : ∀ {v : Value} {p : Annotation},
    (∀ b, v.Holds b → s.Holds b) → p ∈ v.parts → s.Holds p
  | .nested a, p, h, hp => by
    rw [Value.parts] at hp
    exact Holds.part (h a (.nested a)) hp
  | .array vs, p, h, hp => by
    rw [Value.parts] at hp
    exact Holds.partAll (fun v hv b hb => h b (.array hv hb)) hp
  | .boolean _, _, _, hp | .integer _ _, _, _, hp | .char _, _, _, hp | .floating _ _, _, _, hp
  | .string _, _, _, hp | .classToken _, _, _, hp | .enum _, _, _, hp => by
    simp [Value.parts] at hp

/-- What several values hold is in the scene with all that is inside it. -/
theorem Holds.partAll : ∀ {vs : List Value} {p : Annotation},
    (∀ v ∈ vs, ∀ b, v.Holds b → s.Holds b) → p ∈ Value.partsAll vs → s.Holds p
  | [], _, _, hp => nomatch hp
  | _ :: _, p, h, hp => by
    obtain ⟨hfirst, hrest⟩ := List.forall_mem_cons.1 h
    rw [Value.partsAll, List.mem_append] at hp
    rcases hp with hp | hp
    · exact Holds.partValue hfirst hp
    · exact Holds.partAll hrest hp

/-- What named values hold is in the scene with all that is inside it. -/
theorem Holds.partNamed : ∀ {values : List (String × Value)} {p : Annotation},
    (∀ v ∈ values, ∀ b, v.2.Holds b → s.Holds b) → p ∈ Value.partsNamed values → s.Holds p
  | [], _, _, hp => nomatch hp
  | (_, _) :: _, p, h, hp => by
    obtain ⟨hfirst, hrest⟩ := List.forall_mem_cons.1 h
    rw [Value.partsNamed, List.mem_append] at hp
    rcases hp with hp | hp
    · exact Holds.partValue hfirst hp
    · exact Holds.partNamed hrest hp

end

/-- What a definition of a scene mentions is in the scene. -/
theorem Knows.mentioned {d x : Definition} (h : s.Knows d) (hx : x ∈ d.mentioned) : s.Knows x := by
  rcases Definition.mem_mentioned_iff.1 hx with ⟨f, hf, hx⟩ | ⟨a, ha, p, hp, rfl⟩
  · exact .field h hf hx
  · exact .definition ((Holds.onType h ha).part hp)

/-- The definitions of a scene in an order in which they may be declared. -/
structure Declares (s : Scene) (ds : List Definition) : Prop where
  declarations : Declarations ds
  knows : ∀ d ∈ ds, s.Knows d

variable {ds : List Definition}

namespace Regular

/-- An annotation of a regular scene is typed over definitions that hold those of all annotations in
it. -/
theorem typed (h : s.Regular) (hds : s.Declares ds) {a : Annotation} (ha : s.Holds a)
    (hp : ∀ p ∈ a.parts, p.definition ∈ ds) : a.Typed ds := by
  have hproper : ∀ d ∈ ds, d.Proper := fun d hd => (h.definitions d (hds.knows d hd)).2
  refine Annotation.typed_of_parts hproper fun p hpa => ?_
  obtain ⟨hwell, hproper⟩ := h.annotations p (ha.part hpa)
  exact ⟨hp p hpa, hwell, hproper⟩

/-- A definition of a regular scene can be declared after those that it mentions. -/
theorem declared (h : s.Regular) (hds : s.Declares ds) {d : Definition} (hd : s.Knows d)
    (hnew : d ∉ ds) (hm : ∀ x ∈ d.mentioned, x ∈ ds) : d.Declared ds := by
  obtain ⟨hwell, hproper⟩ := h.definitions d hd
  refine ⟨hproper.named, fun hname => hnew ?_, hproper.fieldNames, fun f hf => ?_, hwell.distinct,
    fun a ha => ?_⟩
  · obtain ⟨e, he, hen⟩ := List.mem_map.1 hname
    rwa [h.unique d hd e (hds.knows e he) hen.symm]
  · obtain ⟨hi, htype⟩ := hproper.fields f hf
    have hmem : ∀ x, f.2.annotationType? = some x → x ∈ ds := fun x hx =>
      hm x (Definition.mem_mentioned_iff.2 (.inl ⟨f, hf, hx⟩))
    refine ⟨?_, hi⟩
    have hflat := hwell.flat f hf
    cases hf2 : f.2 with
    | basic | classToken | unknownArray => trivial
    | enum => rwa [hf2] at htype
    | nested e => exact hmem e (by rw [hf2]; rfl)
    | array element =>
      have hscalar := hflat element hf2
      cases element with
      | basic | classToken => trivial
      | enum => rwa [hf2] at htype
      | nested e => exact hmem e (by rw [hf2]; rfl)
      | array | unknownArray => cases hscalar
  · refine ⟨h.typed hds (.onType hd ha) fun p hp => ?_, hwell.retained a ha⟩
    exact hm _ (Definition.mem_mentioned_iff.2 (.inr ⟨a, ha, p, hp, rfl⟩))

/-- Declared definitions of a scene can be continued by others one by one, where each can be brought
in. -/
theorem exists_declares_list (xs : List Definition)
    (hxs : ∀ x ∈ xs, ∀ ds, s.Declares ds → ∃ ds', s.Declares ds' ∧ ds ⊆ ds' ∧ x ∈ ds')
    (hds : s.Declares ds) : ∃ ds', s.Declares ds' ∧ ds ⊆ ds' ∧ ∀ x ∈ xs, x ∈ ds' := by
  induction xs generalizing ds with
  | nil => exact ⟨ds, hds, List.Subset.refl _, by simp⟩
  | cons x xs ih =>
    obtain ⟨hfirst, hrest⟩ := List.forall_mem_cons.1 hxs
    obtain ⟨ds₁, hds₁, hsub₁, hx⟩ := hfirst ds hds
    obtain ⟨ds₂, hds₂, hsub₂, hall⟩ := ih hrest hds₁
    exact ⟨ds₂, hds₂, List.Subset.trans hsub₁ hsub₂, List.forall_mem_cons.2 ⟨hsub₂ hx, hall⟩⟩

/-- Declared definitions of a regular scene can be continued until they hold any definition of the
scene: first by all that it mentions. -/
theorem exists_declares (h : s.Regular) (d : Definition) : s.Knows d → ∀ ds, s.Declares ds →
    ∃ ds', s.Declares ds' ∧ ds ⊆ ds' ∧ d ∈ ds' := by
  induction d using Definition.induct with
  | h d ih =>
    intro hd ds hds
    obtain ⟨ds', hds', hsub, hm⟩ :=
      exists_declares_list _ (fun x hx => ih x hx (hd.mentioned hx)) hds
    by_cases hmem : d ∈ ds'
    · exact ⟨ds', hds', hsub, hmem⟩
    · refine ⟨ds' ++ [d], ⟨hds'.declarations.snoc (h.declared hds' hd hmem hm), ?_⟩,
        List.subset_append_of_subset_left _ hsub, by simp⟩
      exact List.forall_mem_append.2 ⟨hds'.knows, List.forall_mem_singleton.2 hd⟩

/-- **Every annotation of a regular scene is one that some text makes.** -/
theorem readable (h : s.Regular) {a : Annotation} (ha : s.Holds a) : a.Readable := by
  obtain ⟨ds, hds, -, hm⟩ := exists_declares_list (a.parts.map (·.definition)) (fun x hx => by
    obtain ⟨p, hp, rfl⟩ := List.mem_map.1 hx
    exact h.exists_declares _ (.definition (ha.part hp))) (⟨.nil, by simp⟩ : s.Declares [])
  exact ⟨ds, hds.declarations, h.typed hds ha fun p hp => hm _ (List.mem_map_of_mem hp)⟩

end Regular

end Scene

/-! ## What is declared by one text is regular -/

mutual

/-- Typed values are as texts have them. -/
theorem Value.Typed.proper {ds : List Definition} : ∀ {v : Value} {type : FieldType},
    v.Typed ds type → v.Proper
  | .classToken name, type, h => by
    cases type <;> simp only [Value.Typed, BasicKind.accepts, Bool.false_eq_true] at h
    exact h
  | .enum name, type, h => by
    cases type <;> simp only [Value.Typed, BasicKind.accepts, Bool.false_eq_true] at h
    exact h
  | .array vs, type, h => by
    cases type <;> simp only [Value.Typed, BasicKind.accepts, Bool.false_eq_true] at h
    · exact Value.AllTyped.proper h
    · rw [h]
      trivial
  | .boolean _, _, _ | .integer _ _, _, _ | .char _, _, _ | .floating _ _, _, _ | .string _, _, _
  | .nested _, _, _ => trivial

/-- Typed values are such as texts have. -/
theorem Value.AllTyped.proper {ds : List Definition} {type : FieldType} : ∀ {vs : List Value},
    Value.AllTyped ds type vs → Value.AllProper vs
  | [], _ => trivial
  | _ :: _, ⟨hv, hvs⟩ => ⟨Value.Typed.proper hv, Value.AllTyped.proper hvs⟩

end

/-- Typed annotations are such as texts have. -/
theorem Annotation.Typed.proper {ds : List Definition} {a : Annotation} (h : a.Typed ds) :
    a.Proper := by
  have hvalues := Value.namedTyped_iff.1 h.named
  obtain ⟨definition, values⟩ := a
  exact ⟨h.2.1, fun v hv => by
    obtain ⟨-, type, -, ht⟩ := hvalues v hv
    exact ht.proper⟩

/-- Declared types of single values are such as texts have. -/
theorem FieldType.Scalar.proper {ds : List Definition} {type : FieldType} (h : type.Scalar ds) :
    type.Proper := by
  cases type with
  | enum => exact h
  | basic | classToken | nested | unknownArray => trivial
  | array => exact h.elim

/-- Declared field types are such as texts have. -/
theorem FieldType.Declared.proper {ds : List Definition} {type : FieldType} (h : type.Declared ds) :
    type.Proper := by
  cases type with
  | array element =>
    have hscalar : element.Scalar ds := h
    exact hscalar.proper
  | enum => exact h
  | basic | classToken | nested | unknownArray => trivial

/-- Declared definitions are such as texts have. -/
theorem Declarations.proper {ds : List Definition} (hds : Declarations ds) {d : Definition}
    (hd : d ∈ ds) : d.Proper := by
  obtain ⟨pre, -, hdecl⟩ := hds.declared d hd
  exact ⟨hdecl.named, hdecl.fieldNames, fun f hf =>
    ⟨(hdecl.fields f hf).2, (hdecl.fields f hf).1.proper⟩⟩

namespace Scene

/-- The scene of the elements on the paths, each with the annotation. -/
def marked (a : Annotation) : List Path → Scene
  | [] => empty
  | path :: rest => (marked a rest).modifyAt path (Element.annotate a)

variable {a : Annotation} {paths : List Path}

/-- Nothing but the annotation is on the paths, and nothing at all on others. -/
theorem labelAt_marked (h : paths.Nodup) (path : Path) :
    (marked a paths).root.labelAt path = if path ∈ paths then ⟨[a], none⟩ else .blank := by
  induction paths with
  | nil => exact Element.labelAt_fresh .scene path
  | cons first rest ih =>
    obtain ⟨hnew, hrest⟩ := List.nodup_cons.1 h
    rw [show (marked a (first :: rest)).root.labelAt path = _ from
      Element.labelAt_modifyAt (f := Element.annotate a) (fun _ => rfl) first path _]
    by_cases hp : first = path
    · subst hp
      have hblank : ((marked a rest).root.reach first).label = .blank := by
        rw [Element.label_reach, ih hrest, if_neg hnew]
      obtain ⟨hannotations, htype⟩ := Label.mk.inj hblank
      rw [if_pos rfl, if_pos List.mem_cons_self, Element.label, Element.annotate, hannotations,
        htype]
      rfl
    · simp only [if_neg hp, ih hrest, List.mem_cons, Ne.symm hp, false_or]

end Scene

end AnnotationIndex
