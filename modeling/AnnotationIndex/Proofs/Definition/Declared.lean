import AnnotationIndex.Proofs.Definition.Conflict
import AnnotationIndex.Proofs.Definition.NaN
import AnnotationIndex.Proofs.Definition.Order
import AnnotationIndex.Proofs.Reader.Definition

/-!
# Collecting declared definitions

The definitions that one text makes are declared one after the other. Definitions that texts make
and of which there is one for each name (`Definition.Consistent`) do not change when they are
collected, and in their new order everything that a definition refers to is still before it. So the
definitions of a scene that reaches only such are declared again (`Scene.declared_of_definitions`),
and without NaN they can always be collected (`Scene.declared_of_uses`).
-/

namespace AnnotationIndex

/-! ## Annotations inside typed annotations -/

mutual

/-- What is inside a typed annotation is typed. -/
theorem Annotation.Typed.part {ds : List Definition} : ∀ {a p : Annotation}, a.Typed ds →
    p ∈ a.parts → p.Typed ds
  | ⟨_, _⟩, p, h, hp => by
    rcases Annotation.mem_parts_iff.1 hp with rfl | hp
    · exact h
    · exact Value.NamedTyped.part h.2.2 hp

/-- What is inside a typed value is typed. -/
theorem Value.Typed.part {ds : List Definition} : ∀ {v : Value} {type : FieldType} {p : Annotation},
    v.Typed ds type → p ∈ v.parts → p.Typed ds
  | .nested a, type, p, h, hp => by
    rw [Value.parts] at hp
    cases type <;> simp only [Value.Typed] at h
    · simp [BasicKind.accepts] at h
    · exact Annotation.Typed.part h.1 hp
  | .array vs, type, p, h, hp => by
    rw [Value.parts] at hp
    cases type <;> simp only [Value.Typed] at h
    · simp [BasicKind.accepts] at h
    · exact Value.AllTyped.part h hp
    · rw [h] at hp
      cases hp
  | .boolean _, _, _, _, hp | .integer _ _, _, _, _, hp | .char _, _, _, _, hp
  | .floating _ _, _, _, _, hp | .string _, _, _, _, hp | .classToken _, _, _, _, hp
  | .enum _, _, _, _, hp => by simp [Value.parts] at hp

/-- What is inside typed elements is typed. -/
theorem Value.AllTyped.part {ds : List Definition} : ∀ {vs : List Value} {type : FieldType}
    {p : Annotation}, Value.AllTyped ds type vs → p ∈ Value.partsAll vs → p.Typed ds
  | [], _, _, _, hp => nomatch hp
  | _ :: _, _, _, ⟨hv, hvs⟩, hp => by
    rw [Value.partsAll, List.mem_append] at hp
    rcases hp with hp | hp
    · exact Value.Typed.part hv hp
    · exact Value.AllTyped.part hvs hp

/-- What is inside typed named values is typed. -/
theorem Value.NamedTyped.part {ds : List Definition} {fields : List (String × FieldType)} :
    ∀ {values : List (String × Value)} {p : Annotation}, Value.NamedTyped ds fields values →
      p ∈ Value.partsNamed values → p.Typed ds
  | [], _, _, hp => nomatch hp
  | (_, _) :: _, _, ⟨⟨_, _, _, hv⟩, hrest⟩, hp => by
    rw [Value.partsNamed, List.mem_append] at hp
    rcases hp with hp | hp
    · exact Value.Typed.part hv hp
    · exact Value.NamedTyped.part hrest hp

end

mutual

/-- Nothing occurs twice in a typed annotation. -/
theorem Annotation.Typed.distinct {ds : List Definition} (hds : ∀ d ∈ ds, d.Distinct) :
    ∀ {a : Annotation}, a.Typed ds → a.Distinct
  | ⟨_, _⟩, h => ⟨hds _ h.1, h.2.1, Value.NamedTyped.distinct hds h.2.2⟩

/-- Nothing occurs twice in a typed value when nothing does in the definitions. -/
theorem Value.Typed.distinct {ds : List Definition} (hds : ∀ d ∈ ds, d.Distinct) :
    ∀ {v : Value} {type : FieldType}, v.Typed ds type → v.Distinct
  | .nested a, type, h => by
    rw [Value.Distinct]
    cases type <;> simp only [Value.Typed] at h
    · simp [BasicKind.accepts] at h
    · exact Annotation.Typed.distinct hds h.1
  | .array vs, type, h => by
    rw [Value.Distinct]
    cases type <;> simp only [Value.Typed] at h
    · simp [BasicKind.accepts] at h
    · exact Value.AllTyped.distinct hds h
    · rw [h]
      trivial
  | .boolean _, _, _ | .integer _ _, _, _ | .char _, _, _ | .floating _ _, _, _ | .string _, _, _
  | .classToken _, _, _ | .enum _, _, _ => by simp [Value.Distinct]

/-- Nothing occurs twice in typed elements when nothing does in the definitions. -/
theorem Value.AllTyped.distinct {ds : List Definition} (hds : ∀ d ∈ ds, d.Distinct) :
    ∀ {vs : List Value} {type : FieldType}, Value.AllTyped ds type vs → Value.AllDistinct vs
  | [], _, _ => trivial
  | _ :: _, _, ⟨hv, hvs⟩ => ⟨Value.Typed.distinct hds hv, Value.AllTyped.distinct hds hvs⟩

/-- Nothing occurs twice in typed named values when nothing does in the definitions. -/
theorem Value.NamedTyped.distinct {ds : List Definition} (hds : ∀ d ∈ ds, d.Distinct)
    {fields : List (String × FieldType)} : ∀ {values : List (String × Value)},
    Value.NamedTyped ds fields values → Value.NamedDistinct values
  | [], _ => trivial
  | (_, _) :: _, ⟨⟨_, _, _, hv⟩, hrest⟩ =>
    ⟨Value.Typed.distinct hds hv, Value.NamedTyped.distinct hds hrest⟩

end

/-! ## Declared definitions -/

/-- What a declared type holds is declared. -/
theorem FieldType.Declared.mem {ds : List Definition} {type : FieldType} {d : Definition}
    (h : type.Declared ds) (hd : type.annotationType? = some d) : d ∈ ds := by
  cases type with
  | basic | classToken | enum | unknownArray => cases hd
  | nested =>
    cases hd
    exact h
  | array element =>
    cases element with
    | nested =>
      cases hd
      exact h
    | basic | classToken | enum => cases hd
    | array | unknownArray => exact h.elim

/-- A declared type is declared wherever the definition that it holds is. -/
theorem FieldType.Declared.mono {ds ds' : List Definition} {type : FieldType}
    (h : type.Declared ds) (hs : ∀ d, type.annotationType? = some d → d ∈ ds') :
    type.Declared ds' := by
  cases type with
  | basic | classToken | enum | unknownArray => exact h
  | nested d => exact hs d rfl
  | array element =>
    cases element with
    | nested d => exact hs d rfl
    | basic | classToken | enum | array | unknownArray => exact h

namespace Definition.Declared

variable {ds : List Definition} {d : Definition}

/-- What a declared definition mentions is declared before it. -/
theorem mentioned (h : d.Declared ds) : ∀ x ∈ d.mentioned, x ∈ ds := by
  intro x hx
  rcases mem_mentioned_iff.1 hx with ⟨f, hf, hx⟩ | ⟨a, ha, p, hp, rfl⟩
  · exact (h.fields f hf).1.mem hx
  · exact ((h.metas a ha).1.part hp).mem

/-- Nothing occurs twice in a declared definition. -/
theorem distinct (h : d.Declared ds) (hds : ∀ e ∈ ds, e.Distinct) : d.Distinct := by
  refine distinct_iff.2 ⟨h.fieldNames, ?_, ?_, ?_⟩
  · refine FieldType.allDistinct_iff.2 fun f hf => FieldType.distinct_iff.2 fun x hx => ?_
    exact hds x ((h.fields f hf).1.mem hx)
  · refine (List.pairwise_map.1 h.metaNames).imp fun {a b} hne => ?_
    refine Bool.eq_false_iff.2 fun hb => hne ?_
    cases a
    cases b
    simp only [Bool.and_eq_true, Annotation.beq] at hb
    exact name_eq_of_beq hb.1
  · exact Annotation.allDistinct_iff.2 fun a ha => (h.metas a ha).1.distinct hds

end Definition.Declared

namespace Declarations

variable {ds : List Definition}

/-- Nothing occurs twice in declared definitions. -/
theorem distinct (h : Declarations ds) : ∀ d ∈ ds, d.Distinct := by
  induction h with
  | nil => simp
  | @snoc ds d _ hd ih =>
    intro e he
    rcases List.mem_append.1 he with he | he
    · exact ih e he
    · exact List.mem_singleton.1 he ▸ hd.distinct ih

/-- What a declared definition mentions is declared, and earlier. -/
theorem mentioned (h : Declarations ds) : ∀ d ∈ ds, ∀ x ∈ d.mentioned, x ∈ ds ∧
    (ds.map (·.name)).idxOf x.name < (ds.map (·.name)).idxOf d.name := by
  induction h with
  | nil => simp
  | @snoc ds d _ hd ih =>
    intro e he x hx
    rw [List.map_append]
    rcases List.mem_append.1 he with he | he
    · obtain ⟨hmem, hlt⟩ := ih e he x hx
      refine ⟨List.mem_append_left _ hmem, ?_⟩
      rwa [List.idxOf_append_of_mem (List.mem_map_of_mem hmem),
        List.idxOf_append_of_mem (List.mem_map_of_mem he)]
    · rw [List.mem_singleton.1 he] at hx ⊢
      have hmem := hd.mentioned x hx
      refine ⟨List.mem_append_left _ hmem, ?_⟩
      rw [List.idxOf_append_of_mem (List.mem_map_of_mem hmem), List.idxOf_append_of_notMem hd.new]
      exact Nat.lt_add_right _ (List.idxOf_lt_length_iff.2 (List.mem_map_of_mem hmem))

/-- A declared definition may follow definitions that hold all that it mentions. -/
theorem declared (h : Declarations ds) : ∀ d ∈ ds, ∃ pre ⊆ ds, d.Declared pre := by
  induction h with
  | nil => simp
  | @snoc ds d _ hd ih =>
    intro e he
    rcases List.mem_append.1 he with he | he
    · obtain ⟨pre, hpre, hd⟩ := ih e he
      exact ⟨pre, fun x hx => List.mem_append_left _ (hpre hx), hd⟩
    · rw [List.mem_singleton.1 he]
      exact ⟨ds, List.subset_append_left _ _, hd⟩

end Declarations

/-! ## Other definitions -/

/-- Where the second definitions have one of the first, both have all that its fields refer to. -/
structure Shared (ds others : List Definition) : Prop where
  named : Named ds
  fields : ∀ d ∈ ds, d ∈ others → ∀ f ∈ d.fields, ∀ x, f.2.annotationType? = some x →
    x ∈ ds ∧ x ∈ others

mutual

/-- A typed annotation needs only its own type and what the fields of definitions refer to. -/
theorem Annotation.Typed.transfer {ds others : List Definition} (hp : Shared ds others) :
    ∀ {a : Annotation}, a.Typed ds → a.definition ∈ others → a.Typed others
  | ⟨_, _⟩, ⟨hmem, hkeys, hvalues⟩, hd =>
    ⟨hd, hkeys, Value.NamedTyped.transfer hp hvalues (hp.fields _ hmem hd)⟩

/-- A typed value is typed over other definitions that share what its type holds. -/
theorem Value.Typed.transfer {ds others : List Definition} (hp : Shared ds others) :
    ∀ {v : Value} {type : FieldType}, v.Typed ds type →
      (∀ x, type.annotationType? = some x → x ∈ ds ∧ x ∈ others) → v.Typed others type
  | .nested a, type, h, ht => by
    cases type <;> simp only [Value.Typed] at h ⊢
    · exact h
    · next d =>
      obtain ⟨hd, hdo⟩ := ht d rfl
      have he : a.definition = d :=
        List.inj_on_of_nodup_map hp.named.distinct h.1.mem hd h.2
      refine ⟨?_, h.2⟩
      exact Annotation.Typed.transfer hp h.1 (he ▸ hdo)
  | .array vs, type, h, ht => by
    cases type <;> simp only [Value.Typed] at h ⊢
    · exact h
    · exact Value.AllTyped.transfer hp h ht
    · exact h
  | .boolean _, type, h, _ | .integer _ _, type, h, _ | .char _, type, h, _
  | .floating _ _, type, h, _ | .string _, type, h, _ | .classToken _, type, h, _
  | .enum _, type, h, _ => by
    cases type <;> simp only [Value.Typed] at h ⊢ <;> exact h

/-- Typed elements are typed over other definitions that share what their type holds. -/
theorem Value.AllTyped.transfer {ds others : List Definition} (hp : Shared ds others) :
    ∀ {vs : List Value} {type : FieldType}, Value.AllTyped ds type vs →
      (∀ x, type.annotationType? = some x → x ∈ ds ∧ x ∈ others) → Value.AllTyped others type vs
  | [], _, _, _ => trivial
  | _ :: _, _, ⟨hv, hvs⟩, ht => ⟨Value.Typed.transfer hp hv ht, Value.AllTyped.transfer hp hvs ht⟩

/-- Typed named values are typed over other definitions that share what the fields hold. -/
theorem Value.NamedTyped.transfer {ds others : List Definition} (hp : Shared ds others)
    {fields : List (String × FieldType)} : ∀ {values : List (String × Value)},
      Value.NamedTyped ds fields values →
      (∀ f ∈ fields, ∀ x, f.2.annotationType? = some x → x ∈ ds ∧ x ∈ others) →
      Value.NamedTyped others fields values
  | [], _, _ => trivial
  | (_, _) :: _, ⟨⟨hi, type, hg, hv⟩, hrest⟩, ht =>
    ⟨⟨hi, type, hg, Value.Typed.transfer hp hv (ht _ (Keyed.mem_of_get? hg))⟩,
      Value.NamedTyped.transfer hp hrest ht⟩

end

/-- The fields of declared definitions refer to declared definitions. -/
theorem Declarations.shared {ds others : List Definition} (h : Declarations ds)
    (ho : Declarations others) : Shared ds others := by
  refine ⟨h.named, fun d hd hdo f hf x hx => ?_⟩
  have hmentioned := Definition.mem_mentioned_iff.2 (.inl ⟨f, hf, hx⟩)
  exact ⟨(h.mentioned d hd x hmentioned).1, (ho.mentioned d hdo x hmentioned).1⟩

/-! ## What texts can make -/

/-- The type of the annotation is defined in some text, in which the annotation can stand. -/
def Annotation.Readable (a : Annotation) : Prop := ∃ ds, Declarations ds ∧ a.Typed ds

/-- Some text makes the definition. -/
def Definition.Readable (d : Definition) : Prop := ∃ ds, Declarations ds ∧ d ∈ ds

namespace Annotation.Readable

variable {a p : Annotation}

/-- What is inside an annotation that some text makes, some text makes. -/
theorem part (h : a.Readable) (hp : p ∈ a.parts) : p.Readable := by
  obtain ⟨ds, hds, ha⟩ := h
  exact ⟨ds, hds, ha.part hp⟩

/-- The type of an annotation that some text makes, some text makes. -/
theorem definition (h : a.Readable) : a.definition.Readable := by
  obtain ⟨ds, hds, ha⟩ := h
  exact ⟨ds, hds, ha.mem⟩

/-- Nothing occurs twice in an annotation that some text makes. -/
theorem distinct (h : a.Readable) : a.Distinct := by
  obtain ⟨ds, hds, ha⟩ := h
  exact ha.distinct hds.distinct

/-- An annotation that some text makes can be made after any declared definitions that hold its
type. -/
theorem typed (h : a.Readable) {ds : List Definition} (hds : Declarations ds)
    (hd : a.definition ∈ ds) : a.Typed ds := by
  obtain ⟨own, hown, ha⟩ := h
  exact ha.transfer (hown.shared hds) hd

end Annotation.Readable

namespace Definition.Readable

variable {d x : Definition}

/-- What a definition mentions that some text makes, some text makes. -/
theorem mentioned (h : d.Readable) (hx : x ∈ d.mentioned) : x.Readable := by
  obtain ⟨ds, hds, hd⟩ := h
  exact ⟨ds, hds, (hds.mentioned d hd x hx).1⟩

/-- Nothing occurs twice in a definition that some text makes. -/
theorem distinct (h : d.Readable) : d.Distinct := by
  obtain ⟨ds, hds, hd⟩ := h
  exact hds.distinct d hd

/-- A definition that some text makes can be declared after any declared definitions that hold what
its fields refer to and the types of its annotations. -/
theorem declared (h : d.Readable) {ds : List Definition} (hds : Declarations ds)
    (hnew : d.name ∉ ds.map (·.name)) (hm : ∀ x ∈ d.mentioned, x.name ∈ d.mentions → x ∈ ds) :
    d.Declared ds := by
  obtain ⟨own, hown, hd⟩ := h
  obtain ⟨pre, hpre, hdecl⟩ := hown.declared d hd
  refine ⟨hdecl.named, hnew, hdecl.fieldNames, fun f hf => ?_, hdecl.metaNames, fun a ha => ?_⟩
  · obtain ⟨htype, hi⟩ := hdecl.fields f hf
    refine ⟨htype.mono fun x hx => ?_, hi⟩
    exact hm x (mem_mentioned_iff.2 (.inl ⟨f, hf, hx⟩)) (mem_mentions_of_field hf hx)
  · obtain ⟨htyped, htop⟩ := hdecl.metas a ha
    have hread : a.Readable := ⟨own, hown, htyped.mono hpre⟩
    refine ⟨hread.typed hds ?_, htop⟩
    exact hm _ (mem_mentioned_iff.2 (.inr ⟨a, ha, a, a.mem_parts_self, rfl⟩))
      (List.mem_append_right _ (List.mem_map_of_mem ha))

end Definition.Readable

/-- What is reached from annotations that texts can make is made by texts. -/
theorem Scene.Reaches.readable {s : Scene} (hu : ∀ a, s.Uses a → a.Readable) {d : Definition}
    (h : s.Reaches d) : d.Readable := by
  induction h with
  | used h hp => exact ((hu _ h).part hp).definition
  | mentioned _ hx ih => exact ih.mentioned hx

/-! ## Collecting -/

/-- Definitions that texts can make, with all that they mention, and of each name only one. -/
structure Definition.Consistent (P : Definition → Prop) : Prop where
  unique : ∀ d, P d → ∀ e, P e → d.name = e.name → d = e
  readable : ∀ d, P d → d.Readable
  mentioned : ∀ d, P d → ∀ x ∈ d.mentioned, P x

/-- Declared definitions have one definition for each name. -/
theorem Declarations.consistent {ds : List Definition} (h : Declarations ds) :
    Definition.Consistent (· ∈ ds) :=
  ⟨fun _ hd _ he => List.inj_on_of_nodup_map h.named.distinct hd he, fun _ hd => ⟨ds, h, hd⟩,
    fun d hd x hx => (h.mentioned d hd x hx).1⟩

namespace Definition.Consistent

variable {P : Definition → Prop}

/-- Joining such definitions leads to no others. -/
theorem of_joined (hP : Consistent P) {d : Definition} (h : d.Joined P) : P d := by
  induction h with
  | of h => exact h
  | @unify x y z hx hy h ih =>
    obtain rfl := hP.unique x ih y hy (Definition.unify_eq_some_iff.1 h).1
    rwa [Definition.eq_of_unify_self (hP.readable x ih).distinct h]

/-- A collection of what joins from such definitions holds only such. -/
theorem holds (hP : Consistent P) {c : Collection} (h : c.Holds (Joined P)) : c.Holds P :=
  fun e he => ⟨hP.of_joined (h e he).1, (h e he).2⟩

/-- Without NaN no two such definitions clash. -/
theorem not_clash (hP : Consistent P) (hn : ∀ d, P d → d.NaNFree) (name : String) :
    ¬ Clash P name := by
  rintro ⟨d, e, hd, he, hdn, hen, hnone⟩
  obtain rfl := hP.unique d hd e he (hdn.trans hen.symm)
  rw [unify_self (hP.readable d hd).distinct (hn d hd)] at hnone
  cases hnone

end Definition.Consistent

/-! ## Ordering -/

/-- Relinking leaves a type alone when it leads to the definition that the type holds. -/
theorem FieldType.relink_eq_self {definitions : List (String × Definition)} : ∀ {type : FieldType},
    (∀ x, type.annotationType? = some x → Keyed.get? x.name definitions = some x) →
      type.relink definitions = type
  | .nested d, h => by rw [FieldType.relink, h d rfl, Option.getD_some]
  | .array element, h => by
    rw [FieldType.annotationType?] at h
    rw [FieldType.relink, FieldType.relink_eq_self h]
  | .basic _, _ | .classToken, _ | .enum _, _ | .unknownArray, _ => rfl

/-- Relinking to definitions that hold what the fields refer to changes nothing. -/
theorem Definition.relink_eq_self {definitions : List (String × Definition)} {d : Definition}
    (h : ∀ f ∈ d.fields, ∀ x, f.2.annotationType? = some x →
      Keyed.get? x.name definitions = some x) : d.relink definitions = d := by
  have hfields : (d.fields.map fun f => (f.1, f.2.relink definitions)) = d.fields := by
    refine (List.map_congr_left fun f hf => ?_).trans (List.map_id _)
    rw [FieldType.relink_eq_self (h f hf)]
    rfl
  rw [relink, hfields]
  cases d
  rfl

/-- Consistent definitions that have been collected are declared in their final order, and none of
them has changed. -/
theorem Ordered.InOrder.declarations {P : Definition → Prop} (hP : Definition.Consistent P)
    {merged final : List (String × Definition)} (hm : ∀ e ∈ merged, P e.2 ∧ e.2.name = e.1)
    (hn : (Keyed.keys final).Nodup) (h : InOrder merged final) :
    Declarations (final.map (·.2)) ∧ ∀ e ∈ final, P e.2 ∧ e.2.name = e.1 := by
  induction final using List.reverseRecOn with
  | nil => exact ⟨.nil, by simp⟩
  | append_singleton final e ih =>
    rw [Keyed.keys_snoc, List.nodup_append_comm, List.singleton_append, List.nodup_cons] at hn
    obtain ⟨hdecl, hmem⟩ := ih hn.2 fun pre x post hx => h pre x (post ++ [e]) (by simp [hx])
    obtain ⟨d, hget, hrelink, hmentions⟩ := h final e [] rfl
    obtain ⟨hd, hname⟩ := hm _ (Keyed.mem_of_get? hget)
    simp only at hd hname
    -- what the definition mentions is in place under its name, and is the same
    have hplace : ∀ x, P x → x.name ∈ d.mentions → Keyed.get? x.name final = some x := by
      intro x hx hxm
      obtain ⟨y, hy, hyn⟩ := List.mem_map.1 (hmentions _ hxm)
      obtain ⟨hyd, hyname⟩ := hmem y hy
      have hyx : y.2 = x := hP.unique _ hyd _ hx (hyname.trans hyn)
      exact Keyed.get?_of_mem hn.2 (by rwa [← hyn, ← hyx])
    have hself : e.2 = d := by
      rw [hrelink, Definition.relink_eq_self fun f hf x hx => ?_]
      have hxd := hP.mentioned d hd x (Definition.mem_mentioned_iff.2 (.inl ⟨f, hf, hx⟩))
      exact hplace x hxd (Definition.mem_mentions_of_field hf hx)
    refine ⟨?_, fun x hx => ?_⟩
    · rw [List.map_append, List.map_singleton, hself]
      refine hdecl.snoc ((hP.readable d hd).declared hdecl (fun hmem' => ?_) fun x hx hxm => ?_)
      · rw [List.map_map] at hmem'
        obtain ⟨y, hy, hyn⟩ := List.mem_map.1 hmem'
        exact hn.1 (List.mem_map.2 ⟨y, hy, (hmem y hy).2.symm.trans (hyn.trans hname)⟩)
      · exact List.mem_map.2 ⟨_, Keyed.mem_of_get? (hplace x (hP.mentioned d hd x hx) hxm), rfl⟩
    · rcases List.mem_append.1 hx with hx | hx
      · exact hmem x hx
      · rw [List.mem_singleton.1 hx, hself]
        exact ⟨hd, hname⟩

/-! ## Definitions of a scene -/

namespace Scene

variable {s : Scene} {ds : List Definition}

/-- Only declared definitions are reached from annotations of such types. -/
theorem Reaches.mem (hds : Declarations ds) (hu : ∀ a, s.Uses a → a.Typed ds) {d : Definition}
    (h : s.Reaches d) : d ∈ ds := by
  induction h with
  | used h hp => exact ((hu _ h).part hp).mem
  | mentioned _ hx ih => exact (hds.mentioned _ ih _ hx).1

/-- The definitions that are reached are consistent when annotations are of types that texts make,
one for each name. -/
theorem consistent_of_unique (hu : ∀ a, s.Uses a → a.Readable)
    (h : ∀ d, s.Reaches d → ∀ e, s.Reaches e → d.name = e.name → d = e) :
    Definition.Consistent s.Reaches :=
  ⟨h, fun _ hd => hd.readable hu, fun _ hd _ hx => hd.mentioned hx⟩

/-- Where there is one definition for each name, mentions are acyclic, because a definition is
larger than what it mentions. -/
theorem acyclic_of_unique
    (h : ∀ d, s.Reaches d → ∀ e, s.Reaches e → d.name = e.name → d = e) : s.Acyclic := by
  have hlt : ∀ {n m}, Relation.TransGen s.Mentions n m → ∃ d, s.Reaches d ∧ d.name = n ∧
      ∃ e, s.Reaches e ∧ e.name = m ∧ sizeOf e < sizeOf d := by
    intro n m hm
    induction hm with
    | single hm =>
      obtain ⟨d, hd, hn, x, hx, hxn⟩ := hm
      exact ⟨d, hd, hn, x, hd.mentioned hx, hxn, Definition.sizeOf_lt_of_mem_mentioned hx⟩
    | tail _ hm ih =>
      obtain ⟨d, hd, hn, e, he, hen, hlt⟩ := ih
      obtain ⟨e', he', hen', x, hx, hxn⟩ := hm
      obtain rfl := h e he e' he' (hen.trans hen'.symm)
      exact ⟨d, hd, hn, x, he.mentioned hx, hxn,
        (Definition.sizeOf_lt_of_mem_mentioned hx).trans hlt⟩
  intro n hn
  obtain ⟨d, hd, hdn, e, he, hen, hsize⟩ := hlt hn
  rw [h d hd e he (hdn.trans hen.symm)] at hsize
  exact Nat.lt_irrefl _ hsize

/-- **The definitions of a scene are declared** when its annotations are of types that texts make,
one for each name: if they can be collected, they are the ones that are reached. -/
theorem declared_of_definitions (hu : ∀ a, s.Uses a → a.Readable)
    (h : ∀ d, s.Reaches d → ∀ e, s.Reaches e → d.name = e.name → d = e) {used : List Definition}
    (hused : s.definitions = .ok used) :
    Declarations used ∧ ∀ d, d ∈ used ↔ s.Reaches d := by
  have hP := consistent_of_unique hu h
  have haccounted := s.accounted_collectAll
  have hok := hused
  rw [definitions] at hok
  split at hok
  · cases hok
  next c hc =>
  obtain ⟨final, hfinal, hcollected⟩ :=
    collected_of_collectAll (fun a ha => (hu a ha).distinct) (acyclic_of_unique h) hc
  rw [hc] at haccounted
  obtain ⟨hdecl, hmem⟩ := hcollected.inOrder.declarations hP (hP.holds haccounted) hcollected.nodup
  obtain rfl : used = final.map (·.2) := Except.ok.inj (hused.symm.trans hfinal)
  refine ⟨hdecl, fun d => ⟨fun hd => ?_, fun hd => ?_⟩⟩
  · obtain ⟨e, he, rfl⟩ := List.mem_map.1 hd
    exact (hmem e he).1
  · obtain ⟨e, he, hen⟩ := List.mem_map.1 ((hcollected.mem_keys_iff d.name).2 ⟨d, hd, rfl⟩)
    obtain ⟨hed, hename⟩ := hmem e he
    exact List.mem_map.2 ⟨e, he, h _ hed _ hd (hename.trans hen)⟩

/-- **The definitions of a scene that uses declared definitions are declared**, without NaN in the
annotations on its types: they can be collected, and they are the ones that are reached. -/
theorem declared_of_uses (hds : Declarations ds) (hu : ∀ a, s.Uses a → a.Typed ds)
    (hn : ∀ d, s.Reaches d → ∀ a ∈ d.metas, a.NaNFree) :
    ∃ used, s.definitions = .ok used ∧ Declarations used ∧ ∀ d, d ∈ used ↔ s.Reaches d := by
  have hr : ∀ a, s.Uses a → a.Readable := fun a ha => ⟨ds, hds, hu a ha⟩
  have hunique : ∀ d, s.Reaches d → ∀ e, s.Reaches e → d.name = e.name → d = e :=
    fun d hd e he => hds.consistent.unique d (hd.mem hds hu) e (he.mem hds hu)
  cases h : s.definitions with
  | ok used =>
    obtain ⟨hdecl, hreach⟩ := declared_of_definitions hr hunique h
    exact ⟨used, rfl, hdecl, hreach⟩
  | error e =>
    exact absurd (exists_of_conflict h)
      ((consistent_of_unique hr hunique).not_clash (Reaches.naNFree hn) e.name)

end Scene

end AnnotationIndex
