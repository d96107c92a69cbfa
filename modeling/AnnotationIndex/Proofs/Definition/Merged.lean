import AnnotationIndex.Proofs.Definition.Relink

/-!
# Definitions from several texts

A scene that several texts have been read into uses types that each text knows by definitions of its
own. What unifies from such definitions can be declared once what it mentions has been
(`Definition.Declarable`). The main statement is `Scene.Collected.declares`: the collected
definitions of an acyclic scene have the lines of declared definitions, which everything that the
scene reaches fits.
-/

namespace AnnotationIndex

/-! ## What can be declared -/

/-- Two declared types of single values unify to one. -/
theorem FieldType.Scalar.unify {ds ds' : List Definition} {x y z : FieldType} (hx : x.Scalar ds)
    (hy : y.Scalar ds') (h : x.unify y = some z) : ∃ es, z.Scalar es := by
  cases x with
  | basic | enum =>
    cases y <;> simp only [FieldType.unify, reduceCtorEq, Option.ite_none_right_eq_some] at h
    cases h.2
    exact ⟨ds, hx⟩
  | classToken =>
    cases y <;> simp only [FieldType.unify, reduceCtorEq] at h
    cases h
    exact ⟨ds, hx⟩
  | nested d =>
    cases y <;> simp only [FieldType.unify, reduceCtorEq] at h
    obtain ⟨e, -, rfl⟩ := Option.map_eq_some_iff.1 h
    exact ⟨[e], List.mem_singleton_self e⟩
  | array | unknownArray => exact hx.elim

/-- What two declared types have together can be declared. -/
theorem FieldType.Declared.unify {ds ds' : List Definition} {x y z : FieldType}
    (hx : x.Declared ds) (hy : y.Declared ds') (h : x.unify y = some z) : ∃ es, z.Declared es := by
  cases x with
  | array element =>
    cases y <;> simp only [FieldType.unify, reduceCtorEq] at h
    · obtain ⟨e, he, rfl⟩ := Option.map_eq_some_iff.1 h
      exact FieldType.Scalar.unify hx hy he
    · cases h
      exact ⟨ds, hx⟩
  | unknownArray =>
    cases y <;> simp only [FieldType.unify, reduceCtorEq] at h <;> cases h
    · exact ⟨ds', hy⟩
    · exact ⟨[], trivial⟩
  | basic | classToken | enum | nested =>
    have hy : y.Scalar ds' := by
      cases y <;> simp only [FieldType.unify, reduceCtorEq] at h
      exact hy
    obtain ⟨es, hz⟩ : ∃ es, z.Scalar es := by
      refine @FieldType.Scalar.unify ds ds' _ y z ?_ hy h
      exact hx
    exact ⟨es, Reader.declared_of_scalar hz⟩

/-- A declared type can be declared over a list that has its definition. -/
theorem FieldType.Declared.relink {ds : List Definition} {definitions : List (String × Definition)}
    {type : FieldType} (h : type.Declared ds)
    (hx : ∀ x, type.annotationType? = some x → x.name ∈ Keyed.keys definitions) :
    (type.relink definitions).Declared (definitions.map (·.2)) := by
  have hmem : ∀ d : Definition, d.name ∈ Keyed.keys definitions →
      (Keyed.get? d.name definitions).getD d ∈ definitions.map (·.2) := by
    intro d hd
    obtain ⟨e, he⟩ := Option.isSome_iff_exists.1 (Keyed.get?_isSome_iff.2 hd)
    rw [he, Option.getD_some]
    exact List.mem_map_of_mem (f := (·.2)) (Keyed.mem_of_get? he)
  cases type with
  | basic | classToken | enum | unknownArray => exact h
  | nested d => exact hmem d (hx d rfl)
  | array element =>
    cases element with
    | basic | classToken | enum => exact h
    | nested d => exact hmem d (hx d rfl)
    | array | unknownArray => exact h.elim

/-- The definition can be declared after definitions that everything which it mentions fits. -/
structure Definition.Declarable (d : Definition) : Prop where
  named : ∃ p b, IsPackageName p ∧ IsIdentifier b ∧ d.name = qualify p b
  fieldNames : (Keyed.keys d.fields).Nodup
  fields : ∀ f ∈ d.fields, (∃ ds, f.2.Declared ds) ∧ IsIdentifier f.1
  metaNames : (d.metas.map (·.name)).Nodup
  metas : ∀ a ∈ d.metas, a.Readable ∧ a.definition.isTopLevel = true

namespace Definition

/-- A definition that some text makes can be declared. -/
theorem Readable.declarable {d : Definition} (h : d.Readable) : d.Declarable := by
  obtain ⟨ds, hds, hd⟩ := h
  obtain ⟨pre, hpre, hdecl⟩ := hds.declared d hd
  exact ⟨hdecl.named, hdecl.fieldNames,
    fun f hf => ⟨⟨pre, (hdecl.fields f hf).1⟩, (hdecl.fields f hf).2⟩,
    hdecl.metaNames, fun a ha => ⟨⟨ds, hds, (hdecl.metas a ha).1.mono hpre⟩, (hdecl.metas a ha).2⟩⟩

/-- What two definitions that can be declared unify to can be declared. -/
theorem Declarable.unify {x y z : Definition} (hx : x.Declarable) (hy : y.Declarable)
    (h : x.unify y = some z) : z.Declarable := by
  obtain ⟨-, -, -, -, hf, hname, hmetas⟩ := unify_eq_some_iff.1 h
  refine ⟨hname ▸ hx.named, ?_, fun f hz => ?_, hmetas ▸ hx.metaNames, hmetas ▸ hx.metas⟩
  · rw [FieldType.keys_unifyFields hf]
    exact hx.fieldNames
  · obtain ⟨_, hg, _, hg', hu⟩ := FieldType.mem_unifyFields hf f hz
    obtain ⟨⟨ds, hdecl⟩, hi⟩ := hx.fields _ hg
    obtain ⟨⟨ds', hdecl'⟩, -⟩ := hy.fields _ (Keyed.mem_of_get? hg')
    exact ⟨hdecl.unify hdecl' hu, hi⟩

/-- What unifies from definitions that texts make can be declared. -/
theorem Joined.declarable {P : Definition → Prop} (hP : ∀ x, P x → x.Readable) {d : Definition}
    (h : d.Joined P) : d.Declarable := by
  induction h with
  | of h => exact (hP _ h).declarable
  | unify _ hy h ih => exact ih.unify (hP _ hy).declarable h

/-- A definition that can be declared is declared, once it has been relinked, after a list that has
what it mentions. -/
theorem Declarable.declared_relinkAll {definitions : List (String × Definition)} {d : Definition}
    (h : d.Declarable) (hl : Linked definitions) (hnew : d.name ∉ Keyed.keys definitions)
    (hm : ∀ n ∈ d.mentions, n ∈ Keyed.keys definitions)
    (hfit : ∀ a ∈ d.metas, FitAll definitions a.parts)
    (htop : ∀ a ∈ d.metas, ∀ e, Keyed.get? a.definition.name definitions = some e →
      e.isTopLevel = true) :
    (d.relinkAll definitions).Declared (definitions.map (·.2)) := by
  have hmapped : (definitions.map (·.2)).map (·.name) = Keyed.keys definitions := by
    rw [List.map_map]
    exact List.map_congr_left hl.named
  have hget : ∀ a ∈ d.metas, ∃ e, Keyed.get? a.definition.name definitions = some e := fun a ha =>
    Option.isSome_iff_exists.1 (Keyed.get?_isSome_iff.2
      (hm _ (List.mem_append_right _ (List.mem_map_of_mem (f := (·.name)) ha))))
  refine ⟨h.named, by rwa [hmapped], ?_, fun f hf => ?_, ?_, fun a ha => ?_⟩
  · simpa [relinkAll, relink, Keyed.keys, Function.comp_def] using h.fieldNames
  · obtain ⟨g, hg, rfl⟩ := List.mem_map.1 hf
    obtain ⟨⟨ds, hdecl⟩, hi⟩ := h.fields g hg
    exact ⟨hdecl.relink fun x hx => hm _ (mem_mentions_of_field hg hx), hi⟩
  · have hnames : (d.relinkAll definitions).metas.map (·.name) = d.metas.map (·.name) := by
      rw [relinkAll, List.map_map]
      exact List.map_congr_left fun a _ => Annotation.name_relink hl.named a
    rw [hnames]
    exact h.metaNames
  · obtain ⟨b, hb, rfl⟩ := List.mem_map.1 ha
    obtain ⟨⟨ds, -, htyped⟩, -⟩ := h.metas b hb
    obtain ⟨e, he⟩ := hget b hb
    refine ⟨htyped.relink hl (hfit b hb) he, ?_⟩
    rw [b.definition_relink, he, Option.getD_some]
    exact htop b hb e he

end Definition

/-! ## Collected definitions are declared -/

/-- In declared definitions, each under its name, fields refer to what is found under its name. -/
theorem Declarations.linked {definitions : List (String × Definition)}
    (h : Declarations (definitions.map (·.2))) (hn : Keyed.Named definitions) :
    Linked definitions := by
  have hmapped : (definitions.map (·.2)).map (·.name) = Keyed.keys definitions := by
    rw [List.map_map]
    exact List.map_congr_left hn
  refine ⟨hn, fun e he f hf x hx => ?_⟩
  have hmem := (h.mentioned e.2 (List.mem_map_of_mem (f := (·.2)) he) x
    (Definition.mem_mentioned_iff.2 (.inl ⟨f, hf, hx⟩))).1
  obtain ⟨e', he', rfl⟩ := List.mem_map.1 hmem
  rw [hn e' he']
  exact Keyed.get?_of_mem (hmapped ▸ h.named.distinct) he'

/-- The definitions of the second list are declared, and stand for those of the first: they have
the same names and lines, and what is collected fits them. -/
structure Collection.Declares (c : Collection) (pre definitions : List (String × Definition)) :
    Prop where
  keys : Keyed.keys definitions = Keyed.keys pre
  declared : Declarations (definitions.map (·.2))
  named : Keyed.Named definitions
  lines : (definitions.map (·.2)).flatMap Definition.lines =
    (pre.map (·.2)).flatMap Definition.lines
  fits : ∀ d, c.Has d → ∀ e, Keyed.get? d.name definitions = some e →
    d.Fits e ∧ (d.isTopLevel = true → e.isTopLevel = true)

namespace Collection.Declares

variable {s : Scene} {c : Collection} {pre definitions : List (String × Definition)}

/-- No definitions stand for none. -/
theorem nil (c : Collection) : c.Declares [] [] := ⟨rfl, .nil, nofun, rfl, nofun⟩

/-- What a collected definition mentions fits the declared definitions of its names. -/
theorem fitAll (h : c.Declares pre definitions) (hs : c.Sound s) {e : String × Definition}
    (he : e ∈ c.merged) : ∀ a ∈ e.2.metas, FitAll definitions a.parts := by
  intro a ha p hp x hx
  have hinside := (hs.closed _ he).inside p.definition
    (Definition.mem_mentioned_iff.2 (.inr ⟨a, ha, p, hp, rfl⟩))
  obtain ⟨known, hknown, hrefines⟩ := hinside.self
  rw [hrefines.name] at hx
  exact hrefines.toFits.trans (h.fits known (hs.grows _ (Keyed.mem_of_get? hknown)) x hx).1

/-- The definition after the first list is declared, relinked, after the second. -/
theorem snoc (h : c.Declares pre definitions) (hs : c.Sound s)
    (hr : ∀ d, s.Reaches d → d.Readable) (hpre : Keyed.Named pre) {e : String × Definition}
    {d : Definition} (hnew : e.1 ∉ Keyed.keys pre) (hget : Keyed.get? e.1 c.merged = some d)
    (hrelink : e.2 = d.relink pre) (hm : ∀ n ∈ d.mentions, n ∈ Keyed.keys pre) :
    c.Declares (pre ++ [e]) (definitions ++ [(e.1, d.relinkAll definitions)]) := by
  have hmem := Keyed.mem_of_get? hget
  have hname : d.name = e.1 := hs.named _ hmem
  have hdeclarable := (hs.joined _ hmem).declarable hr
  have hdeclared : (d.relinkAll definitions).Declared (definitions.map (·.2)) := by
    refine hdeclarable.declared_relinkAll (h.declared.linked h.named) ?_ (h.keys ▸ hm)
      (h.fitAll hs hmem) fun a ha x hx => ?_
    · rwa [hname, h.keys]
    · exact (h.fits _ (hs.metas _ hmem a ha) x hx).2 (hdeclarable.metas a ha).2
  refine ⟨?_, ?_, List.forall_mem_append.2 ⟨h.named, fun x hx => ?_⟩, ?_, fun x hx y hy => ?_⟩
  · have hkeys := h.keys
    simp only [Keyed.keys, List.map_append] at hkeys ⊢
    rw [hkeys]
    rfl
  · rw [List.map_append]
    exact h.declared.snoc hdeclared
  · rw [List.mem_singleton.1 hx]
    exact hname
  · rw [List.map_append, List.map_append, List.flatMap_append, List.flatMap_append, h.lines]
    simp only [List.map_singleton, List.flatMap_singleton, hrelink, d.lines_relinkAll h.named,
      d.lines_relink hpre]
  · rw [Keyed.get?_append] at hy
    rcases Option.or_eq_some_iff.1 hy with hy | ⟨-, hy⟩
    · exact h.fits x hx y hy
    · obtain ⟨hxe, rfl⟩ : x.name = e.1 ∧ d.relinkAll definitions = y := by
        simpa [Keyed.get?, eq_comm] using hy
      obtain ⟨known, hknown, hrefines, hretains⟩ := hx
      rw [hxe] at hknown
      cases hget.symm.trans hknown
      exact ⟨hrefines.toFits.trans (d.fits_relinkAll h.named), hretains.isTopLevel⟩

end Collection.Declares

/-- **The collected definitions are declared** once they have been relinked one after the other. -/
theorem Scene.Collected.declares {s : Scene} {c : Collection} {final : List (String × Definition)}
    (h : s.Collected c final) (hr : ∀ d, s.Reaches d → d.Readable) :
    ∃ definitions, c.Declares final definitions := by
  have hprefix : ∀ pre post, final = pre ++ post → ∃ definitions, c.Declares pre definitions := by
    intro pre
    induction pre using List.reverseRecOn with
    | nil => exact fun _ _ => ⟨[], .nil c⟩
    | append_singleton pre e ih =>
      intro post hfinal
      rw [List.append_assoc, List.singleton_append] at hfinal
      obtain ⟨definitions, hdeclares⟩ := ih (e :: post) hfinal
      obtain ⟨d, hget, hrelink, hm⟩ := h.inOrder pre e post hfinal
      have hnew : e.1 ∉ Keyed.keys pre := by
        have hnodup := h.nodup
        rw [hfinal, Keyed.keys, List.map_append, List.nodup_append_comm] at hnodup
        exact fun hmem => (List.nodup_cons.1 hnodup).1 (List.mem_append_right _ hmem)
      exact ⟨_, hdeclares.snoc h.sound hr
        (fun x hx => h.named x (hfinal ▸ List.mem_append_left _ hx)) hnew hget hrelink hm⟩
  exact hprefix final [] (List.append_nil final).symm

end AnnotationIndex
