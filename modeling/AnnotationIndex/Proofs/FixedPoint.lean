import AnnotationIndex.Proofs.Definition.Completeness
import AnnotationIndex.Proofs.Printed
import AnnotationIndex.Proofs.RoundTrip

/-!
# Writing what is read again

Reading what was written may change the order of packages and classes, and with it the order in
which definitions are collected. It does so once: from then on the order is that of the text, so
that writing and reading give the same text again (`Scene.render_fixedPoint`).
-/

namespace AnnotationIndex

namespace Scene

variable {s t : Scene} {ds : List Definition}

/-- What is written of a scene depends on its tree only. -/
theorem render_congr (h : t.root = s.root) (layout : Layout) :
    t.render layout = s.render layout := by
  obtain ⟨root, imports⟩ := s
  obtain ⟨_, imports'⟩ := t
  cases h
  rfl

/-- A scene that has the labels of a sound one is sound, if it has the shape. -/
theorem Sound.of_labels {T : Annotation → Prop} (h : s.Sound T) (ht : t.Shaped)
    (hl : ∀ path, t.root.labelAt path = s.prune.root.labelAt path) :
    t.Sound T ∧ ∀ a, t.Uses a ↔ s.Uses a := by
  have hannotations : ∀ path, (t.root.labelAt path).annotations =
      (s.root.labelAt path).annotations := fun path => by
    rw [hl]
    exact Element.annotations_labelAt_prune h.shaped path
  refine ⟨⟨ht, ?_, ?_, fun path type htype => ?_⟩, fun a => ?_⟩
  · simpa only [hannotations] using h.marks
  · simpa only [hannotations] using h.names
  · rw [hl] at htype
    rcases Element.labelAt_prune_cases h.shaped path with hp | ⟨hp, -⟩
    · exact h.casts path type (hp ▸ htype)
    · rw [show s.prune.root.labelAt path = .blank from hp] at htype
      cases htype
  · rw [ht.uses_iff, h.shaped.uses_iff]
    simp only [hannotations]

/-- **Writing and reading again comes to an end after one step.** Of a scene that a text describes,
without NaN and without the start of a comment in a method key, a text can be written that can be
read, and so can of what is read; from the second text on, it is the same text. The first text and
the second consist of the same definitions, perhaps in another order, and of the same packages and
classes. -/
theorem render_fixedPoint (text : String) (s : Scene) (h : ofText text = .ok s) (hn : s.NaNFree)
    (hc : s.NoComment) (layout : Layout) :
    ∃ first t second u, s.render layout = .ok first ∧ ofText first = .ok t ∧
      t.render layout = .ok second ∧ ofText second = .ok u ∧ u.render layout = .ok second ∧
      ∃ blocks blocks', s.definitions = .ok blocks ∧ t.definitions = .ok blocks' ∧
        blocks'.Perm blocks ∧
        first = layout.text (blocks.flatMap Definition.lines) ++
          layout.text s.prune.declarationLines ∧
        second = layout.text (blocks'.flatMap Definition.lines) ++
          layout.text s.prune.declarationLines := by
  obtain ⟨ds, hds, hsound⟩ := sound_of_ofText h
  obtain ⟨used, t, hused, ⟨hnodup, hreach⟩, hw, ht, hlabels, hslots⟩ :=
    hsound.exists_reread hds hn.metas hc layout
  have hshaped : t.Shaped := (sound_of_ofText ht).choose_spec.2.shaped
  have hpshaped : s.prune.Shaped := Element.Shaped.prune hsound.shaped
  have hpruned : s.prune.root.prune = s.prune.root := Element.prune_prune _
  have hrelisted := relisted_of_said hw.placed hpshaped hpruned hlabels hslots
  -- what is read is pruned already, and written in the same order
  have hself : t.prune = t := by
    rw [prune, hrelisted.prune_eq hw.placed hshaped hpshaped hpruned]
  have hlines : t.prune.declarationLines = s.prune.declarationLines := by
    rw [hself, hrelisted.declarationLines_eq hw.placed hshaped hpshaped]
  have hsaid : t.prune.said = s.prune.said := by
    rw [hself, hrelisted.said_eq hw.placed hshaped hpshaped]
  obtain ⟨htsound, huses⟩ := hsound.of_labels hshaped hlabels
  have htc : t.NoComment := fun path e he => by
    obtain ⟨c, hc'⟩ := hrelisted.exists_at? hw.placed he
    obtain ⟨d, hd⟩ := Element.exists_of_at?_prune hsound.shaped hc'
    exact hc path d hd
  have hreaches : ∀ d, t.Reaches d ↔ s.Reaches d := fun d =>
    ⟨fun hd => hd.of_uses fun a => (huses a).1, fun hd => hd.of_uses fun a => (huses a).2⟩
  obtain ⟨used', u, hused', ⟨hnodup', hreach'⟩, -, hu, hlabels', hslots'⟩ :=
    htsound.exists_reread hds (fun d hd => hn.metas d ((hreaches d).1 hd)) htc layout
  have hroot : u.root = t.root := by
    refine Element.eq_of_slotsAt (sound_of_ofText hu).choose_spec.2.shaped hshaped (fun path => ?_)
      fun path => ?_
    · rw [hlabels', hself]
    · rw [hslots', hslots, hsaid]
  have hrender : t.render layout = .ok (layout.text (t.lines used')) := by rw [render, hused']
  refine ⟨_, t, _, u, by rw [render, hused], ht, hrender, hu,
    (render_congr hroot layout).trans hrender, used, used', hused, hused', ?_, ?_, ?_⟩
  · exact (List.perm_ext_iff_of_nodup hnodup' hnodup).2 fun d => by
      rw [hreach, hreach', hreaches]
  · rw [lines, layout.text_append]
  · rw [lines, layout.text_append, hlines]

/-! ## Interleaved packages -/

namespace interleaved

/-- An annotation of a type without fields. -/
def mark (name : String) : Annotation := ⟨⟨name, some .runtime, [], []⟩, []⟩

/-- Two classes of one package, with a class of another package between them. -/
def scene : Scene :=
  ⟨⟨[], none, [(.typeDecl "p.C", ⟨[mark "X"], none, []⟩),
    (.typeDecl "q.D", ⟨[mark "Y"], none, []⟩), (.typeDecl "p.E", ⟨[mark "Z"], none, []⟩)]⟩, []⟩

/-- The text of the scene, which begins the first package twice. -/
def text : String :=
  "package: annotation visible @X: annotation visible @Y: annotation visible @Z: " ++
    "package p: class C: @X package q: class D: @Y package p: class E: @Z"

set_option maxRecDepth 10000 in
/-- The text describes the scene. -/
theorem ofText_scene : ofText text = .ok scene := by
  with_unfolding_all rfl

/-- No annotation of the scene holds a NaN. -/
theorem naNFree_scene : scene.NaNFree := by
  have huses : ∀ a, scene.Uses a → a ∈ [mark "X", mark "Y", mark "Z"] := fun a ha =>
    mem_uses_iff.2 ha
  obtain ⟨ds, -, hsound⟩ := sound_of_ofText ofText_scene
  refine ⟨fun path e he a ha => ?_, fun d hd a ha => ?_⟩
  · have hlabel : a ∈ (scene.root.labelAt path).annotations := by
      rw [Element.labelAt, show scene.root.at? path = some e from he]
      exact ha
    have hmem := huses a (hsound.uses hlabel)
    simp only [List.mem_cons, List.not_mem_nil, or_false] at hmem
    rcases hmem with rfl | rfl | rfl <;> simp [mark, Annotation.NaNFree, Value.NamedNaNFree]
  · have hmem : d ∈ [(mark "X").definition, (mark "Y").definition, (mark "Z").definition] :=
      hd.mem_of_closed (by
        rw [show scene.root.uses .scene = [mark "X", mark "Y", mark "Z"] from rfl]
        simp [mark, Annotation.parts, Value.partsNamed]) (by simp [mark, Definition.mentioned])
    simp only [List.mem_cons, List.not_mem_nil, or_false] at hmem
    rcases hmem with rfl | rfl | rfl <;> cases ha

end interleaved

/-- Where the classes of a package are apart, the first text brings them together. -/
theorem render_fixedPoint_interleaved :
    ofText interleaved.text = .ok interleaved.scene ∧ interleaved.scene.NaNFree ∧
      interleaved.scene.NoComment ∧ ∀ layout,
      ∃ first t second u, interleaved.scene.render layout = .ok first ∧ ofText first = .ok t ∧
        t.render layout = .ok second ∧ ofText second = .ok u ∧ u.render layout = .ok second ∧
        ∃ blocks blocks', interleaved.scene.definitions = .ok blocks ∧
          t.definitions = .ok blocks' ∧ blocks'.Perm blocks ∧
          first = layout.text (blocks.flatMap Definition.lines) ++
            layout.text interleaved.scene.prune.declarationLines ∧
          second = layout.text (blocks'.flatMap Definition.lines) ++
            layout.text interleaved.scene.prune.declarationLines := by
  have hc : interleaved.scene.NoComment :=
    noComment_of_leaves (by simp [interleaved.scene, Slot.NoComment])
  exact ⟨interleaved.ofText_scene, interleaved.naNFree_scene, hc,
    render_fixedPoint _ _ interleaved.ofText_scene interleaved.naNFree_scene hc⟩

end Scene

end AnnotationIndex
