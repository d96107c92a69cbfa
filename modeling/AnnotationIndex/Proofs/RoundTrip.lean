import AnnotationIndex.Proofs.Definition.Declared
import AnnotationIndex.Proofs.Reading

/-!
# Writing and reading again

A scene that a text describes can be written, in any layout, and the text that is written describes
an equal scene (`Scene.render_ofText`), up to what is not annotated. Two things are excluded: a NaN,
which differs from itself, and a method key with the start of a comment in it.
-/

namespace AnnotationIndex.Scene

/-- No number in the annotations of the scene is NaN, nor one in the annotations on the types that
it uses. -/
structure NaNFree (s : Scene) : Prop where
  annotations : ∀ path e, s.at? path = some e → ∀ a ∈ e.annotations, a.NaNFree
  metas : ∀ d, s.Reaches d → ∀ a ∈ d.metas, a.NaNFree

variable {s : Scene} {ds : List Definition}

/-- In a scene without NaN the annotations on elements are without NaN. -/
theorem NaNFree.of_label (h : s.NaNFree) {path : Path} {a : Annotation}
    (ha : a ∈ (s.root.labelAt path).annotations) : a.NaNFree := by
  rw [Element.labelAt] at ha
  split at ha
  · next e he => exact h.annotations path e he a ha
  · cases ha

/-- Every annotation of a sound scene without NaN equals itself. -/
theorem Sound.beq_self (hds : Declarations ds) (h : s.Sound <| Annotation.Typed ds)
    (hn : s.NaNFree) {path : Path}
    {a : Annotation} (ha : a ∈ (s.root.labelAt path).annotations) : a.beq a = true := by
  have htyped := (h.marks path a ha).2.2.1
  refine Annotation.beq_self (htyped.distinct hds.distinct) (hn.of_label ha) fun p hp => ?_
  exact Definition.beq_self (hds.distinct _ (htyped.part hp).mem)
    (Reaches.naNFree hn.metas _ (.used (h.uses ha) hp))

/-- **A sound scene is written and read back**, without NaN in the annotations on its types and
without the start of a comment in a method key: its definitions are those that are reached, and the
scene that is read has its labels once it is pruned, and its slots in the order of the text. -/
theorem Sound.exists_reread (hds : Declarations ds) (h : s.Sound <| Annotation.Typed ds)
    (hn : ∀ d, s.Reaches d → ∀ a ∈ d.metas, a.NaNFree) (hc : s.NoComment) (layout : Layout) :
    ∃ used t, s.definitions = .ok used ∧ (used.Nodup ∧ ∀ d, d ∈ used ↔ s.Reaches d) ∧
      s.prune.Writable used ∧ ofText (layout.text (s.lines used)) = .ok t ∧
      (∀ path, t.root.labelAt path = s.prune.root.labelAt path) ∧
      ∀ path, t.root.slotsAt .scene path =
        meetAll (Kind.scene.after path).filled (s.prune.said.next path) := by
  obtain ⟨used, hused, hdecl, hreach⟩ := declared_of_uses hds (fun a ha => h.of_uses ha) hn
  have htyped : ∀ path, ∀ a ∈ (s.root.labelAt path).annotations, a.Typed used := fun path a ha =>
    (h.marks path a ha).2.2.1.transfer (hds.shared hdecl)
      ((hreach _).2 (.used (h.uses ha) a.mem_parts_self))
  have hannotations : ∀ path, (s.prune.root.labelAt path).annotations =
      (s.root.labelAt path).annotations := Element.annotations_labelAt_prune h.shaped
  have hwritable := h.writable_prune hc htyped
  obtain ⟨t, ht, hlabels, hslots⟩ := ofText_text layout hdecl hwritable fun path => by
    rw [hannotations]
    exact h.names path
  exact ⟨used, t, hused, ⟨List.Nodup.of_map _ hdecl.named.distinct, hreach⟩, hwritable, ht, hlabels,
    hslots⟩

/-- **What is written is read back.** Every scene that a text describes, without NaN and without the
start of a comment in a method key, can be written in any layout. What is written describes a scene
that equals it once both are pruned. -/
theorem render_ofText (text : String) (s : Scene) (h : ofText text = .ok s) (hn : s.NaNFree)
    (hc : s.NoComment) (layout : Layout) :
    ∃ written t, s.render layout = .ok written ∧ ofText written = .ok t ∧
      t.prune.beq s.prune = true := by
  obtain ⟨ds, hds, hsound⟩ := sound_of_ofText h
  obtain ⟨used, t, hused, -, -, ht, hlabels, -⟩ := hsound.exists_reread hds hn.metas hc layout
  refine ⟨layout.text (s.lines used), t, by rw [render, hused], ht, ?_⟩
  have hannotations : ∀ path, (s.prune.root.labelAt path).annotations =
      (s.root.labelAt path).annotations := Element.annotations_labelAt_prune hsound.shaped
  obtain ⟨ds', -, hsound'⟩ := sound_of_ofText ht
  refine Element.beq_prune hsound'.shaped hsound.shaped hlabels fun path => ?_
  rw [hlabels, hannotations]
  exact AnnotationSet.beq_self fun a ha => hsound.beq_self hds hn ha

/-! ## A class with a number in its annotation -/

/-- A scene in which nothing is annotated but one class. -/
def annotatedClass (name : String) (a : Annotation) : Scene :=
  ⟨⟨[], none, [(.typeDecl name, ⟨[a], none, []⟩)]⟩, []⟩

/-- The scene has two elements: its root, which is blank, and the class with the annotation. -/
theorem annotatedClass_at? {name : String} {a : Annotation} {path : Path} {e : Element}
    (h : (annotatedClass name a).at? path = some e) :
    path = [] ∧ e.annotations = [] ∨ path = [.typeDecl name] ∧ e.annotations = [a] := by
  cases path with
  | nil =>
    cases h
    exact .inl ⟨rfl, rfl⟩
  | cons slot rest =>
    rw [at?, Element.at?_cons, Option.bind_eq_some_iff] at h
    obtain ⟨child, hchild, h⟩ := h
    cases List.mem_singleton.1 (Keyed.mem_of_get? hchild)
    cases rest with
    | nil =>
      cases h
      exact .inr ⟨rfl, rfl⟩
    | cons inner rest => cases h

/-- Where the type of the only annotation mentions no other, it is the only one reached. -/
theorem annotatedClass_reaches {name : String} {a : Annotation} {d : Definition}
    (hparts : a.parts = [a]) (hmentioned : a.definition.mentioned = [])
    (h : (annotatedClass name a).Reaches d) : d = a.definition := by
  induction h with
  | used hu hp =>
    cases List.mem_singleton.1 (mem_uses_iff.2 hu)
    rw [hparts] at hp
    cases List.mem_singleton.1 hp
    rfl
  | mentioned hd hx ih =>
    rw [ih, hmentioned] at hx
    cases hx

/-- What was read is one class with one annotation, which gives its only field a number. Scenes are
told apart by such a pattern: their equality does not distinguish the two zeros. -/
def isNumbered : Except ReadError Scene → Bool
  | .ok ⟨⟨[], none, [(.typeDecl _,
      ⟨[⟨⟨_, _, [(_, .basic _)], []⟩, [(_, .floating _ (.finite ..))]⟩], none, []⟩)]⟩, []⟩ => true
  | _ => false

/-- A class whose annotation holds a number is read back. -/
theorem render_ofText_annotatedClass :
    let text := "package: annotation visible @Rate: float value class C: @Rate(value=0.5)"
    ∃ s, ofText text = .ok s ∧ s.NaNFree ∧ s.NoComment ∧ ∀ layout,
      ∃ written t, s.render layout = .ok written ∧ ofText written = .ok t ∧
        t.prune.beq s.prune = true := by
  intro text
  have hshape : isNumbered (ofText text) = true := by decide +kernel
  unfold isNumbered at hshape
  split at hshape
  · next name type retention field kind given width sign significand exponent canonical hread =>
    let a : Annotation := ⟨⟨type, retention, [(field, .basic kind)], []⟩,
      [(given, .floating width (.finite sign significand exponent canonical))]⟩
    have hn : (annotatedClass name a).NaNFree := by
      refine ⟨fun path e he b hb => ?_, fun d hd b hb => ?_⟩
      · obtain ⟨-, he⟩ | ⟨-, he⟩ := annotatedClass_at? he
        · rw [he] at hb
          cases hb
        · rw [he, List.mem_singleton] at hb
          rw [hb]
          exact ⟨fun hc => (by cases hc), trivial⟩
      · rw [annotatedClass_reaches rfl rfl hd] at hb
        cases hb
    have hc : (annotatedClass name a).NoComment :=
      noComment_of_leaves (by simp [annotatedClass, Slot.NoComment])
    exact ⟨annotatedClass name a, hread, hn, hc, render_ofText text _ hread hn hc⟩
  · cases hshape

end AnnotationIndex.Scene
