import AnnotationIndex.Proofs.Element.Prune

/-!
# Pruning keeps what is annotated

`Element.sweep` prunes in one pass: each element tells whether it is empty, and its owner decides on
that whether it stays. `Element.sweep_eq` separates the two answers. `Element.Swept` says of them,
in terms of positions alone, that just what is annotated has been kept, and that is so of elements
of every kind and of scenes (`Scene.sweep_keeps_annotated`). Which empty elements were there before
does not matter: scenes with equal annotations are equal once they are pruned.
-/

namespace AnnotationIndex

namespace Element

/-! ## One pass -/

/-- Children are swept to what pruning leaves when each of them is. -/
theorem sweepAll_eq {cs : List (Slot × Element)}
    (h : ∀ c ∈ cs, c.2.sweep = (c.2.prune, !c.2.isAnnotated)) :
    sweepAll cs = (pruneAll cs, !anyAnnotated cs) := by
  induction cs with
  | nil => rfl
  | cons c cs ih =>
    obtain ⟨hc, hcs⟩ := List.forall_mem_cons.1 h
    rw [sweepAll, pruneAll, anyAnnotated, hc, ih hcs]
    cases c.1.isOwned <;> cases c.2.isAnnotated <;> rfl

/-- An element is swept to what pruning leaves, and is empty unless it is annotated. -/
theorem sweep_eq (e : Element) : e.sweep = (e.prune, !e.isAnnotated) := by
  induction e using induct with
  | h e ih =>
    obtain ⟨as, type, cs⟩ := e
    rw [sweep, prune, isAnnotated, sweepAll_eq ih, Bool.not_or, Bool.not_not, Bool.and_comm]

/-! ## What is kept -/

/-- What pruning an element has to leave, and whether it has to find it empty. -/
structure Swept (e kept : Element) (empty : Bool) : Prop where
  /-- Every annotation stays at its position, in the set that it is in. -/
  annotations (path : Path) : (kept.labelAt path).annotations = (e.labelAt path).annotations
  /-- An element that may be absent stays if and only if something in it is annotated. -/
  isSome_at?_iff (path : Path) (slot : Slot) (h : slot.isOwned = false) :
    (kept.at? (path ++ [slot])).isSome ↔ e.AnnotatedBelow (path ++ [slot])
  /-- What stays is what was there, with the same type if it is a cast. It has those slots that are
  always filled, and the other ones in the order in which they were. -/
  survivor (path : Path) (x : Element) (h : kept.at? path = some x) :
    ∃ y, e.at? path = some y ∧ x.castType = y.castType ∧
      (Keyed.keys x.children).Sublist (Keyed.keys y.children) ∧
      ∀ slot ∈ Keyed.keys y.children, slot.isOwned = true → slot ∈ Keyed.keys x.children
  /-- The element is found empty if and only if nothing in it is annotated. -/
  empty_iff : empty = true ↔ ∀ path, (e.labelAt path).annotations = []
  /-- Another pass changes nothing and answers the same. -/
  again : kept.sweep = (kept, empty)

variable {kind : Kind} {e : Element}

/-- An element that may be absent is there after pruning when something at it or below it is
annotated. -/
theorem isSome_at?_prune_iff (h : e.Shaped kind) (path : Path) {slot : Slot}
    (hs : slot.isOwned = false) :
    (e.prune.at? (path ++ [slot])).isSome ↔ e.AnnotatedBelow (path ++ [slot]) := by
  induction path generalizing e kind with
  | nil =>
    have hkeys : slot ∈ Keyed.keys e.prune.children ↔ _ := mem_keys_prune_iff h
    have hfilled : slot ∉ kind.filled := fun hmem => by
      rw [(Kind.mem_filled_iff.1 hmem).2] at hs
      cases hs
    rw [or_iff_right hfilled, ← Keyed.get?_isSome_iff] at hkeys
    refine Iff.trans ?_ hkeys
    rw [List.nil_append, at?_cons, child?]
    cases Keyed.get? slot e.prune.children <;> rfl
  | cons inner path ih =>
    rw [List.cons_append, at?_cons]
    cases hp : e.prune.child? inner with
    | some pruned =>
      obtain ⟨child, hc, rfl⟩ := exists_of_child?_prune h hp
      rw [annotatedBelow_cons_of_some hc]
      exact ih (h.child hc)
    | none => exact iff_of_false (by simp) (not_annotatedBelow_of_child?_prune h hp _)

/-- Pruning keeps the slots that stay in their order. -/
theorem keys_prune_sublist (e : Element) :
    (Keyed.keys e.prune.children).Sublist (Keyed.keys e.children) := by
  rw [children_prune, Keyed.keys, List.map_map]
  exact List.filter_sublist.map _

/-- A pass leaves what it has to leave. -/
theorem Shaped.swept (h : e.Shaped kind) : e.Swept e.sweep.1 e.sweep.2 := by
  rw [sweep_eq]
  refine ⟨annotations_labelAt_prune h, fun path slot hs => isSome_at?_prune_iff h path hs,
    fun path x hx => ?_, ?_, ?_⟩
  · obtain ⟨y, hy, rfl⟩ := exists_eq_prune_of_at?_prune h hx
    refine ⟨y, hy, congrArg Label.castType (label_prune y), keys_prune_sublist y,
      fun slot hmem howned => ?_⟩
    obtain ⟨c, hc, rfl⟩ := List.mem_map.1 hmem
    exact List.mem_map.2
      ⟨(c.1, c.2.prune), mem_children_prune_iff.2 ⟨c.2, hc, .inl howned, rfl⟩, rfl⟩
  · rw [Bool.not_eq_true', ← Bool.not_eq_true, isAnnotated_iff h]
    simp
  · rw [sweep_eq, prune_prune, isAnnotated_prune]

/-- Creating what a path leads to keeps all annotations, and so does any change that adds none. -/
theorem annotations_labelAt_modifyAt {f : Element → Element} (hc : ∀ e, (f e).children = e.children)
    (ha : ∀ e, (f e).annotations = e.annotations) (path other : Path) (e : Element) :
    ((modifyAt f path e).labelAt other).annotations = (e.labelAt other).annotations := by
  rw [labelAt_modifyAt hc]
  split
  · next h => rw [label, ha, ← h, ← label_reach, label]
  · rfl

end Element

namespace Scene

/-- The scenes have equal annotations at every position, and the same type in every cast in which
something is annotated. -/
structure AnnotatedAlike (s t : Scene) : Prop where
  annotations (path : Path) :
    AnnotationSet.beq (s.root.labelAt path).annotations (t.root.labelAt path).annotations = true
  casts (path : Path) (hk : Kind.scene.after path = .cast) (h : s.root.AnnotatedBelow path) :
    (s.root.labelAt path).castType = (t.root.labelAt path).castType

/-- A scene is swept to what pruning leaves, and is empty unless something in it is annotated. -/
theorem sweep_eq (s : Scene) : s.sweep = (s.prune, !s.isAnnotated) := by
  rw [sweep, Element.sweep_eq, prune, isAnnotated]

/-- **Pruning keeps just what is annotated**, in an element of any kind and in a scene. So scenes
with equal annotations are equal once they are pruned, whatever else was created in them. -/
theorem sweep_keeps_annotated :
    (∀ (kind : Kind) (e : Element), e.Shaped kind → e.Swept e.sweep.1 e.sweep.2) ∧
      ∀ s : Scene, s.Shaped → s.root.Swept s.sweep.1.root s.sweep.2 ∧
        s.sweep.1.imports = s.imports ∧ s.sweep.1.sweep = s.sweep ∧
        ∀ t : Scene, t.Shaped → s.AnnotatedAlike t → s.sweep.1.beq t.sweep.1 = true := by
  refine ⟨fun kind e he => he.swept, fun s hs => ⟨?_, rfl, ?_, fun t ht h => ?_⟩⟩
  · exact (show s.root.Shaped .scene from hs).swept
  · simp [sweep_eq, prune, isAnnotated]
  · rw [sweep_eq, sweep_eq]
    have hroot : s.root.castType = t.root.castType :=
      congrArg Label.castType (hs.label_root.trans ht.label_root.symm)
    exact Element.beq_prune_of_beq hs ht hroot h.annotations h.casts

/-! ## A scene with elements that hold nothing -/

namespace vivified

/-- A cast in a method. -/
def path : Path := [.typeDecl "p.C", .method "m()V", .castInsertion ⟨[]⟩]

/-- An annotation of a type without fields. -/
def mark : Annotation := ⟨⟨"A", some .runtime, [], []⟩, []⟩

/-- The element with the annotation, as a cast. -/
def annotate (e : Element) : Element := { e with annotations := [mark], castType := some "T" }

/-- The element as a cast to another type. -/
def retype (e : Element) : Element := { e with castType := some "U" }

/-- A scene in which a cast is annotated and nothing else. -/
def marked : Scene := empty.modifyAt path annotate

/-- The scene with another class, which has a field with an initializer, and with another cast. -/
def scene : Scene :=
  (marked.modifyAt [.typeDecl "p.D", .field "f", .initializer] id).modifyAt
    [.typeDecl "p.C", .castInsertion ⟨[]⟩] retype

/-- A cast keeps its shape whatever it carries. -/
theorem shaped_cast {e x : Element} (h : e.Shaped .cast) (hx : x.children = e.children) :
    x.Shaped .cast := by
  obtain ⟨as, type, cs⟩ := x
  subst hx
  exact .mk (fun h => by cases h) (fun _ => rfl) h.distinct h.filled h.owned h.children

/-- The scene with the annotated cast has the shape of scenes. -/
theorem shaped_marked : marked.Shaped := by
  rw [Scene.Shaped, marked, modifyAt]
  refine .modifyAt (fun _ => ?_) rfl (Element.shaped_bare rfl)
  exact fun he => shaped_cast he rfl

/-- The scene with other elements has the shape of scenes. -/
theorem shaped_scene : scene.Shaped := by
  rw [Scene.Shaped, scene, modifyAt, modifyAt]
  refine .modifyAt (fun _ => ?_) rfl (.modifyAt (fun _ he => he) rfl shaped_marked)
  exact fun he => shaped_cast he rfl

/-- Only the cast has a label. -/
theorem labelAt_marked (other : Path) : marked.root.labelAt other =
    if path = other then ⟨[mark], some "T"⟩ else .blank := by
  have h := Element.labelAt_modifyAt (f := annotate) (fun _ => rfl) path other empty.root
  rwa [show empty.root.labelAt other = .blank from Element.labelAt_bare other] at h

/-- The other elements carry no annotation. -/
theorem annotations_scene (other : Path) : (scene.root.labelAt other).annotations =
    (marked.root.labelAt other).annotations := by
  rw [scene, modifyAt, modifyAt,
    Element.annotations_labelAt_modifyAt (f := retype) (fun _ => rfl) fun _ => rfl,
    Element.annotations_labelAt_modifyAt (f := id) (fun _ => rfl) fun _ => rfl]

/-- Both scenes are annotated alike. -/
theorem annotatedAlike : scene.AnnotatedAlike marked where
  annotations other := by
    rw [annotations_scene, labelAt_marked]
    split <;> rfl
  casts other hk h := by
    obtain ⟨rest, hne⟩ := h
    rw [annotations_scene, labelAt_marked] at hne
    -- the only cast on the way to the annotation is the one that has it
    have hpath : path = other ++ rest := by
      by_contra hpath
      rw [if_neg hpath] at hne
      exact hne rfl
    match other, hpath with
    | [], _ => cases hk
    | [_], hpath => cases hpath; cases hk
    | [_, _], hpath => cases hpath; cases hk
    | [_, _, _], hpath => cases hpath; rfl

end vivified

/-- Where only a cast is annotated, only that cast is kept, with what it belongs to. -/
theorem sweep_keeps_annotated_vivified :
    vivified.scene.Shaped ∧ vivified.marked.Shaped ∧ vivified.scene.AnnotatedAlike vivified.marked ∧
      vivified.scene.beq vivified.marked = false ∧
      vivified.scene.root.Swept vivified.scene.sweep.1.root vivified.scene.sweep.2 ∧
      vivified.scene.sweep.1.beq vivified.marked.sweep.1 = true ∧
      (Element.fresh .method).Shaped .method ∧
      (Element.fresh .method).Swept (Element.fresh .method).sweep.1
        (Element.fresh .method).sweep.2 := by
  have hscene := sweep_keeps_annotated.2 vivified.scene vivified.shaped_scene
  exact ⟨vivified.shaped_scene, vivified.shaped_marked, vivified.annotatedAlike, by decide,
    hscene.1, hscene.2.2.2 vivified.marked vivified.shaped_marked vivified.annotatedAlike,
    Element.shaped_fresh .method, sweep_keeps_annotated.1 .method _ (Element.shaped_fresh .method)⟩

end Scene

end AnnotationIndex
