import AnnotationIndex.Proofs.Reader.CastType
import AnnotationIndex.Proofs.Section

/-!
# Elements that have a place in an index

A tree can represent more than an index can say: inner types inside inner types, initializers of
parameters, annotations on blocks. `Element.Placed` says of a whole tree that it stays within what
can be said: every slot is written with the element that it belongs to, labels stand where a header
announces them, and casts are to types that are read as themselves. Elements are created so
(`placed_fresh`) and stay so under changes of labels along paths that can be written
(`Placed.modifyAt`).
-/

namespace AnnotationIndex

/-- What the label says may follow the header of an element of the kind. -/
structure Label.Placed (kind : Kind) (l : Label) : Prop where
  marked : l.annotations ≠ [] → kind.isMarked = true
  cast : ∀ type ∈ l.castType, kind = .cast ∧ Reader.IsCastType type

/-- A blank label has a place anywhere. -/
theorem Label.placed_blank (kind : Kind) : Label.blank.Placed kind :=
  ⟨fun h => absurd rfl h, by simp [Label.blank]⟩

/-- A slot that is always filled is written with its element. -/
theorem Slot.links_of_isOwned {a b : Slot} (ho : a.kind.owns b = true) (h : b.isOwned = true) :
    a.Links b ∧ b.NoComment := by
  cases b <;> cases h <;> cases a <;> cases ho <;> exact ⟨⟨rfl, rfl, trivial⟩, trivial⟩

namespace Element

/-- The tree in the slot has a place in an index: what its labels say does, and its elements are in
slots that are written with the elements around them. -/
inductive Placed : Slot → Element → Prop where
  | mk {slot : Slot} {e : Element} (label : e.label.Placed slot.kind)
      (distinct : (Keyed.keys e.children).Nodup) (links : ∀ c ∈ e.children, slot.Links c.1)
      (placed : ∀ c ∈ e.children, Placed c.1 c.2) : Placed slot e

namespace Placed

variable {slot : Slot} {e : Element}

/-- The label of an element in its place has a place. -/
theorem label (h : e.Placed slot) : e.label.Placed slot.kind := by
  cases h with | mk h => exact h

/-- No two children of an element in its place are in one slot. -/
theorem distinct (h : e.Placed slot) : (Keyed.keys e.children).Nodup := by
  cases h with | mk _ h => exact h

/-- The children of an element in its place are written with it. -/
theorem links (h : e.Placed slot) : ∀ c ∈ e.children, slot.Links c.1 := by
  cases h with | mk _ _ h => exact h

/-- The children of an element in its place are in theirs. -/
theorem children (h : e.Placed slot) : ∀ c ∈ e.children, c.2.Placed c.1 := by
  cases h with | mk _ _ _ h => exact h

/-- A child that is found in an element in its place is written with it and in its place. -/
theorem child (h : e.Placed slot) {inner : Slot} {child : Element}
    (hc : e.child? inner = some child) : slot.Links inner ∧ child.Placed inner :=
  ⟨h.links _ (Keyed.mem_of_get? hc), h.children _ (Keyed.mem_of_get? hc)⟩

/-- Only a cast has a type that is cast to. -/
theorem castType_eq_none (h : e.Placed slot) (hk : slot.kind ≠ .cast) : e.castType = none :=
  Option.eq_none_iff_forall_ne_some.2 fun type ht => hk (h.label.cast type ht).1

/-- What is at a path in the tree is at a path that can be written, and has a place itself. -/
theorem of_at? {path : Path} {x : Element} (h : e.Placed slot) (hx : e.at? path = some x) :
    (slot :: path).IsChain Slot.Links ∧ x.label.Placed (slot.kind.after path) := by
  induction path generalizing slot e with
  | nil =>
    cases hx
    exact ⟨.singleton slot, h.label⟩
  | cons inner rest ih =>
    rw [at?_cons, Option.bind_eq_some_iff] at hx
    obtain ⟨child, hc, hx⟩ := hx
    obtain ⟨hlinks, hplaced⟩ := h.child hc
    obtain ⟨hchain, hlabel⟩ := ih hplaced hx
    exact ⟨List.isChain_cons_cons.2 ⟨hlinks, hchain⟩, hlabel⟩

end Placed

/-! ## Fresh elements -/

/-- An element without content is in its place anywhere. -/
theorem placed_bare (slot : Slot) : bare.Placed slot :=
  .mk (Label.placed_blank _) List.nodup_nil (List.forall_mem_nil _) (List.forall_mem_nil _)

/-- A new block is in its place where blocks are. -/
theorem placed_freshBlock {slot : Slot} (h : slot.kind = .block) : freshBlock.Placed slot :=
  .mk (Label.placed_blank _) (List.nodup_singleton _)
    (List.forall_mem_singleton.2 (Slot.links_of_isOwned (h ▸ rfl) rfl).1)
    (List.forall_mem_singleton.2 (placed_bare .code))

/-- Elements are created with a place in an index. -/
theorem placed_fresh (slot : Slot) : (fresh slot.kind).Placed slot := by
  have hshaped := shaped_fresh slot.kind
  have hfilled : ∀ c ∈ (fresh slot.kind).children, c.1.isOwned = true ∧ c.2.Placed c.1 := by
    cases slot.kind with
    | block => simpa [fresh, freshBlock, Slot.isOwned] using placed_bare .code
    | method =>
      simp only [fresh, List.forall_mem_cons]
      exact ⟨⟨rfl, placed_bare _⟩, ⟨rfl, placed_bare _⟩, ⟨rfl, placed_freshBlock rfl⟩, by simp⟩
    | scene | package | typeUse | cast | code | «variable» | typeDecl => simp [fresh, bare]
  refine .mk ?_ hshaped.distinct
    (fun c hc => (Slot.links_of_isOwned (hshaped.owned c hc) (hfilled c hc).1).1)
    fun c hc => (hfilled c hc).2
  rw [← labelAt_nil, labelAt_fresh]
  exact Label.placed_blank _

/-! ## Changes -/

/-- A tree keeps its place when a label in it does, at a path that can be written. -/
theorem Placed.modifyAt {f : Element → Element} {slot : Slot} {path : Path} {e : Element}
    (hc : ∀ x, (f x).children = x.children)
    (hl : ∀ x : Element, x.label.Placed (slot.kind.after path) →
      (f x).label.Placed (slot.kind.after path))
    (hp : (slot :: path).IsChain Slot.Links) (h : e.Placed slot) :
    (modifyAt f path e).Placed slot := by
  induction path generalizing slot e with
  | nil =>
    refine .mk (hl e h.label) ?_ ?_ ?_ <;> rw [Element.modifyAt, hc]
    · exact h.distinct
    · exact h.links
    · exact h.children
  | cons inner rest ih =>
    obtain ⟨hlinks, hrest⟩ := List.isChain_cons_cons.1 hp
    have hnew : (Element.modifyAt f rest ((e.child? inner).getD (fresh inner.kind))).Placed
        inner := by
      refine ih hl hrest ?_
      cases hc : e.child? inner with
      | none => exact placed_fresh inner
      | some child => exact (h.child hc).2
    refine .mk h.label (Keyed.nodup_keys_upsert h.distinct) (fun c hc => ?_) fun c hc => ?_
    · rcases Keyed.mem_upsert hc with hc | rfl
      · exact h.links c hc
      · exact hlinks
    · rcases Keyed.mem_upsert hc with hc | rfl
      · exact h.children c hc
      · exact hnew

end Element

end AnnotationIndex
