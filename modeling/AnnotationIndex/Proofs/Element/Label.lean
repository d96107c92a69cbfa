import AnnotationIndex.Element.Basic
import AnnotationIndex.Proofs.Keyed

/-!
# Labels

What an element itself carries is its label: annotations and the type that is cast to. `labelAt`
looks at the tree below an element as a map from paths to labels, in which an absent element is as
good as a blank one. Creating elements on the way to a path does not show in that view, so that a
change at one path (`modifyAt`) is a change of one label (`labelAt_modifyAt`).
-/

namespace AnnotationIndex

/-- What an element itself carries. -/
structure Label where
  annotations : List Annotation
  castType : Option String

/-- The label of an element that carries nothing. -/
def Label.blank : Label := ⟨[], none⟩

namespace Element

/-- Every element satisfies what passes from all children of an element to the element. -/
theorem induct {P : Element → Prop} (h : ∀ e : Element, (∀ c ∈ e.children, P c.2) → P e)
    (e : Element) : P e :=
  h e fun c hc =>
    have : sizeOf c.2 < sizeOf e := by
      obtain ⟨as, type, cs⟩ := e
      obtain ⟨slot, child⟩ := c
      have := List.sizeOf_lt_of_mem hc
      simp only [Prod.mk.sizeOf_spec, mk.sizeOf_spec] at this ⊢
      omega
    induct h c.2
termination_by sizeOf e

/-- What the element itself carries. -/
def label (e : Element) : Label := ⟨e.annotations, e.castType⟩

/-- The label of the element that a path leads to, blank where there is none. -/
def labelAt (e : Element) (path : Path) : Label :=
  match e.at? path with
  | some x => x.label
  | none => .blank

/-- The empty path leads to the label of the element. -/
@[simp] theorem labelAt_nil (e : Element) : e.labelAt [] = e.label := rfl

/-- A path leads first to a child and then on from there. -/
theorem at?_cons (e : Element) (slot : Slot) (rest : Path) :
    e.at? (slot :: rest) = (e.child? slot).bind fun child => child.at? rest := by
  rw [at?]
  cases e.child? slot <;> rfl

/-- One step into a tree leads to a child. -/
theorem at?_singleton (e : Element) (slot : Slot) : e.at? [slot] = e.child? slot := by
  rw [at?_cons]
  cases e.child? slot <;> rfl

/-- The label on a path into a child is the one on the rest of the path there. -/
theorem labelAt_cons_of_some {e child : Element} {slot : Slot} (h : e.child? slot = some child)
    (rest : Path) : e.labelAt (slot :: rest) = child.labelAt rest := by
  simp [labelAt, at?_cons, h]

/-- The label on a path into an empty slot is blank. -/
theorem labelAt_cons_of_none {e : Element} {slot : Slot} (h : e.child? slot = none)
    (rest : Path) : e.labelAt (slot :: rest) = .blank := by
  simp [labelAt, at?_cons, h]

/-- An element without content has blank labels only. -/
@[simp] theorem labelAt_bare (path : Path) : bare.labelAt path = .blank := by
  cases path with
  | nil => rfl
  | cons slot rest => exact labelAt_cons_of_none rfl rest

/-- A new block has blank labels only. -/
@[simp] theorem labelAt_freshBlock (path : Path) : freshBlock.labelAt path = .blank := by
  cases path with
  | nil => rfl
  | cons slot rest =>
    cases hc : freshBlock.child? slot with
    | none => exact labelAt_cons_of_none hc rest
    | some child =>
      rw [labelAt_cons_of_some hc]
      have := Keyed.mem_of_get? hc
      simp only [freshBlock, List.mem_singleton, Prod.mk.injEq] at this
      rw [this.2, labelAt_bare]

/-- Nothing is said in an element as it is created. -/
@[simp] theorem labelAt_fresh (kind : Kind) (path : Path) : (fresh kind).labelAt path = .blank := by
  cases kind with
  | block => exact labelAt_freshBlock path
  | method =>
    cases path with
    | nil => rfl
    | cons slot rest =>
      cases hc : (fresh .method).child? slot with
      | none => exact labelAt_cons_of_none hc rest
      | some child =>
        rw [labelAt_cons_of_some hc]
        have := Keyed.mem_of_get? hc
        simp only [fresh, List.mem_cons, Prod.mk.injEq, List.not_mem_nil, or_false] at this
        rcases this with ⟨-, rfl⟩ | ⟨-, rfl⟩ | ⟨-, rfl⟩
        · exact labelAt_bare rest
        · exact labelAt_bare rest
        · exact labelAt_freshBlock rest
  | scene | package | typeUse | cast | code | «variable» | typeDecl => exact labelAt_bare path

/-- The element that is there, or else is created, has the label that is seen there. -/
theorem label_reach (e : Element) (path : Path) : (e.reach path).label = e.labelAt path := by
  induction path generalizing e with
  | nil => rfl
  | cons slot rest ih =>
    rw [reach, ih]
    cases hc : e.child? slot with
    | none => rw [labelAt_cons_of_none hc, Option.getD_none, labelAt_fresh]
    | some child => rw [labelAt_cons_of_some hc, Option.getD_some]

/-! ## Changes -/

/-- A change on a path changes the child on it, which is created if it is not there. -/
theorem child?_modifyAt_self (f : Element → Element) (e : Element) (slot : Slot) (rest : Path) :
    (modifyAt f (slot :: rest) e).child? slot =
      some (modifyAt f rest ((e.child? slot).getD (fresh slot.kind))) :=
  Keyed.get?_upsert_self ..

/-- A change on a path leaves the other children as they are. -/
theorem child?_modifyAt_of_ne (f : Element → Element) (e : Element) {slot other : Slot}
    (h : slot ≠ other) (rest : Path) :
    (modifyAt f (slot :: rest) e).child? other = e.child? other :=
  Keyed.get?_upsert_of_ne h ..

/-- A change that leaves children alone changes one label. -/
theorem labelAt_modifyAt {f : Element → Element} (hf : ∀ e, (f e).children = e.children)
    (path other : Path) (e : Element) :
    (modifyAt f path e).labelAt other =
      if path = other then (f (e.reach path)).label else e.labelAt other := by
  induction path generalizing e other with
  | nil =>
    cases other with
    | nil => rfl
    | cons slot rest =>
      have h : (f e).child? slot = e.child? slot := by rw [child?, hf, child?]
      simp [modifyAt, labelAt, at?_cons, h]
  | cons slot rest ih =>
    cases other with
    | nil => rfl
    | cons slot' rest' =>
      by_cases hs : slot = slot'
      · subst hs
        rw [labelAt_cons_of_some (child?_modifyAt_self f e slot rest), ih, reach]
        by_cases hr : rest = rest'
        · simp [hr]
        · rw [if_neg hr, if_neg (by simpa using hr)]
          cases hc : e.child? slot with
          | none => rw [labelAt_cons_of_none hc, Option.getD_none, labelAt_fresh]
          | some child => rw [labelAt_cons_of_some hc, Option.getD_some]
      · rw [if_neg (by simp [hs]), labelAt, labelAt, at?_cons, at?_cons,
          child?_modifyAt_of_ne f e hs]

/-- A change depends only on what it makes of the element that it meets. -/
theorem modifyAt_congr {f g : Element → Element} {path : Path} {e : Element}
    (h : f (e.reach path) = g (e.reach path)) : modifyAt f path e = modifyAt g path e := by
  induction path generalizing e with
  | nil => exact h
  | cons slot rest ih =>
    have hc : modifyAt f rest ((e.child? slot).getD (fresh slot.kind)) =
        modifyAt g rest ((e.child? slot).getD (fresh slot.kind)) := ih h
    rw [modifyAt, modifyAt, Keyed.upsert_congr hc]

end Element

end AnnotationIndex
