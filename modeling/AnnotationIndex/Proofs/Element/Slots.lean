import AnnotationIndex.Proofs.Element.Prune
import AnnotationIndex.Proofs.FirstMet

/-!
# The order of slots

Labels do not show in which order an element has its slots; `Element.slotsAt` does. A change along a
path adds each slot on the way to those that its element has (`Element.slotsAt_modifyAt`), and
labels and slots together determine a tree (`Element.eq_of_slotsAt`). What is written of a tree does
not show in which order slots of different families stand: `Element.Alike` compares trees up to
that.
-/

namespace AnnotationIndex

/-- The slot after the first path on the second one. -/
def Path.next? : Path → Path → Option Slot
  | [], slot :: _ => some slot
  | a :: path, b :: other => if a = b then Path.next? path other else none
  | _, [] => none

/-- A slot is next after a path when the path with the slot begins the other path. -/
theorem Path.next?_eq_some_iff {path other : Path} {slot : Slot} :
    path.next? other = some slot ↔ path ++ [slot] <+: other := by
  induction path generalizing other with
  | nil =>
    cases other with
    | nil => simp [next?]
    | cons a other => simp [next?, eq_comm]
  | cons a path ih =>
    cases other with
    | nil => simp [next?]
    | cons b other =>
      rw [next?, List.cons_append, List.cons_prefix_cons]
      split
      · next h => rw [ih, and_iff_right h]
      · next h => simp [h]

/-- What is next on a part of a path is next on the path. -/
theorem Path.next?_mono {path q other : Path} {slot : Slot} (h : path.next? q = some slot)
    (hq : q <+: other) : path.next? other = some slot :=
  next?_eq_some_iff.2 ((next?_eq_some_iff.1 h).trans hq)

/-- Keyed lists with the same keys give the same when entries of one key do. -/
theorem Keyed.map_eq_map {κ ν β : Type} {xs ys : List (κ × ν)} {f : κ × ν → β}
    (hk : keys xs = keys ys) (h : ∀ x ∈ xs, ∀ y ∈ ys, x.1 = y.1 → f x = f y) :
    xs.map f = ys.map f := by
  induction xs generalizing ys with
  | nil =>
    rw [List.map_eq_nil_iff.1 hk.symm]
  | cons x xs ih =>
    obtain ⟨y, ys', rfl, hy, hk⟩ := List.map_eq_cons_iff.1 hk.symm
    rw [List.map_cons, List.map_cons, h x List.mem_cons_self y List.mem_cons_self hy.symm,
      ih hk.symm fun a ha b hb => h a (List.mem_cons_of_mem _ ha) b (List.mem_cons_of_mem _ hb)]

namespace Element

/-! ## Slots along a path -/

/-- The slots of the element that a path leads to, in order. Where there is none, they are those of
an element as it is created. -/
def slotsAt (e : Element) (kind : Kind) (path : Path) : List Slot :=
  match e.at? path with
  | some x => Keyed.keys x.children
  | none => (kind.after path).filled

variable {e : Element} {kind : Kind} {slot : Slot}

/-- The slots at the empty path are those of the element. -/
@[simp] theorem slotsAt_nil (e : Element) (kind : Kind) :
    e.slotsAt kind [] = Keyed.keys e.children := rfl

/-- The slots on a path into a child are those on the rest of the path there. -/
theorem slotsAt_cons_of_some {child : Element} (h : e.child? slot = some child) (rest : Path) :
    e.slotsAt kind (slot :: rest) = child.slotsAt slot.kind rest := by
  rw [slotsAt, at?_cons, h]
  rfl

/-- The slots on a path into an empty slot are those of a new element. -/
theorem slotsAt_cons_of_none (h : e.child? slot = none) (rest : Path) :
    e.slotsAt kind (slot :: rest) = (kind.after (slot :: rest)).filled := by
  rw [slotsAt, at?_cons, h]
  rfl

/-- What an element has as it is created is itself as it is created. -/
theorem eq_fresh_of_child? {child : Element} (h : (fresh kind).child? slot = some child) :
    child = fresh slot.kind := by
  have hmem := Keyed.mem_of_get? h
  cases kind <;> simp only [fresh, freshBlock, bare, List.mem_cons, Prod.mk.injEq,
    List.not_mem_nil, or_false] at hmem
  case block =>
    obtain ⟨rfl, rfl⟩ := hmem
    rfl
  case method => rcases hmem with ⟨rfl, rfl⟩ | ⟨rfl, rfl⟩ | ⟨rfl, rfl⟩ <;> rfl

/-- A new element has the slots of a new element everywhere. -/
theorem slotsAt_fresh (kind : Kind) (path : Path) :
    (fresh kind).slotsAt kind path = (kind.after path).filled := by
  induction path generalizing kind with
  | nil => cases kind <;> rfl
  | cons slot rest ih =>
    cases hc : (fresh kind).child? slot with
    | none => exact slotsAt_cons_of_none hc rest
    | some child =>
      rw [slotsAt_cons_of_some hc, eq_fresh_of_child? hc]
      exact ih slot.kind

/-- Creating an absent element does not show. -/
theorem slotsAt_getD (e : Element) (kind : Kind) (slot : Slot) (rest : Path) :
    ((e.child? slot).getD (fresh slot.kind)).slotsAt slot.kind rest =
      e.slotsAt kind (slot :: rest) := by
  cases hc : e.child? slot with
  | none => exact (slotsAt_fresh slot.kind rest).trans (slotsAt_cons_of_none hc rest).symm
  | some child => exact (slotsAt_cons_of_some hc rest).symm

/-- A change adds the slots on its path. -/
theorem slotsAt_modifyAt {f : Element → Element} (hf : ∀ e, (f e).children = e.children)
    (path other : Path) (e : Element) (kind : Kind) :
    (modifyAt f path e).slotsAt kind other =
      meetAll (e.slotsAt kind other) (other.next? path).toList := by
  induction path generalizing e kind other with
  | nil =>
    cases other with
    | nil => exact congrArg Keyed.keys (hf e)
    | cons slot rest =>
      have h : (f e).child? slot = e.child? slot := by rw [child?, hf, child?]
      simp [modifyAt, slotsAt, at?_cons, h, Path.next?]
  | cons slot rest ih =>
    cases other with
    | nil => exact Keyed.keys_upsert ..
    | cons slot' rest' =>
      by_cases hs : slot' = slot
      · subst hs
        rw [slotsAt_cons_of_some (child?_modifyAt_self f e slot' rest), ih, Path.next?, if_pos rfl,
          slotsAt_getD]
      · rw [Path.next?, if_neg hs, slotsAt, slotsAt, at?_cons, at?_cons,
          child?_modifyAt_of_ne f e (Ne.symm hs)]
        rfl

/-- **Labels and slots determine a tree.** -/
theorem eq_of_slotsAt {x : Element} : ∀ {y : Element} {kind : Kind}, x.Shaped kind →
    y.Shaped kind → (∀ path, x.labelAt path = y.labelAt path) →
    (∀ path, x.slotsAt kind path = y.slotsAt kind path) → x = y := by
  induction x using induct with
  | h x ih =>
    intro y kind hx hy hlabels hslots
    have hlabel : x.label = y.label := hlabels []
    have hchildren : x.children = y.children := by
      have hmap : x.children.map id = y.children.map id :=
        Keyed.map_eq_map (hslots []) fun c hc d hd he => by
          have hxc : x.child? c.1 = some c.2 := Keyed.get?_of_mem hx.distinct hc
          have hyd : y.child? c.1 = some d.2 := he ▸ Keyed.get?_of_mem hy.distinct hd
          refine Prod.ext he
            (ih c hc (hx.children c hc) (hy.child hyd) (fun path => ?_) fun path => ?_)
          · have := hlabels (c.1 :: path)
            rwa [labelAt_cons_of_some hxc, labelAt_cons_of_some hyd] at this
          · have := hslots (c.1 :: path)
            rwa [slotsAt_cons_of_some hxc, slotsAt_cons_of_some hyd] at this
      simpa using hmap
    obtain ⟨as, type, cs⟩ := x
    obtain ⟨bs, type', ds⟩ := y
    cases hlabel
    cases hchildren
    rfl

/-! ## Trees that are written alike -/

/-- The trees have the same labels, and in each family the same slots in the same order. -/
structure Alike (kind : Kind) (x y : Element) : Prop where
  labels : ∀ path, x.labelAt path = y.labelAt path
  slots : ∀ path (family : Family), (x.slotsAt kind path).filter (·.family = family) =
    (y.slotsAt kind path).filter (·.family = family)

namespace Alike

variable {x y : Element}

/-- Alike trees have the same slots at every path. -/
theorem mem_slotsAt_iff (h : Alike kind x y) {path : Path} :
    slot ∈ x.slotsAt kind path ↔ slot ∈ y.slotsAt kind path := by
  have := congrArg (slot ∈ ·) (h.slots path slot.family)
  simpa using this

/-- Alike trees have alike elements in each slot. -/
theorem child (h : Alike kind x y) {c : Element} (hc : x.child? slot = some c) :
    ∃ d, y.child? slot = some d ∧ Alike slot.kind c d := by
  have hmem : slot ∈ y.slotsAt kind [] :=
    h.mem_slotsAt_iff.1 (List.mem_map_of_mem (Keyed.mem_of_get? hc))
  obtain ⟨d, hd⟩ := Option.isSome_iff_exists.1 (Keyed.get?_isSome_iff.2 hmem)
  refine ⟨d, hd, fun path => ?_, fun path family => ?_⟩
  · have := h.labels (slot :: path)
    rwa [labelAt_cons_of_some hc, labelAt_cons_of_some hd] at this
  · have := h.slots (slot :: path) family
    rwa [slotsAt_cons_of_some hc, slotsAt_cons_of_some hd] at this

/-- In alike trees the same paths lead to an element. -/
theorem exists_at? (h : Alike kind x y) {path : Path} {c : Element} (hc : x.at? path = some c) :
    ∃ d, y.at? path = some d := by
  induction path generalizing x y kind with
  | nil => exact ⟨y, rfl⟩
  | cons slot rest ih =>
    rw [at?_cons, Option.bind_eq_some_iff] at hc
    obtain ⟨a, ha, hc⟩ := hc
    obtain ⟨b, hb, hab⟩ := h.child ha
    obtain ⟨d, hd⟩ := ih hab hc
    exact ⟨d, by rw [at?_cons, hb]; exact hd⟩

/-- Of two alike trees both are annotated, or neither. -/
theorem isAnnotated_iff (hx : x.Shaped kind) (hy : y.Shaped kind) (h : Alike kind x y) :
    x.isAnnotated = true ↔ y.isAnnotated = true := by
  rw [Element.isAnnotated_iff hx, Element.isAnnotated_iff hy]
  simp only [h.labels]

end Alike

/-- A tree is pruned if one that it is like is. -/
theorem Alike.prune_eq_self {x : Element} : ∀ {y : Element} {kind : Kind}, Alike kind x y →
    x.Shaped kind → y.Shaped kind → y.prune = y → x.prune = x := by
  induction x using induct with
  | h x ih =>
    intro y kind h hx hy hp
    refine (prune_eq_self_iff hx).2 fun c hc => ?_
    obtain ⟨d, hd, hcd⟩ := h.child (Keyed.get?_of_mem hx.distinct hc)
    obtain ⟨hkept, hpruned⟩ := (prune_eq_self_iff hy).1 hp _ (Keyed.mem_of_get? hd)
    have hshaped := hx.children c hc
    rw [hcd.isAnnotated_iff hshaped (hy.child hd)]
    exact ⟨hkept, ih c hc hcd hshaped (hy.child hd) hpruned⟩

end Element

end AnnotationIndex
