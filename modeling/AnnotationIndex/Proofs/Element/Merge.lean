import AnnotationIndex.Proofs.Element.Shape

/-!
# Merging elements

`merge` unites two elements recursively: what the second one holds comes after what the first one
holds. Two elements are `Compatible` when at no path both have an annotation of one type, or casts
to different types. The main statements are that labels are merged path by path (`labelAt_merge`)
and that a change of the second element is a change of the union (`modifyAt_merge`).
-/

namespace AnnotationIndex

namespace Label

/-- Two labels in one: annotations in order, and the type of whichever label has one. -/
def merge (l m : Label) : Label := ⟨l.annotations ++ m.annotations, l.castType.or m.castType⟩

/-- The labels have no annotations of one type, and no different types that are cast to. -/
def Compatible (l m : Label) : Prop :=
  (∀ a ∈ l.annotations, ∀ b ∈ m.annotations, a.name ≠ b.name) ∧
    ∀ type ∈ l.castType, ∀ type' ∈ m.castType, type = type'

/-- Merging a blank label changes nothing. -/
@[simp] theorem merge_blank (l : Label) : l.merge .blank = l := by
  simp [merge, blank]

/-- A blank label takes on what is merged into it. -/
@[simp] theorem blank_merge (l : Label) : blank.merge l = l := by
  simp [merge, blank]

/-- A blank label is compatible with every label. -/
theorem compatible_blank (l : Label) : l.Compatible .blank := by
  simp [Compatible, blank]

end Label

namespace Element

mutual

/-- Two elements in one. The annotations of the first come before those of the second; the slots of
the first keep their order and come before the further slots of the second, and what sits in a slot
of both is merged. -/
def merge : Element → Element → Element
  | ⟨annotations, castType, children⟩, e =>
    ⟨annotations ++ e.annotations, castType.or e.castType,
      mergeEach children e.children ++
        e.children.filter fun c => !(Keyed.get? c.1 children).isSome⟩

/-- The elements, each merged with what sits in the same slot among the others. -/
def mergeEach : List (Slot × Element) → List (Slot × Element) → List (Slot × Element)
  | [], _ => []
  | (slot, child) :: rest, others =>
    (slot, match Keyed.get? slot others with
      | some other => child.merge other
      | none => child) :: mergeEach rest others

end

/-- At no path both elements have annotations of one type, or casts to different types. -/
def Compatible (e f : Element) : Prop := ∀ path, (e.labelAt path).Compatible (f.labelAt path)

variable {kind : Kind}

/-- The label of merged elements is the merged label. -/
theorem label_merge (e f : Element) : (e.merge f).label = e.label.merge f.label := by
  obtain ⟨as, type, cs⟩ := e
  rw [merge]
  rfl

/-- Merged elements have the children of the first, merged, and then the other ones of the
second. -/
theorem children_merge (e f : Element) :
    (e.merge f).children = mergeEach e.children f.children ++
      f.children.filter fun c => !(Keyed.get? c.1 e.children).isSome := by
  obtain ⟨as, type, cs⟩ := e
  rw [merge]

/-- Merging children keeps their slots. -/
theorem keys_mergeEach (cs ds : List (Slot × Element)) :
    Keyed.keys (mergeEach cs ds) = Keyed.keys cs := by
  induction cs with
  | nil => rfl
  | cons c rest ih => simpa [mergeEach, Keyed.keys] using ih

/-- A merged child is that of the first side, with that of the second if there is one. -/
theorem get?_mergeEach (slot : Slot) (cs ds : List (Slot × Element)) :
    Keyed.get? slot (mergeEach cs ds) = (Keyed.get? slot cs).map fun child =>
      match Keyed.get? slot ds with
      | some other => child.merge other
      | none => child := by
  induction cs with
  | nil => rfl
  | cons c rest ih =>
    obtain ⟨s, child⟩ := c
    by_cases hs : s = slot
    · subst hs
      simp [mergeEach, Keyed.get?]
    · simp [mergeEach, Keyed.get?, hs, ih]

/-- What sits in a slot of the first element is merged with what the second has there. -/
theorem child?_merge_of_some {e f child : Element} {slot : Slot} (h : e.child? slot = some child) :
    (e.merge f).child? slot = some (match f.child? slot with
      | some other => child.merge other
      | none => child) := by
  rw [child?] at h
  rw [child?, children_merge, Keyed.get?_append, get?_mergeEach, h]
  rfl

/-- A slot that the first element does not fill is as in the second. -/
theorem child?_merge_of_none {e f : Element} {slot : Slot} (h : e.child? slot = none) :
    (e.merge f).child? slot = f.child? slot := by
  rw [child?] at h
  rw [child?, children_merge, Keyed.get?_append, get?_mergeEach, h, Option.map_none, Option.none_or,
    Keyed.get?_filter (p := fun s => !(Keyed.get? s e.children).isSome) (by simp [h])]
  rfl

/-- Labels are merged path by path. -/
theorem labelAt_merge (e f : Element) (path : Path) :
    (e.merge f).labelAt path = (e.labelAt path).merge (f.labelAt path) := by
  induction path generalizing e f with
  | nil => exact label_merge e f
  | cons slot rest ih =>
    cases he : e.child? slot with
    | none =>
      rw [labelAt_cons_of_none he, Label.blank_merge, labelAt, labelAt, at?_cons, at?_cons,
        child?_merge_of_none he]
    | some child =>
      rw [labelAt_cons_of_some he]
      cases hf : f.child? slot with
      | none =>
        rw [labelAt_cons_of_none hf, Label.merge_blank,
          labelAt_cons_of_some (child?_merge_of_some he), hf]
      | some other =>
        rw [labelAt_cons_of_some hf, ← ih, labelAt_cons_of_some (child?_merge_of_some he), hf]

/-! ## Fresh elements -/

/-- Elements are not changed by what adds nothing to any of them. -/
theorem mergeEach_eq_self {cs ds : List (Slot × Element)}
    (h : ∀ c ∈ cs, ∀ other, Keyed.get? c.1 ds = some other → c.2.merge other = c.2) :
    mergeEach cs ds = cs := by
  induction cs with
  | nil => rfl
  | cons c rest ih =>
    obtain ⟨slot, child⟩ := c
    rw [mergeEach, ih fun c hc => h c (List.mem_cons_of_mem _ hc)]
    cases ho : Keyed.get? slot ds with
    | none => rfl
    | some other => exact congrArg (fun x => (slot, x) :: rest) (h _ List.mem_cons_self other ho)

/-- An element is not changed by a blank one whose slots it fills with what is not changed. -/
theorem merge_eq_self {e f : Element} (hl : f.label = .blank)
    (hk : ∀ slot ∈ Keyed.keys f.children, slot ∈ Keyed.keys e.children)
    (h : ∀ c ∈ e.children, ∀ other, f.child? c.1 = some other → c.2.merge other = c.2) :
    e.merge f = e := by
  obtain ⟨as, type, cs⟩ := e
  obtain ⟨bs, type', ds⟩ := f
  cases hl
  have hd : (ds.filter fun c => !(Keyed.get? c.1 cs).isSome) = [] :=
    List.filter_eq_nil_iff.2 fun c hc => by
      simp [Keyed.get?_isSome_iff.2 (hk c.1 (List.mem_map_of_mem hc))]
  rw [merge, mergeEach_eq_self h, hd]
  simp

/-- Merging an element without content changes nothing. -/
theorem merge_bare (e : Element) : e.merge bare = e :=
  merge_eq_self rfl (by simp [bare, Keyed.keys]) (by simp [bare, child?, Keyed.get?])

/-- Merging a new block into a block changes nothing. -/
theorem Shaped.merge_freshBlock {e : Element} (h : e.Shaped .block) : e.merge freshBlock = e := by
  refine merge_eq_self rfl h.filled fun c _ other ho => ?_
  have := Keyed.mem_of_get? ho
  simp only [freshBlock, List.mem_singleton, Prod.mk.injEq] at this
  rw [this.2, merge_bare]

/-- A fresh element adds nothing to one of its kind. -/
theorem Shaped.merge_fresh {e : Element} (h : e.Shaped kind) : e.merge (fresh kind) = e := by
  cases kind with
  | block => exact h.merge_freshBlock
  | method =>
    refine merge_eq_self rfl h.filled fun c hc other ho => ?_
    have := Keyed.mem_of_get? ho
    simp only [fresh, List.mem_cons, Prod.mk.injEq, List.not_mem_nil, or_false] at this
    rcases this with ⟨-, rfl⟩ | ⟨-, rfl⟩ | ⟨hs, rfl⟩
    · exact merge_bare c.2
    · exact merge_bare c.2
    · have hb := h.children c hc
      rw [hs] at hb
      exact hb.merge_freshBlock
  | scene | package | typeUse | cast | code | «variable» | typeDecl => exact merge_bare e

/-! ## Changes -/

/-- A change of a slot that no element fills does not matter. -/
theorem mergeEach_upsert_of_not_mem {slot : Slot} {cs : List (Slot × Element)}
    (h : slot ∉ Keyed.keys cs) (new : Element) (f : Element → Element)
    (ds : List (Slot × Element)) :
    mergeEach cs (Keyed.upsert slot new f ds) = mergeEach cs ds := by
  induction cs with
  | nil => rfl
  | cons c rest ih =>
    obtain ⟨s, child⟩ := c
    simp only [Keyed.keys, List.map_cons, List.mem_cons, not_or] at h
    rw [mergeEach, mergeEach, Keyed.get?_upsert_of_ne h.1, ih h.2]

/-- A change of a slot among the others is a change of the merged element in that slot. -/
theorem mergeEach_upsert {slot : Slot} {cs ds : List (Slot × Element)} {new child : Element}
    {f : Element → Element} (hn : (Keyed.keys cs).Nodup) (hc : Keyed.get? slot cs = some child)
    (h : f (match Keyed.get? slot ds with
        | some other => child.merge other
        | none => child) = child.merge (f ((Keyed.get? slot ds).getD new))) :
    mergeEach cs (Keyed.upsert slot new f ds) =
      Keyed.upsert slot new f (mergeEach cs ds) := by
  induction cs with
  | nil => simp [Keyed.get?] at hc
  | cons c rest ih =>
    obtain ⟨s, other⟩ := c
    rw [Keyed.keys, List.map_cons, List.nodup_cons] at hn
    by_cases hs : s = slot
    · subst hs
      simp only [Keyed.get?, if_true, Option.some.injEq] at hc
      subst hc
      simp only [mergeEach, Keyed.upsert, if_true, Keyed.get?_upsert_self, h,
        mergeEach_upsert_of_not_mem hn.1]
    · simp only [Keyed.get?, if_neg hs] at hc
      rw [mergeEach, mergeEach, Keyed.get?_upsert_of_ne (Ne.symm hs), ih hn.2 hc, Keyed.upsert,
        if_neg hs]

/-- A change of the second element is a change of the union, if it is one for the elements that
stand at the path itself. -/
theorem modifyAt_merge {f : Element → Element} {path : Path} {e : Element} (he : e.Shaped kind)
    (hf : ∀ x, e.at? path = some x → ∀ y, f (x.merge y) = x.merge (f y)) (g : Element) :
    modifyAt f path (e.merge g) = e.merge (modifyAt f path g) := by
  induction path generalizing e g kind with
  | nil => exact hf e rfl g
  | cons slot rest ih =>
    obtain ⟨as, type, cs⟩ := e
    obtain ⟨bs, type', ds⟩ := g
    simp only [modifyAt, merge, mk.injEq, true_and]
    cases hc : Keyed.get? slot cs with
    | some child =>
      have hchild : (⟨as, type, cs⟩ : Element).child? slot = some child := hc
      have hmem : slot ∈ Keyed.keys (mergeEach cs ds) := by
        rw [keys_mergeEach]
        exact Keyed.get?_isSome_iff.1 (by rw [hc]; rfl)
      have ih' := fun g => ih (he.child hchild)
        (fun x hx => hf x (by rw [at?_cons, hchild]; exact hx)) g
      rw [Keyed.upsert_append_of_mem _ _ hmem, mergeEach_upsert he.distinct hc,
        Keyed.filter_upsert_of_neg (p := fun s => !(Keyed.get? s cs).isSome) (by simp [hc])]
      cases hd : Keyed.get? slot ds with
      | some other => exact ih' other
      | none =>
        have := ih' (fresh slot.kind)
        rwa [(he.child hchild).merge_fresh] at this
    | none =>
      have hmem : slot ∉ Keyed.keys (mergeEach cs ds) := by
        rw [keys_mergeEach]
        exact Keyed.get?_eq_none_iff.1 hc
      rw [Keyed.upsert_append_of_not_mem _ _ hmem,
        mergeEach_upsert_of_not_mem (by rwa [keys_mergeEach] at hmem),
        Keyed.filter_upsert_of_pos (p := fun s => !(Keyed.get? s cs).isSome) (by simp [hc])]

end Element

end AnnotationIndex
