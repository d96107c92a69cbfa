import AnnotationIndex.Proofs.Annotation.Equality
import AnnotationIndex.Proofs.Element.Shape

/-!
# Laws of pruning

Pruning keeps the annotations of every element (`Element.annotations_labelAt_prune`) and leaves out
the elements without any (`Element.mem_keys_prune_iff`). Two trees with equal annotations at every
path are therefore equal when both are pruned (`Element.beq_prune_of_beq`), provided that the types
of their annotated casts are the same. Pruning twice is pruning once (`Element.prune_prune`).
-/

namespace AnnotationIndex.Element

/-! ## Annotated elements -/

/-- One of several children is annotated when some child is. -/
theorem anyAnnotated_iff {cs : List (Slot × Element)} :
    anyAnnotated cs = true ↔ ∃ c ∈ cs, c.2.isAnnotated = true := by
  induction cs with
  | nil => simp [anyAnnotated]
  | cons c cs ih => rw [anyAnnotated, Bool.or_eq_true, ih, List.exists_mem_cons_iff]

/-- There is an annotation at the path or below it. -/
def AnnotatedBelow (e : Element) (path : Path) : Prop :=
  ∃ rest, (e.labelAt (path ++ rest)).annotations ≠ []

/-- What is annotated below a path into a child is so in the child. -/
theorem annotatedBelow_cons_of_some {e child : Element} {slot : Slot}
    (h : e.child? slot = some child) (path : Path) :
    e.AnnotatedBelow (slot :: path) ↔ child.AnnotatedBelow path := by
  simp only [AnnotatedBelow, List.cons_append, labelAt_cons_of_some h]

/-- Nothing is annotated below a path into an empty slot. -/
theorem not_annotatedBelow_cons_of_none {e : Element} {slot : Slot} (h : e.child? slot = none)
    (path : Path) : ¬ e.AnnotatedBelow (slot :: path) := by
  rintro ⟨rest, hne⟩
  rw [List.cons_append, labelAt_cons_of_none h] at hne
  exact hne rfl

/-- Where nothing is annotated at a path or below it, there is no annotation at it. -/
theorem annotations_eq_nil_of_not_annotatedBelow {e : Element} {path : Path}
    (h : ¬ e.AnnotatedBelow path) : (e.labelAt path).annotations = [] := by
  by_contra hne
  exact h ⟨[], by rwa [List.append_nil]⟩

/-- An element is annotated when some path leads to an annotation. -/
theorem isAnnotated_iff {e : Element} : ∀ {kind : Kind}, e.Shaped kind →
    (e.isAnnotated = true ↔ ∃ path, (e.labelAt path).annotations ≠ []) := by
  induction e using induct with
  | h e ih =>
    intro kind he
    obtain ⟨as, type, cs⟩ := e
    rw [isAnnotated, Bool.or_eq_true, anyAnnotated_iff]
    constructor
    · rintro (has | ⟨c, hc, hann⟩)
      · exact ⟨[], by simpa [label] using has⟩
      · obtain ⟨path, hpath⟩ := (ih c hc (he.children c hc)).1 hann
        have hchild : child? ⟨as, type, cs⟩ c.1 = some c.2 := Keyed.get?_of_mem he.distinct hc
        exact ⟨c.1 :: path, by rwa [labelAt_cons_of_some hchild]⟩
    · rintro ⟨path, hpath⟩
      cases path with
      | nil => exact .inl (by simpa [label] using hpath)
      | cons slot rest =>
        cases hchild : child? ⟨as, type, cs⟩ slot with
        | none =>
          rw [labelAt_cons_of_none hchild] at hpath
          exact absurd rfl hpath
        | some child =>
          rw [labelAt_cons_of_some hchild] at hpath
          have hc := Keyed.mem_of_get? hchild
          exact .inr ⟨_, hc, (ih _ hc (he.child hchild)).2 ⟨rest, hpath⟩⟩

/-! ## What pruning keeps -/

/-- Pruning keeps children that are always there or annotated, and prunes each. -/
theorem pruneAll_eq (cs : List (Slot × Element)) : pruneAll cs =
    (cs.filter fun c => c.1.isOwned || c.2.isAnnotated).map fun c => (c.1, c.2.prune) := by
  induction cs with
  | nil => rfl
  | cons c cs ih =>
    rw [pruneAll, List.filter_cons, ih]
    split <;> rfl

/-- Pruning does not touch the label of an element. -/
@[simp] theorem label_prune (e : Element) : e.prune.label = e.label := by
  cases e
  rw [prune]
  rfl

/-- A pruned element has the pruned children that are always there or annotated. -/
theorem children_prune (e : Element) : e.prune.children =
    (e.children.filter fun c => c.1.isOwned || c.2.isAnnotated).map fun c => (c.1, c.2.prune) := by
  cases e
  rw [prune]
  exact pruneAll_eq _

/-- A child that is kept is pruned itself. -/
theorem mem_children_prune_iff {e : Element} {c : Slot × Element} :
    c ∈ e.prune.children ↔ ∃ child, (c.1, child) ∈ e.children ∧
      (c.1.isOwned = true ∨ child.isAnnotated = true) ∧ c.2 = child.prune := by
  obtain ⟨slot, pruned⟩ := c
  rw [children_prune, List.mem_map]
  simp only [List.mem_filter, Bool.or_eq_true, Prod.mk.injEq, Prod.exists]
  constructor
  · rintro ⟨_, child, ⟨hc, hkept⟩, rfl, rfl⟩
    exact ⟨child, hc, hkept, rfl⟩
  · rintro ⟨child, hc, hkept, rfl⟩
    exact ⟨_, child, ⟨hc, hkept⟩, rfl, rfl⟩

variable {kind : Kind} {e : Element}

/-- No two children of a pruned element are in one slot. -/
theorem nodup_keys_prune (h : e.Shaped kind) : (Keyed.keys e.prune.children).Nodup := by
  rw [children_prune, Keyed.keys, List.map_map]
  exact (List.filter_sublist.map _).nodup h.distinct

/-- A child that is always there or annotated is found after pruning, pruned. -/
theorem child?_prune_of_kept (h : e.Shaped kind) {slot : Slot} {child : Element}
    (hc : e.child? slot = some child) (hk : slot.isOwned = true ∨ child.isAnnotated = true) :
    e.prune.child? slot = some child.prune :=
  Keyed.get?_of_mem (nodup_keys_prune h)
    (mem_children_prune_iff.2 ⟨child, Keyed.mem_of_get? hc, hk, rfl⟩)

/-- A child that is found after pruning is one from before, pruned. -/
theorem exists_of_child?_prune (h : e.Shaped kind) {slot : Slot} {pruned : Element}
    (hc : e.prune.child? slot = some pruned) :
    ∃ child, e.child? slot = some child ∧ pruned = child.prune := by
  obtain ⟨child, hmem, -, hp⟩ := mem_children_prune_iff.1 (Keyed.mem_of_get? hc)
  exact ⟨child, Keyed.get?_of_mem h.distinct hmem, hp⟩

/-- What is left by pruning is what was there before, pruned. -/
theorem exists_eq_prune_of_at?_prune (h : e.Shaped kind) {path : Path} {x : Element}
    (hx : e.prune.at? path = some x) : ∃ y, e.at? path = some y ∧ x = y.prune := by
  induction path generalizing e kind with
  | nil => exact ⟨e, rfl, (Option.some.inj hx).symm⟩
  | cons slot rest ih =>
    rw [at?_cons, Option.bind_eq_some_iff] at hx
    obtain ⟨pruned, hpruned, hx⟩ := hx
    obtain ⟨child, hchild, rfl⟩ := exists_of_child?_prune h hpruned
    obtain ⟨y, hy, hp⟩ := ih (h.child hchild) hx
    exact ⟨y, by rw [at?_cons, hchild]; exact hy, hp⟩

/-- An element that is found after pruning was there before. -/
theorem exists_of_at?_prune (h : e.Shaped kind) {path : Path} {x : Element}
    (hx : e.prune.at? path = some x) : ∃ y, e.at? path = some y :=
  (exists_eq_prune_of_at?_prune h hx).imp fun _ hy => hy.1

/-- Nothing is annotated in a slot that is empty once the element is pruned. -/
theorem not_annotatedBelow_of_child?_prune (h : e.Shaped kind) {slot : Slot}
    (hp : e.prune.child? slot = none) (path : Path) : ¬ e.AnnotatedBelow (slot :: path) := by
  cases hc : e.child? slot with
  | none => exact not_annotatedBelow_cons_of_none hc path
  | some child =>
    rw [annotatedBelow_cons_of_some hc]
    rintro ⟨rest, hne⟩
    have hann := (isAnnotated_iff (h.child hc)).2 ⟨_, hne⟩
    exact Option.some_ne_none child.prune ((child?_prune_of_kept h hc (.inr hann)).symm.trans hp)

/-- A label of a pruned element is the one that was there, or blank. -/
theorem labelAt_prune_cases (h : e.Shaped kind) (path : Path) :
    e.prune.labelAt path = e.labelAt path ∨
      e.prune.labelAt path = .blank ∧ ¬ e.AnnotatedBelow path := by
  induction path generalizing e kind with
  | nil => exact .inl (label_prune e)
  | cons slot rest ih =>
    cases hp : e.prune.child? slot with
    | some pruned =>
      obtain ⟨child, hc, rfl⟩ := exists_of_child?_prune h hp
      rw [labelAt_cons_of_some hp, labelAt_cons_of_some hc, annotatedBelow_cons_of_some hc]
      exact ih (h.child hc)
    | none =>
      exact .inr ⟨labelAt_cons_of_none hp rest, not_annotatedBelow_of_child?_prune h hp rest⟩

/-- Pruning keeps all annotations. -/
theorem annotations_labelAt_prune (h : e.Shaped kind) (path : Path) :
    (e.prune.labelAt path).annotations = (e.labelAt path).annotations := by
  rcases labelAt_prune_cases h path with hl | ⟨hl, hbelow⟩
  · rw [hl]
  · rw [hl, annotations_eq_nil_of_not_annotatedBelow hbelow]
    rfl

/-- The slots that are kept are those that are always filled and those in which something is
annotated. -/
theorem mem_keys_prune_iff (h : e.Shaped kind) {slot : Slot} :
    slot ∈ Keyed.keys e.prune.children ↔
      slot ∈ kind.filled ∨ ∃ rest, (e.labelAt (slot :: rest)).annotations ≠ [] := by
  constructor
  · intro hs
    obtain ⟨c, hc, rfl⟩ := List.mem_map.1 hs
    obtain ⟨child, hmem, hkept, -⟩ := mem_children_prune_iff.1 hc
    rcases hkept with ho | ha
    · exact .inl (Kind.mem_filled_iff.2 ⟨h.owned (c.1, child) hmem, ho⟩)
    · obtain ⟨rest, hne⟩ := (isAnnotated_iff (h.children _ hmem)).1 ha
      have hchild : e.child? c.1 = some child := Keyed.get?_of_mem h.distinct hmem
      exact .inr ⟨rest, by rwa [labelAt_cons_of_some hchild]⟩
  · intro hs
    have hchild : ∃ child, e.child? slot = some child := by
      rcases hs with hs | ⟨rest, hne⟩
      · exact Option.isSome_iff_exists.1 (Keyed.get?_isSome_iff.2 (h.filled slot hs))
      · cases hc : e.child? slot with
        | none =>
          rw [labelAt_cons_of_none hc] at hne
          exact absurd rfl hne
        | some child => exact ⟨child, rfl⟩
    obtain ⟨child, hc⟩ := hchild
    have hkept : slot.isOwned = true ∨ child.isAnnotated = true := by
      rcases hs with hs | ⟨rest, hne⟩
      · exact .inl (Kind.mem_filled_iff.1 hs).2
      · rw [labelAt_cons_of_some hc] at hne
        exact .inr ((isAnnotated_iff (h.child hc)).2 ⟨rest, hne⟩)
    exact List.mem_map_of_mem (Keyed.mem_of_get? (child?_prune_of_kept h hc hkept))

/-! ## Pruned trees -/

/-- Pruning keeps the shape. -/
theorem Shaped.prune : ∀ {kind : Kind}, e.Shaped kind → e.prune.Shaped kind := by
  induction e using induct with
  | h e ih =>
    intro kind he
    have hdistinct := nodup_keys_prune he
    have hfilled : ∀ slot ∈ kind.filled, slot ∈ Keyed.keys e.prune.children := fun slot hs =>
      (mem_keys_prune_iff he).2 (.inl hs)
    have hmem : ∀ c ∈ e.prune.children, ∃ child, (c.1, child) ∈ e.children ∧ c.2 = child.prune :=
      fun c hc => by
        obtain ⟨child, hchild, -, hp⟩ := mem_children_prune_iff.1 hc
        exact ⟨child, hchild, hp⟩
    have howned : ∀ c ∈ e.prune.children, kind.owns c.1 = true := fun c hc => by
      obtain ⟨child, hchild, -⟩ := hmem c hc
      exact he.owned (c.1, child) hchild
    have hshaped : ∀ c ∈ e.prune.children, c.2.Shaped c.1.kind := fun c hc => by
      obtain ⟨child, hchild, hp⟩ := hmem c hc
      rw [hp]
      exact ih _ hchild (he.children _ hchild)
    obtain ⟨as, type, cs⟩ := e
    cases he with
    | mk unmarked cast =>
      rw [Element.prune] at hdistinct hfilled howned hshaped ⊢
      exact .mk unmarked cast hdistinct hfilled howned hshaped

/-- Pruning does not change whether anything is annotated. -/
@[simp] theorem isAnnotated_prune (e : Element) : e.prune.isAnnotated = e.isAnnotated := by
  induction e using induct with
  | h e ih =>
    have hkept : anyAnnotated e.prune.children = true ↔ anyAnnotated e.children = true := by
      rw [anyAnnotated_iff, anyAnnotated_iff]
      constructor
      · rintro ⟨c, hc, hann⟩
        obtain ⟨child, hchild, -, hp⟩ := mem_children_prune_iff.1 hc
        exact ⟨_, hchild, by rwa [hp, ih _ hchild] at hann⟩
      · rintro ⟨c, hc, hann⟩
        refine ⟨(c.1, c.2.prune), mem_children_prune_iff.2 ⟨c.2, hc, .inr hann, rfl⟩, ?_⟩
        rwa [ih _ hc]
    obtain ⟨as, type, cs⟩ := e
    rw [Element.prune] at hkept ⊢
    rw [isAnnotated, isAnnotated, Bool.eq_iff_iff, Bool.or_eq_true, Bool.or_eq_true, hkept]

/-- An element is as if pruned when its children are, and none of them would go. -/
theorem prune_eq_self (h : ∀ c ∈ e.children,
    (c.1.isOwned = true ∨ c.2.isAnnotated = true) ∧ c.2.prune = c.2) : e.prune = e := by
  have hchildren : e.prune.children = e.children := by
    rw [children_prune, List.filter_eq_self.2 fun c hc => by simpa using (h c hc).1]
    conv_rhs => rw [← List.map_id e.children]
    exact List.map_congr_left fun c hc => by rw [(h c hc).2]; rfl
  obtain ⟨as, type, cs⟩ := e
  rw [Element.prune] at hchildren ⊢
  exact congrArg _ hchildren

/-- An element is pruned when its children are, and are to be kept. -/
theorem prune_eq_self_iff (he : e.Shaped kind) : e.prune = e ↔ ∀ c ∈ e.children,
    (c.1.isOwned = true ∨ c.2.isAnnotated = true) ∧ c.2.prune = c.2 := by
  refine ⟨fun h c hc => ?_, prune_eq_self⟩
  obtain ⟨child, hchild, hkept, hp⟩ := mem_children_prune_iff.1 (h.symm ▸ hc)
  have hself : child = c.2 :=
    Option.some.inj ((Keyed.get?_of_mem he.distinct hchild).symm.trans
      (Keyed.get?_of_mem he.distinct hc))
  rw [hself] at hkept hp
  exact ⟨hkept, hp.symm⟩

/-- Pruning twice is pruning once. -/
@[simp] theorem prune_prune (e : Element) : e.prune.prune = e.prune := by
  induction e using induct with
  | h e ih =>
    refine prune_eq_self fun c hc => ?_
    obtain ⟨child, hchild, hkept, hp⟩ := mem_children_prune_iff.1 hc
    rw [hp, isAnnotated_prune]
    exact ⟨hkept, ih _ hchild⟩

/-! ## Equality of pruned trees -/

/-- Children are among others when each equals the one in its slot. -/
theorem within_iff {xs ys : List (Slot × Element)} : within xs ys = true ↔
    ∀ c ∈ xs, ∃ other, Keyed.get? c.1 ys = some other ∧ c.2.beq other = true := by
  induction xs with
  | nil => simp [within]
  | cons c xs ih =>
    rw [within, Bool.and_eq_true, ih, List.forall_mem_cons]
    cases Keyed.get? c.1 ys <;> simp

/-- Elements are equal when their annotations, their types and their children are. -/
theorem beq_iff {x y : Element} : x.beq y = true ↔
    AnnotationSet.beq x.annotations y.annotations = true ∧ x.castType = y.castType ∧
      x.children.length = y.children.length ∧
      ∀ c ∈ x.children, ∃ other, y.child? c.1 = some other ∧ c.2.beq other = true := by
  obtain ⟨as, type, cs⟩ := x
  rw [beq, Bool.and_eq_true, Bool.and_eq_true, Bool.and_eq_true, within_iff, and_assoc]
  simp [child?]

/-- **Trees with equal annotations are equal when they are pruned**, if their annotated casts are to
the same types. -/
theorem beq_prune_of_beq {x : Element} : ∀ {y : Element} {kind : Kind}, x.Shaped kind →
    y.Shaped kind → x.castType = y.castType →
    (∀ path, AnnotationSet.beq (x.labelAt path).annotations (y.labelAt path).annotations = true) →
    (∀ path, kind.after path = .cast → x.AnnotatedBelow path →
      (x.labelAt path).castType = (y.labelAt path).castType) → x.prune.beq y.prune = true := by
  induction x using induct with
  | h x ih =>
    intro y kind hx hy hroot hannotations hcasts
    have hlabel : ∀ e : Element,
        e.prune.annotations = e.annotations ∧ e.prune.castType = e.castType := fun e =>
      ⟨congrArg Label.annotations (label_prune e), congrArg Label.castType (label_prune e)⟩
    have hkeys : ∀ slot,
        slot ∈ Keyed.keys x.prune.children ↔ slot ∈ Keyed.keys y.prune.children := by
      intro slot
      rw [mem_keys_prune_iff hx, mem_keys_prune_iff hy]
      simp only [ne_eq, AnnotationSet.eq_nil_iff_of_beq (hannotations _)]
    have hperm := (List.perm_ext_iff_of_nodup (nodup_keys_prune hx) (nodup_keys_prune hy)).2 hkeys
    refine beq_iff.2 ⟨?_, ?_, ?_, fun c hc => ?_⟩
    · rw [(hlabel x).1, (hlabel y).1]
      exact hannotations []
    · rw [(hlabel x).2, (hlabel y).2, hroot]
    · simpa [Keyed.keys] using hperm.length_eq
    · obtain ⟨child, hmem, hkept, hpruned⟩ := mem_children_prune_iff.1 hc
      have hchild : x.child? c.1 = some child := Keyed.get?_of_mem hx.distinct hmem
      obtain ⟨pruned, hother⟩ := Option.isSome_iff_exists.1
        (Keyed.get?_isSome_iff.2 ((hkeys c.1).1 (List.mem_map_of_mem hc)))
      obtain ⟨other, hother', rfl⟩ := exists_of_child?_prune hy hother
      refine ⟨other.prune, hother, ?_⟩
      rw [hpruned]
      refine ih _ hmem (hx.child hchild) (hy.child hother') ?_ (fun path => ?_)
        fun path hk hbelow => ?_
      · by_cases hk : c.1.kind = .cast
        · -- the slot of a cast is not always filled, so that something in the cast is annotated
          have howned : c.1.isOwned = false := by
            generalize c.1 = slot at hk
            cases slot <;> first | rfl | cases hk
          have hann := (isAnnotated_iff (hx.child hchild)).1 (hkept.resolve_left (by simp [howned]))
          have := hcasts [c.1] hk ((annotatedBelow_cons_of_some hchild []).2 hann)
          rwa [labelAt_cons_of_some hchild, labelAt_cons_of_some hother'] at this
        · rw [(hx.child hchild).castType_eq_none hk, (hy.child hother').castType_eq_none hk]
      · have := hannotations (c.1 :: path)
        rwa [labelAt_cons_of_some hchild, labelAt_cons_of_some hother'] at this
      · have := hcasts (c.1 :: path) hk ((annotatedBelow_cons_of_some hchild path).2 hbelow)
        rwa [labelAt_cons_of_some hchild, labelAt_cons_of_some hother'] at this

/-- Trees with the same labels are equal when they are pruned, provided that every annotation in
them equals itself. The labels are compared after the second tree has been pruned. -/
theorem beq_prune {x y : Element} {kind : Kind} (hx : x.Shaped kind) (hy : y.Shaped kind)
    (hlabels : ∀ path, x.labelAt path = y.prune.labelAt path)
    (hself : ∀ path,
      AnnotationSet.beq (x.labelAt path).annotations (x.labelAt path).annotations = true) :
    x.prune.beq y.prune = true := by
  have hannotations : ∀ path, (y.labelAt path).annotations = (x.labelAt path).annotations :=
    fun path => by rw [hlabels, annotations_labelAt_prune hy]
  refine beq_prune_of_beq hx hy ?_ (fun path => hannotations path ▸ hself path)
    fun path _ hbelow => ?_
  · exact congrArg Label.castType ((hlabels []).trans (label_prune y))
  · rw [hlabels]
    rcases labelAt_prune_cases hy path with hl | ⟨-, hnot⟩
    · rw [hl]
    · exact absurd (hbelow.imp fun rest hne => by rwa [hannotations]) hnot

end AnnotationIndex.Element
