import AnnotationIndex.Proofs.Element.Equality

/-!
# Annotations may be added in any order

`Scene.annotateAll` adds annotations at paths, one after the other, and creates what is absent on
the way. Without NaN the order does not count, nor does it that annotations are added again
(`Scene.annotateAll_perm`). For one element this is a law of sets that can be read off what they
contain (`AnnotationSet.Distinct.beq_iff_contains`), and along a path an induction: two changes meet
in the same child, or they leave each other's child alone.
-/

namespace AnnotationIndex

/-! ## Sets -/

/-- An annotation in which nothing occurs twice and that holds no NaN. -/
structure Annotation.Comparable (a : Annotation) : Prop where
  distinct : a.Distinct
  noNaN : a.NowhereNaN

namespace AnnotationSet

variable {s t : List Annotation} {a b : Annotation}

/-- A set in which nothing occurs twice and that holds no NaN. -/
structure Comparable (s : List Annotation) : Prop where
  distinct : Distinct s
  noNaN : ∀ a ∈ s, a.NowhereNaN

/-- A set that can be compared stays so when such an annotation is added. -/
theorem Comparable.insert (hs : Comparable s) (ha : a.Comparable) : Comparable (insert s a) := by
  refine ⟨hs.distinct.insert ha.distinct, ?_⟩
  rw [AnnotationSet.insert]
  split
  · exact hs.noNaN
  · exact List.forall_mem_append.2 ⟨hs.noNaN, by simpa using ha.noNaN⟩

/-- Two sets that can be compared are equal when they contain the same annotations. -/
theorem Comparable.beq_iff (hs : Comparable s) (ht : Comparable t) :
    beq s t = true ↔ ∀ a, contains s a = true ↔ contains t a = true :=
  hs.distinct.beq_iff_contains ht.distinct hs.noNaN ht.noNaN

/-- Equal sets stay equal when the same annotation is added. -/
theorem Comparable.beq_insert (hs : Comparable s) (ht : Comparable t) (ha : a.Comparable)
    (h : beq s t = true) : beq (AnnotationSet.insert s a) (AnnotationSet.insert t a) = true := by
  rw [(hs.insert ha).beq_iff (ht.insert ha)]
  intro b
  rw [contains_insert, contains_insert, (hs.beq_iff ht).1 h b]

/-- Two annotations may be added in either order. -/
theorem Comparable.insert_comm (hs : Comparable s) (ha : a.Comparable) (hb : b.Comparable) :
    beq (AnnotationSet.insert (AnnotationSet.insert s a) b)
      (AnnotationSet.insert (AnnotationSet.insert s b) a) = true := by
  rw [((hs.insert ha).insert hb).beq_iff ((hs.insert hb).insert ha)]
  intro c
  simp only [contains_insert, or_assoc, or_comm (a := b.beq c = true)]

end AnnotationSet

/-! ## Elements -/

namespace Element

variable {x y : Element} {a b : Annotation} {slot : Slot} {path path' : Path}

/-- What holds everywhere in a tree holds there of whatever follows from it. -/
theorem All.mono {P Q : Element → Prop} (h : ∀ e, P e → Q e) (hx : x.All P) : x.All Q := by
  induction hx with
  | mk self _ ih => exact .mk (h _ self) ih

/-- Two things that hold everywhere in a tree hold there together. -/
theorem All.and {P Q : Element → Prop} (hp : x.All P) (hq : x.All Q) :
    x.All fun e => P e ∧ Q e := by
  induction hp with
  | mk self _ ih => exact .mk ⟨self, hq.self⟩ fun c hc => ih c hc (hq.children c hc)

/-- Throughout the tree nothing occurs twice and there is no NaN. -/
def Comparable (e : Element) : Prop :=
  e.All fun x => AnnotationSet.Comparable x.annotations ∧ (Keyed.keys x.children).Nodup

/-- Elements in which nothing occurs twice can be compared when no NaN is in them. -/
theorem Distinct.comparable (h : x.Distinct) (hn : x.NowhereNaN) : x.Comparable :=
  (All.and h hn).mono fun _ h => ⟨⟨h.1.1, h.2⟩, h.1.2⟩

namespace Comparable

/-- In elements that can be compared nothing occurs twice. -/
theorem distinct (h : x.Comparable) : x.Distinct := All.mono (fun _ h => ⟨h.1.distinct, h.2⟩) h

/-- An element that can be compared equals itself. -/
theorem beq_self (h : x.Comparable) : x.beq x = true :=
  NowhereNaN.beq_self (All.mono (fun _ h => h.1.noNaN) h) h.distinct

/-- An element without content can be compared. -/
theorem bare : bare.Comparable := .mk ⟨⟨.empty, nofun⟩, .nil⟩ nofun

/-- A new block can be compared. -/
theorem freshBlock : freshBlock.Comparable := by
  refine .mk ⟨⟨.empty, nofun⟩, by decide⟩ fun c hc => ?_
  simp only [Element.freshBlock, List.mem_singleton] at hc
  exact hc ▸ bare

/-- A new element of any kind can be compared. -/
theorem fresh (kind : Kind) : (fresh kind).Comparable := by
  cases kind with
  | block => exact freshBlock
  | method =>
    refine .mk ⟨⟨.empty, nofun⟩, by decide⟩ fun c hc => ?_
    simp only [Element.fresh, List.mem_cons, List.not_mem_nil, or_false] at hc
    rcases hc with rfl | rfl | rfl
    · exact bare
    · exact bare
    · exact freshBlock
  | scene | package | typeUse | cast | code | «variable» | typeDecl => exact bare

/-- The child in a slot is comparable, also if it has yet to be created. -/
theorem getD_child? (h : x.Comparable) (slot : Slot) :
    ((x.child? slot).getD (Element.fresh slot.kind)).Comparable := by
  cases hc : x.child? slot with
  | none => exact fresh _
  | some child => exact h.children _ (Keyed.mem_of_get? hc)

/-- A change that keeps elements comparable keeps the tree so, wherever it is made. -/
theorem modifyAt {f : Element → Element} (hf : ∀ e, e.Comparable → (f e).Comparable) (path : Path) :
    ∀ {x : Element}, x.Comparable → (x.modifyAt f path).Comparable := by
  induction path with
  | nil => exact fun hx => hf _ hx
  | cons slot rest ih =>
    refine fun hx => .mk ⟨hx.self.1, Keyed.nodup_keys_upsert hx.self.2⟩ fun c hc => ?_
    rcases Keyed.mem_upsert hc with hc | rfl
    · exact hx.children c hc
    · exact ih (hx.getD_child? slot)

/-- Adding an annotation that can be compared keeps an element comparable. -/
theorem annotate (ha : a.Comparable) (e : Element) (he : e.Comparable) :
    (annotate a e).Comparable :=
  .mk ⟨he.self.1.insert ha, he.self.2⟩ he.children

/-- Comparable elements are equal when their annotations are and their slots hold equal elements. -/
theorem beq_iff_child? (hx : x.Comparable) (hy : y.Comparable) : x.beq y = true ↔
    AnnotationSet.beq x.annotations y.annotations = true ∧ x.castType = y.castType ∧
      ∀ slot, Option.Rel (fun c d => c.beq d = true) (x.child? slot) (y.child? slot) := by
  constructor
  · intro h
    obtain ⟨has, htype, -, hchildren⟩ := beq_iff.1 h
    obtain ⟨-, -, -, hchildren'⟩ := beq_iff.1 (hx.distinct.beq_symm h)
    refine ⟨has, htype, fun slot => ?_⟩
    cases hc : x.child? slot with
    | some c =>
      obtain ⟨d, hd, hcd⟩ := hchildren _ (Keyed.mem_of_get? hc)
      rw [hd]
      exact .some hcd
    | none =>
      cases hd : y.child? slot with
      | none => exact .none
      | some d =>
        obtain ⟨c, hc', -⟩ := hchildren' _ (Keyed.mem_of_get? hd)
        exact absurd (hc.symm.trans hc') (Option.some_ne_none c).symm
  · rintro ⟨has, htype, hslots⟩
    have hkeys : ∀ slot, slot ∈ Keyed.keys x.children ↔ slot ∈ Keyed.keys y.children := by
      intro slot
      have h : Option.Rel _ (Keyed.get? slot x.children) (Keyed.get? slot y.children) := hslots slot
      rw [← Keyed.get?_isSome_iff, ← Keyed.get?_isSome_iff]
      generalize Keyed.get? slot x.children = c, Keyed.get? slot y.children = d at h
      cases h <;> simp
    have hperm := (List.perm_ext_iff_of_nodup hx.self.2 hy.self.2).2 hkeys
    refine beq_iff.2 ⟨has, htype, by simpa [Keyed.keys] using hperm.length_eq, fun c hc => ?_⟩
    have hslot := hslots c.1
    rw [show x.child? c.1 = some c.2 from Keyed.get?_of_mem hx.self.2 hc] at hslot
    generalize y.child? c.1 = d at hslot
    cases hslot with
    | some hcd => exact ⟨_, rfl, hcd⟩

/-- The children in a slot of equal elements are equal, also if they have yet to be created. -/
theorem beq_getD_child? (hx : x.Comparable) (hy : y.Comparable) (h : x.beq y = true) (slot : Slot) :
    ((x.child? slot).getD (Element.fresh slot.kind)).beq
      ((y.child? slot).getD (Element.fresh slot.kind)) = true := by
  have h := ((hx.beq_iff_child? hy).1 h).2.2 slot
  generalize x.child? slot = c, y.child? slot = d at h
  cases h with
  | none => exact (fresh _).beq_self
  | some hcd => exact hcd

/-! ### Adding annotations -/

/-- Equal elements stay equal when the same annotation is added at the same path. -/
theorem beq_modifyAt (ha : a.Comparable) (path : Path) :
    ∀ {x y : Element}, x.Comparable → y.Comparable → x.beq y = true →
    (x.modifyAt (Element.annotate a) path).beq (y.modifyAt (Element.annotate a) path) = true := by
  induction path with
  | nil =>
    intro x y hx hy h
    obtain ⟨has, htype, hslots⟩ := (hx.beq_iff_child? hy).1 h
    exact ((hx.annotate ha).beq_iff_child? (hy.annotate ha)).2
      ⟨hx.self.1.beq_insert hy.self.1 ha has, htype, hslots⟩
  | cons slot rest ih =>
    intro x y hx hy h
    obtain ⟨has, htype, hslots⟩ := (hx.beq_iff_child? hy).1 h
    refine ((hx.modifyAt (annotate ha) _).beq_iff_child? (hy.modifyAt (annotate ha) _)).2
      ⟨has, htype, fun other => ?_⟩
    by_cases hs : slot = other
    · subst hs
      rw [child?_modifyAt_self, child?_modifyAt_self]
      exact .some (ih (hx.getD_child? slot) (hy.getD_child? slot) (hx.beq_getD_child? hy h slot))
    · rw [child?_modifyAt_of_ne _ _ hs, child?_modifyAt_of_ne _ _ hs]
      exact hslots other

/-- The slots of an element hold what equals itself. -/
theorem rel_child? (hx : x.Comparable) (slot : Slot) :
    Option.Rel (fun c d => c.beq d = true) (x.child? slot) (x.child? slot) :=
  ((hx.beq_iff_child? hx).1 hx.beq_self).2.2 slot

/-- Two annotations may be added in either order, wherever their paths lead. -/
theorem modifyAt_comm (ha : a.Comparable) (hb : b.Comparable) (path : Path) :
    ∀ (path' : Path) {x : Element}, x.Comparable →
      ((x.modifyAt (Element.annotate a) path).modifyAt (Element.annotate b) path').beq
        ((x.modifyAt (Element.annotate b) path').modifyAt (Element.annotate a) path) = true := by
  induction path with
  | nil =>
    intro path' x hx
    cases path' with
    | nil =>
      exact (((hx.annotate ha).annotate hb).beq_iff_child? ((hx.annotate hb).annotate ha)).2
        ⟨hx.self.1.insert_comm ha hb, rfl, hx.rel_child?⟩
    | cons slot' rest' => exact ((hx.annotate ha).modifyAt (annotate hb) _).beq_self
  | cons slot rest ih =>
    intro path' x hx
    have hxa := hx.modifyAt (annotate ha) (slot :: rest)
    cases path' with
    | nil => exact (hxa.annotate hb).beq_self
    | cons slot' rest' =>
      have hxb := hx.modifyAt (annotate hb) (slot' :: rest')
      refine ((hxa.modifyAt (annotate hb) _).beq_iff_child? (hxb.modifyAt (annotate ha) _)).2
        ⟨hx.self.1.distinct.beq_self hx.self.1.noNaN, rfl, fun other => ?_⟩
      by_cases hs : slot = other
      · subst hs
        by_cases hs' : slot' = slot
        -- both changes meet in one child
        · subst hs'
          simp only [child?_modifyAt_self, Option.getD_some]
          exact .some (ih rest' (hx.getD_child? slot'))
        · rw [child?_modifyAt_of_ne _ _ hs', child?_modifyAt_self, child?_modifyAt_self,
            child?_modifyAt_of_ne _ _ hs']
          exact .some ((hx.getD_child? slot).modifyAt (annotate ha) rest).beq_self
      · rw [child?_modifyAt_of_ne _ (x.modifyAt _ (slot' :: rest')) hs]
        by_cases hs' : slot' = other
        · subst hs'
          rw [child?_modifyAt_self, child?_modifyAt_self, child?_modifyAt_of_ne _ _ hs]
          exact .some ((hx.getD_child? slot').modifyAt (annotate hb) rest').beq_self
        · rw [child?_modifyAt_of_ne _ _ hs', child?_modifyAt_of_ne _ _ hs',
            child?_modifyAt_of_ne _ _ hs]
          exact hx.rel_child? other

end Comparable

/-- A change that does the same once as twice does so at every path. -/
theorem modifyAt_idem {f : Element → Element} (hf : ∀ e, f (f e) = f e) (path : Path) :
    ∀ x : Element, (x.modifyAt f path).modifyAt f path = x.modifyAt f path := by
  induction path with
  | nil => exact hf
  | cons slot rest ih =>
    intro x
    simp only [modifyAt, Keyed.upsert_upsert, ih]

end Element

/-! ## Scenes -/

namespace Scene

/-- The scene after annotations are added at paths, one after the other. What is absent on the way
is created. -/
def annotateAll (s : Scene) (marks : List (Path × Annotation)) : Scene :=
  marks.foldl (fun s mark => s.modifyAt mark.1 (Element.annotate mark.2)) s

variable {s t : Scene} {mark mark' : Path × Annotation} {marks marks' : List (Path × Annotation)}

/-- Equal scenes stay equal when the same annotations are added. -/
theorem beq_annotateAll (hs : s.root.Comparable) (ht : t.root.Comparable)
    (hm : ∀ m ∈ marks, m.2.Comparable) (h : s.beq t = true) :
    (s.annotateAll marks).beq (t.annotateAll marks) = true := by
  induction marks generalizing s t with
  | nil => exact h
  | cons mark marks ih =>
    rw [List.forall_mem_cons] at hm
    have hkeep := Element.Comparable.annotate hm.1
    exact ih (s := s.modifyAt mark.1 _) (t := t.modifyAt mark.1 _) (hs.modifyAt hkeep _)
      (ht.modifyAt hkeep _) hm.2 (Element.Comparable.beq_modifyAt hm.1 mark.1 hs ht h)

/-- Two orders of the same marks give equal scenes when all that is compared can be compared. -/
theorem annotateAll_beq_of_perm (hp : marks.Perm marks') : ∀ {s : Scene}, s.root.Comparable →
    (∀ m ∈ marks, m.2.Comparable) → (s.annotateAll marks).beq (s.annotateAll marks') = true := by
  induction hp with
  | nil => exact fun hs _ => hs.beq_self
  | cons mark _ ih =>
    intro s hs hm
    rw [List.forall_mem_cons] at hm
    exact ih (s := s.modifyAt mark.1 _) (hs.modifyAt (.annotate hm.1) _) hm.2
  | swap mark mark' rest =>
    intro s hs hm
    rw [List.forall_mem_cons, List.forall_mem_cons] at hm
    obtain ⟨hm', hm, hrest⟩ := hm
    have hkeep := Element.Comparable.annotate hm
    have hkeep' := Element.Comparable.annotate hm'
    exact beq_annotateAll (s := (s.modifyAt mark'.1 _).modifyAt mark.1 _)
      (t := (s.modifyAt mark.1 _).modifyAt mark'.1 _) ((hs.modifyAt hkeep' _).modifyAt hkeep _)
      ((hs.modifyAt hkeep _).modifyAt hkeep' _) hrest
      (Element.Comparable.modifyAt_comm hm' hm mark'.1 mark.1 hs)
  | @trans _ between _ hp _ ih ih' =>
    intro s hs hm
    have hm' : ∀ m ∈ between, m.2.Comparable := fun m hmem => hm m (hp.mem_iff.2 hmem)
    exact Element.beq_trans (ih hs hm) (ih' hs hm')

/-- Adding annotations a second time changes nothing. -/
theorem annotateAll_twice (hs : s.root.Comparable) (hm : ∀ m ∈ marks, m.2.Comparable) :
    (s.annotateAll (marks ++ marks)).beq (s.annotateAll marks) = true := by
  induction marks generalizing s with
  | nil => exact hs.beq_self
  | cons mark marks ih =>
    have hmarks : ∀ m ∈ mark :: marks ++ mark :: marks, m.2.Comparable :=
      List.forall_mem_append.2 ⟨hm, hm⟩
    rw [List.forall_mem_cons] at hm
    obtain ⟨hmark, hrest⟩ := hm
    have hs' : (s.modifyAt mark.1 (Element.annotate mark.2)).root.Comparable :=
      hs.modifyAt (.annotate hmark) _
    -- the second time comes right after the first, where it is lost
    have hperm : (mark :: marks ++ mark :: marks).Perm (mark :: mark :: (marks ++ marks)) :=
      List.perm_middle.cons mark
    refine Element.beq_trans (annotateAll_beq_of_perm hperm hs hmarks) ?_
    have hself : mark.2.beq mark.2 = true := hmark.noNaN.beq_self hmark.distinct
    have honce : (s.modifyAt mark.1 (Element.annotate mark.2)).modifyAt mark.1
        (Element.annotate mark.2) = s.modifyAt mark.1 (Element.annotate mark.2) := by
      refine congrArg (Scene.mk · s.imports) (Element.modifyAt_idem (fun e => ?_) mark.1 s.root)
      simp only [Element.annotate, AnnotationSet.insert_insert_self hself]
    have hfirst : s.annotateAll (mark :: mark :: (marks ++ marks)) =
        (s.modifyAt mark.1 (Element.annotate mark.2)).annotateAll (marks ++ marks) := by
      rw [annotateAll, List.foldl_cons, List.foldl_cons, honce, ← annotateAll]
    rw [hfirst]
    exact ih hs' hrest

/-- **Annotations may be added in any order.** Without NaN, adding annotations at paths in another
order gives an equal scene, and so does adding all of them a second time. -/
theorem annotateAll_perm (s : Scene) (marks marks' : List (Path × Annotation))
    (hs : s.root.Distinct) (hn : s.root.NowhereNaN)
    (hm : ∀ m ∈ marks, m.2.Distinct) (hmn : ∀ m ∈ marks, m.2.NowhereNaN)
    (hp : marks.Perm marks') :
    (s.annotateAll marks).beq (s.annotateAll marks') = true ∧
      (s.annotateAll (marks ++ marks)).beq (s.annotateAll marks) = true := by
  have hcomparable : s.root.Comparable := hs.comparable hn
  have hmarks : ∀ m ∈ marks, m.2.Comparable := fun m h => ⟨hm m h, hmn m h⟩
  exact ⟨annotateAll_beq_of_perm hp hcomparable hmarks, annotateAll_twice hcomparable hmarks⟩

/-! ### A path that begins another, and the two zeros -/

namespace overlapping

/-- An annotation that holds a zero of either sign. -/
def zero (negative : Bool) : Annotation :=
  ⟨⟨"p.Zero", some .runtime, [("value", .basic (.floating .double))], []⟩,
    [("value", .floating .double (.zero .double negative))]⟩

/-- A zero on a field of a class, and zeros of both signs on the class. -/
def additions : List (Path × Annotation) :=
  [([.typeDecl "p.C", .field "f"], zero false), ([.typeDecl "p.C"], zero false),
    ([.typeDecl "p.C"], zero true)]

/-- In the annotation with a zero nothing occurs twice. -/
theorem distinct_zero (negative : Bool) : (zero negative).Distinct := by
  simp [zero, Annotation.Distinct, Definition.Distinct, FieldType.AllDistinct, FieldType.Distinct,
    Annotation.AllDistinct, Value.NamedDistinct, Value.Distinct, Keyed.keys]

/-- The annotation with a zero holds no NaN. -/
theorem nowhereNaN_zero (negative : Bool) : (zero negative).NowhereNaN := by
  refine ⟨?_, fun p hp => ?_⟩
  · simp [zero, Annotation.NaNFree, Value.NamedNaNFree, Value.NaNFree, Floating.zero]
  · simp only [zero, Annotation.parts, Value.partsNamed, Value.parts, List.append_nil,
      List.mem_singleton] at hp
    subst hp
    exact .mk (List.forall_mem_nil _) (by simp [Definition.mentioned, FieldType.annotationType?])

end overlapping

/-- In one order the class has the positive zero, in the other the negative one, and the field comes
before the class or after it. The scenes are equal. -/
theorem annotateAll_perm_overlapping : empty.root.Distinct ∧ empty.root.NowhereNaN ∧
    (∀ m ∈ overlapping.additions, m.2.Distinct) ∧ (∀ m ∈ overlapping.additions, m.2.NowhereNaN) ∧
    overlapping.additions.Perm overlapping.additions.reverse ∧
    (empty.annotateAll overlapping.additions).beq
      (empty.annotateAll overlapping.additions.reverse) = true ∧
    (empty.annotateAll (overlapping.additions ++ overlapping.additions)).beq
      (empty.annotateAll overlapping.additions) = true := by
  have hs : empty.root.Distinct := Element.Comparable.bare.distinct
  have hn : empty.root.NowhereNaN := .mk nofun nofun
  have hm : ∀ m ∈ overlapping.additions, m.2.Distinct := by
    simp [overlapping.additions, overlapping.distinct_zero]
  have hmn : ∀ m ∈ overlapping.additions, m.2.NowhereNaN := by
    simp [overlapping.additions, overlapping.nowhereNaN_zero]
  have hp : overlapping.additions.Perm overlapping.additions.reverse := (List.reverse_perm _).symm
  exact ⟨hs, hn, hm, hmn, hp, annotateAll_perm _ _ _ hs hn hm hmn hp⟩

end Scene

end AnnotationIndex
