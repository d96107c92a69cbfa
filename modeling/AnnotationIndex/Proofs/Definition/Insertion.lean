import AnnotationIndex.Proofs.Annotation.Set
import AnnotationIndex.Proofs.Definition.Completeness
import AnnotationIndex.Proofs.Reading

/-!
# Elements and annotations in another order

Elements may be created and annotations added in any order (`Scene.insertAll`): what is present at a
path afterwards was there before or has been added there (`Scene.mem_labelAt_insertAll_iff`). So
definitions can be collected in one order exactly when they can in another
(`Scene.exists_definitions_insertAll_perm`).
-/

namespace AnnotationIndex

namespace Scene

/-- The scene with an element at the path, and with the annotation on it if one is given. -/
def insertAt (s : Scene) (path : Path) (mark? : Option Annotation) : Scene :=
  s.modifyAt path (mark?.elim id Element.annotate)

/-- The scene after insertions, one after the other. -/
def insertAll (s : Scene) (xs : List (Path × Option Annotation)) : Scene :=
  xs.foldl (fun s x => s.insertAt x.1 x.2) s

/-- The annotation is at the path in the scene, or is among those that are inserted there. -/
def Present (s : Scene) (xs : List (Path × Option Annotation)) (path : Path) (a : Annotation) :
    Prop :=
  a ∈ (s.root.labelAt path).annotations ∨ (path, some a) ∈ xs

/-- At no path two different annotations are equal, which would make a set drop the later one. -/
def Separate (s : Scene) (xs : List (Path × Option Annotation)) : Prop :=
  ∀ path a b, s.Present xs path a → s.Present xs path b → a.beq b = true → a = b

variable {s : Scene} {xs ys : List (Path × Option Annotation)}

/-- One insertion adds its annotation at its path. -/
theorem mem_labelAt_insertAt_iff {path : Path} {mark? : Option Annotation}
    (h : ∀ a ∈ mark?, ∀ b ∈ (s.root.labelAt path).annotations, b.beq a = true → b = a)
    {other : Path} {b : Annotation} :
    b ∈ ((s.insertAt path mark?).root.labelAt other).annotations ↔
      b ∈ (s.root.labelAt other).annotations ∨ (other, some b) = (path, mark?) := by
  have hchildren : ∀ e : Element, (mark?.elim id Element.annotate e).children = e.children := by
    cases mark? <;> exact fun _ => rfl
  rw [insertAt, modifyAt, Element.labelAt_modifyAt hchildren, Prod.mk.injEq]
  split
  · next hpath =>
    subst hpath
    have hreach : (s.root.reach path).annotations = (s.root.labelAt path).annotations :=
      congrArg Label.annotations (s.root.label_reach path)
    cases mark? with
    | none => simp [Element.label, hreach]
    | some a =>
      rw [← hreach] at h ⊢
      simpa [Element.label, Element.annotate] using AnnotationSet.mem_insert_iff (h a rfl)
  · next hpath => simp [Ne.symm hpath]

/-- **After insertions an annotation is where it was or where it has been inserted**, whatever the
order. -/
theorem mem_labelAt_insertAll_iff (h : s.Separate xs) {path : Path} {a : Annotation} :
    a ∈ ((s.insertAll xs).root.labelAt path).annotations ↔ s.Present xs path a := by
  induction xs generalizing s with
  | nil => simp [insertAll, Present]
  | cons x xs ih =>
    -- what is present stays the same when the first insertion is made
    have hpresent : ∀ path a,
        (s.insertAt x.1 x.2).Present xs path a ↔ s.Present (x :: xs) path a := by
      intro path a
      rw [Present, mem_labelAt_insertAt_iff fun a ha b hb =>
        h x.1 b a (.inl hb) (.inr (by simp [← Option.mem_def.1 ha])), Present, List.mem_cons,
        or_assoc]
    have hseparate : (s.insertAt x.1 x.2).Separate xs := fun path a b ha hb =>
      h path a b ((hpresent path a).1 ha) ((hpresent path b).1 hb)
    rw [← hpresent]
    exact ih hseparate

/-- A scene keeps its shape under insertions at paths that exist. -/
theorem Shaped.insertAll (h : s.Shaped)
    (hx : ∀ x ∈ xs, Kind.scene.hasPath x.1 = true ∧ x.1 ≠ []) : (s.insertAll xs).Shaped := by
  induction xs generalizing s with
  | nil => exact h
  | cons x xs ih =>
    obtain ⟨⟨hp, hne⟩, hx⟩ := List.forall_mem_cons.1 hx
    refine ih (s := s.insertAt x.1 x.2) ?_ hx
    rw [insertAt]
    cases x.2 with
    | none => exact Element.Shaped.modifyAt (fun _ he => he) hp h
    | some a => exact h.annotate hp hne a

/-- After insertions in another order the scene uses the same annotations. -/
theorem uses_insertAll_perm (hs : s.Shaped) (hp : xs.Perm ys)
    (hx : ∀ x ∈ xs, Kind.scene.hasPath x.1 = true ∧ x.1 ≠ []) (h : s.Separate xs) (a : Annotation) :
    (s.insertAll ys).Uses a ↔ (s.insertAll xs).Uses a := by
  have hpresent : ∀ path a, s.Present ys path a ↔ s.Present xs path a := fun path a => by
    rw [Present, Present, hp.mem_iff]
  have hys : s.Separate ys := fun path a b ha hb =>
    h path a b ((hpresent path a).1 ha) ((hpresent path b).1 hb)
  rw [(hs.insertAll fun y hy => hx y (hp.mem_iff.2 hy)).uses_iff, (hs.insertAll hx).uses_iff]
  simp only [mem_labelAt_insertAll_iff h, mem_labelAt_insertAll_iff hys, hpresent]

/-- **Whether definitions can be collected does not depend on the order of insertions**, where
policies are shown. -/
theorem exists_definitions_insertAll_perm (hs : s.Shaped) (hp : xs.Perm ys)
    (hx : ∀ x ∈ xs, Kind.scene.hasPath x.1 = true ∧ x.1 ≠ []) (h : s.Separate xs)
    (hd : (s.insertAll xs).Distinct) (ha : (s.insertAll xs).Acyclic)
    (hn : ∀ d, (s.insertAll xs).Reaches d → ∀ a ∈ d.metas, a.NaNFree)
    (hshown : (s.insertAll xs).PoliciesShown) :
    (∃ ds, (s.insertAll ys).definitions = .ok ds) ↔ ∃ ds, (s.insertAll xs).definitions = .ok ds :=
  exists_definitions_of_uses hd ha hn hshown (uses_insertAll_perm hs hp hx h)

end Scene

end AnnotationIndex
