import AnnotationIndex.Proofs.Element.Prune
import AnnotationIndex.Writer

/-!
# Changing annotations

A function of annotations is applied to all annotations in a tree (`Element.map`). It changes labels
only, commutes with pruning (`Element.prune_map`), and does not change what is written when it does
not change the text of annotations (`Scene.declarationLines_map`).
-/

namespace AnnotationIndex

namespace Element

mutual

/-- The element with all annotations in it changed. -/
def map (f : Annotation → Annotation) : Element → Element
  | ⟨annotations, castType, children⟩ => ⟨annotations.map f, castType, mapEach f children⟩

/-- The elements with all annotations in them changed. -/
def mapEach (f : Annotation → Annotation) : List (Slot × Element) → List (Slot × Element)
  | [] => []
  | (slot, child) :: rest => (slot, child.map f) :: mapEach f rest

end

variable {f : Annotation → Annotation}

/-- Children are changed each by itself. -/
theorem mapEach_eq (cs : List (Slot × Element)) :
    mapEach f cs = cs.map fun c => (c.1, c.2.map f) := by
  induction cs with
  | nil => rfl
  | cons c cs ih => rw [mapEach, ih, List.map_cons]

/-- The annotations of an element are changed one by one. -/
@[simp] theorem annotations_map (e : Element) : (e.map f).annotations = e.annotations.map f := by
  cases e
  rfl

/-- The type of a cast stays. -/
@[simp] theorem castType_map (e : Element) : (e.map f).castType = e.castType := by
  cases e
  rfl

/-- The children stay in their slots. -/
@[simp] theorem children_map (e : Element) :
    (e.map f).children = e.children.map fun c => (c.1, c.2.map f) := by
  cases e
  exact mapEach_eq _

/-- A child of a changed element is a changed child. -/
@[simp] theorem child?_map (e : Element) (slot : Slot) :
    (e.map f).child? slot = (e.child? slot).map (map f) := by
  rw [child?, children_map, Keyed.get?_map slot (fun _ => map f), child?]

/-- An element of a changed tree is a changed element. -/
theorem at?_map (e : Element) (path : Path) : (e.map f).at? path = (e.at? path).map (map f) := by
  induction path generalizing e with
  | nil => rfl
  | cons slot rest ih =>
    rw [at?_cons, at?_cons, child?_map]
    cases e.child? slot with
    | none => rfl
    | some child => exact ih child

/-- A label of a changed tree is that of the tree with its annotations changed. -/
theorem labelAt_map (e : Element) (path : Path) : (e.map f).labelAt path =
    ⟨(e.labelAt path).annotations.map f, (e.labelAt path).castType⟩ := by
  rw [labelAt, labelAt, at?_map]
  cases e.at? path with
  | none => rfl
  | some x => simp [label]

/-- The tree keeps its shape. -/
theorem Shaped.map {kind : Kind} {e : Element} (h : e.Shaped kind) : (e.map f).Shaped kind := by
  induction h with
  | mk unmarked cast distinct filled owned _ ih =>
    rw [Element.map, mapEach_eq]
    refine .mk (fun hk => by rw [unmarked hk, List.map_nil]) cast ?_ ?_ ?_ ?_
    · simpa [Keyed.keys, Function.comp_def] using distinct
    · simpa [Keyed.keys, Function.comp_def] using filled
    · exact List.forall_mem_map.2 owned
    · exact List.forall_mem_map.2 ih

/-- An element stays annotated, or not. -/
@[simp] theorem isAnnotated_map (e : Element) : (e.map f).isAnnotated = e.isAnnotated := by
  induction e using induct with
  | h e ih =>
    obtain ⟨as, type, cs⟩ := e
    have hcs : anyAnnotated (mapEach f cs) = anyAnnotated cs := by
      rw [Bool.eq_iff_iff, anyAnnotated_iff, anyAnnotated_iff, mapEach_eq]
      simp only [List.mem_map, exists_exists_and_eq_and]
      exact exists_congr fun c => and_congr_right fun hc => by rw [ih c hc]
    rw [map, isAnnotated, isAnnotated, hcs, List.isEmpty_map]

/-- Changing annotations and pruning can be exchanged. -/
theorem prune_map (e : Element) : (e.map f).prune = e.prune.map f := by
  induction e using induct with
  | h e ih =>
    obtain ⟨as, type, cs⟩ := e
    rw [map, prune, prune, map, pruneAll_eq, pruneAll_eq, mapEach_eq, mapEach_eq, List.filter_map,
      List.map_map, List.map_map]
    simp only [Function.comp_def, isAnnotated_map]
    congr 1
    exact List.map_congr_left fun c hc => by rw [ih c (List.mem_filter.1 hc).1]

/-! ## Lines -/

variable (hf : ∀ a, (f a).text = a.text)

include hf

/-- A change that does not show in texts does not show in headers. -/
theorem headerText_map (header : String) (as : List Annotation) (castType : Option String) :
    headerText header (as.map f) castType = headerText header as castType := by
  simp only [headerText, List.map_map, Function.comp_def, hf]

/-- What is written about an element stays. -/
theorem lines_map (e : Element) : ∀ (slot : Slot) (depth : Nat),
    (e.map f).lines slot depth = e.lines slot depth := by
  induction e using induct with
  | h e ih =>
    intro slot depth
    obtain ⟨as, type, cs⟩ := e
    have hcs : ∀ xs ⊆ cs, ∀ depth, linesBySlot slot depth (mapEach f xs) =
        linesBySlot slot depth xs := by
      intro xs hxs depth
      induction xs with
      | nil => rfl
      | cons c rest ihrest =>
        obtain ⟨hc, hrest⟩ := List.cons_subset.1 hxs
        rw [mapEach, linesBySlot, linesBySlot, ihrest hrest, ih c hc]
    have hshown : (if slot.kind.isMarked then as.map f else []) =
        (if slot.kind.isMarked then as else []).map f := by
      split <;> rfl
    rw [map, lines, lines]
    simp only [hcs cs (List.Subset.refl cs), hshown, headerText_map hf, List.isEmpty_map]

end Element

namespace Scene

/-! ## Changing packages and classes one by one -/

section
variable {s t : Scene} {f : Slot → Element → Element}
  (h : t.root.children = s.root.children.map fun c => (c.1, f c.1 c.2))

include h

/-- Packages change when the children of the scene do. -/
theorem packages_of_children :
    t.packages = s.packages.map fun p => (p.1, f (.package p.1) p.2) := by
  rw [packages, packages, h, List.filterMap_map, List.map_filterMap]
  refine List.filterMap_congr fun c _ => ?_
  obtain ⟨slot, e⟩ := c
  cases slot <;> rfl

/-- Classes change when the children of the scene do. -/
theorem classes_of_children :
    t.classes = s.classes.map fun c => (c.1, f (.typeDecl c.1) c.2) := by
  rw [classes, classes, h, List.filterMap_map, List.map_filterMap]
  refine List.filterMap_congr fun c _ => ?_
  obtain ⟨slot, e⟩ := c
  cases slot <;> rfl

/-- A change of packages and classes one by one that shows in no header of a package and in no lines
of a class does not show in the lines of the scene. -/
theorem declarationLines_of_children
    (hpackage : ∀ name (e : Element) header,
      headerText header (f (.package name) e).annotations none =
        headerText header e.annotations none)
    (hclass : ∀ name (e : Element), (f (.typeDecl name) e).lines (.typeDecl name) 0 =
      e.lines (.typeDecl name) 0) :
    t.declarationLines = s.declarationLines := by
  have hnames : t.packageNames = s.packageNames := by
    simp only [packageNames, packages_of_children h, classes_of_children h, List.map_map,
      Function.comp_def]
  have hlines : ∀ name, t.packageLines name = s.packageLines name := by
    intro name
    have hat : t.at? [.package name] = (s.at? [.package name]).map (f (.package name)) := by
      rw [at?, at?, Element.at?_cons, Element.at?_cons, Element.child?, h, Keyed.get?_map,
        Element.child?]
      cases Keyed.get? (.package name) s.root.children <;> rfl
    rw [packageLines, packageLines, hat, classes_of_children h]
    cases s.at? [.package name] with
    | none => simp [List.filter_map, List.flatMap_map, Function.comp_def, hclass]
    | some e => simp [List.filter_map, List.flatMap_map, Function.comp_def, hclass, hpackage]
  rw [declarationLines, declarationLines, hnames, funext hlines]

end

/-! ## Changing annotations of a scene -/

/-- The scene with all annotations changed. -/
def map (f : Annotation → Annotation) (s : Scene) : Scene := { s with root := s.root.map f }

variable {f : Annotation → Annotation}

/-- Changing the annotations of a scene and pruning it can be exchanged. -/
theorem prune_map (s : Scene) : (s.map f).prune = s.prune.map f :=
  congrArg (Scene.mk · s.imports) s.root.prune_map

/-- **A change that does not show in the text of annotations does not show in the lines** of the
packages and classes of a scene. -/
theorem declarationLines_map (hf : ∀ a, (f a).text = a.text) (s : Scene) :
    (s.map f).declarationLines = s.declarationLines := by
  refine declarationLines_of_children (f := fun _ => Element.map f) s.root.children_map
    (fun _ e header => ?_) fun _ e => e.lines_map hf _ _
  rw [Element.annotations_map, Element.headerText_map hf]

end Scene

end AnnotationIndex
