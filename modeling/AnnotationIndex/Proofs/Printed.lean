import AnnotationIndex.Proofs.Arrangement

/-!
# What is printed of a scene

The text of the packages and classes of a scene consists of lines about elements. A line holds the
header of its element and a colon, and after them the annotations of the element and the type that
it casts to (`Scene.Prints`). The elements that have a place in an index have one line each if they
are annotated, and no element has two (`Scene.Placed.prints`), because what is said of a tree is
said at different paths (`Element.nodup_paths_said`) and is what the labels there say
(`Element.label_of_mem_said`).
-/

namespace AnnotationIndex

namespace Said

/-- The paths to the elements of which something is said, in order. -/
def paths (said : Said) : List Path := said.map (·.1)

/-- Something is said of an element when its label comes with what is said. -/
theorem mem_paths_of_notes {said : Said} {path : Path} (h : said.notes path ≠ []) :
    path ∈ said.paths := by
  obtain ⟨note, hnote⟩ := List.exists_mem_of_ne_nil _ h
  obtain ⟨x, hx, hnote⟩ := List.mem_flatMap.1 hnote
  split at hnote
  · next hp => exact hp ▸ List.mem_map_of_mem hx
  · cases hnote

end Said

/-! ## Lines of a tree -/

namespace Element

/-- What is said of several elements is said of one of them, at a path that starts with its slot. -/
theorem mem_saidOfEach_iff {cs : List (Slot × Element)} {x : Path × Label} :
    x ∈ saidOfEach cs ↔ ∃ c ∈ cs, ∃ y ∈ c.2.said c.1, x = (c.1 :: y.1, y.2) := by
  simp only [saidOfEach, Said.under, List.mem_flatMap, List.mem_map, List.singleton_append, eq_comm]

/-- What is said of elements in different slots is said at different paths, if that is so for each
of them. -/
theorem nodup_paths_saidOfEach {cs : List (Slot × Element)} (hn : (Keyed.keys cs).Nodup)
    (h : ∀ c ∈ cs, (c.2.said c.1).paths.Nodup) : (saidOfEach cs).paths.Nodup := by
  rw [saidOfEach, Said.paths, List.map_flatMap, List.nodup_flatMap]
  constructor
  · intro c hc
    have hpaths : (Said.under [c.1] (c.2.said c.1)).map (·.1) =
        (c.2.said c.1).paths.map (c.1 :: ·) := by
      simp [Said.under, Said.paths]
    rw [hpaths]
    exact (h c hc).map List.cons_injective
  · -- the first slot of a path tells which of the elements it leads to
    refine (List.pairwise_map.1 hn).imp fun {c d} hne path hc hd => hne ?_
    obtain ⟨x, hx, rfl⟩ := List.mem_map.1 hc
    obtain ⟨y, hy, hxy⟩ := List.mem_map.1 hd
    obtain ⟨_, -, rfl⟩ := List.mem_map.1 hx
    obtain ⟨_, -, rfl⟩ := List.mem_map.1 hy
    exact (List.cons.inj hxy).1.symm

variable {slot : Slot} {e : Element}

/-- What is said of a tree that has a place is said at different paths. -/
theorem nodup_paths_said (hw : e.Placed slot) (hp : slot.Proper) : (e.said slot).paths.Nodup := by
  induction hw with
  | @mk slot e label distinct links placed ih =>
    have hw : e.Placed slot := .mk label distinct links placed
    have hinside : (saidOfEach (written slot e.children)).paths.Nodup :=
      nodup_paths_saidOfEach hw.nodup_written fun c hc =>
        ih c (mem_of_mem_written hc) (links c (mem_of_mem_written hc)).2.2
    rcases hp.heading with hplain | ⟨header, hh⟩
    · rwa [said_of_plain hplain]
    · by_cases hs : e.Silent slot
      · rw [said_of_silent hh hs]
        exact List.nodup_nil
      · rw [said_of_header hw hh hs]
        refine List.nodup_cons.2 ⟨fun hmem => ?_, hinside⟩
        obtain ⟨x, hx, hnil⟩ := List.mem_map.1 hmem
        obtain ⟨c, -, y, -, rfl⟩ := mem_saidOfEach_iff.1 hx
        cases hnil

/-- What is said of a tree that has a place is said of an element in it, with its label. -/
theorem exists_of_mem_said (hw : e.Placed slot) (hp : slot.Proper) {x : Path × Label}
    (hx : x ∈ e.said slot) : ∃ y, e.at? x.1 = some y ∧ x.2 = y.label := by
  induction hw generalizing x with
  | @mk slot e label distinct links placed ih =>
    have hw : e.Placed slot := .mk label distinct links placed
    have hinside : ∀ x ∈ saidOfEach (written slot e.children),
        ∃ y, e.at? x.1 = some y ∧ x.2 = y.label := by
      intro x hx
      obtain ⟨c, hc, z, hz, rfl⟩ := mem_saidOfEach_iff.1 hx
      have hmem := mem_of_mem_written hc
      have hchild : e.child? c.1 = some c.2 := Keyed.get?_of_mem distinct hmem
      rw [at?_cons, hchild]
      exact ih c hmem (links c hmem).2.2 hz
    rcases hp.heading with hplain | ⟨header, hh⟩
    · rw [said_of_plain hplain] at hx
      exact hinside x hx
    · by_cases hs : e.Silent slot
      · rw [said_of_silent hh hs] at hx
        cases hx
      · rw [said_of_header hw hh hs] at hx
        rcases List.mem_cons.1 hx with rfl | hx
        · exact ⟨e, rfl, rfl⟩
        · exact hinside x hx

/-- Pruning leaves a tree in place. -/
theorem Placed.prune : ∀ {slot : Slot}, e.Placed slot → e.Shaped slot.kind →
    e.prune.Placed slot := by
  induction e using Element.induct with
  | h e ih =>
    intro slot h hs
    refine .mk (e.label_prune ▸ h.label) (Element.nodup_keys_prune hs) (fun c hc => ?_)
      fun c hc => ?_
    · obtain ⟨child, hmem, -⟩ := Element.mem_children_prune_iff.1 hc
      exact h.links (c.1, child) hmem
    · obtain ⟨child, hmem, -, hp⟩ := Element.mem_children_prune_iff.1 hc
      rw [hp]
      exact ih _ hmem (h.children _ hmem) (hs.children _ hmem)

end Element

/-! ## Headers -/

namespace Path

/-- The header of the element that the path leads to. -/
def header (path : Path) : String := (path.getLast?.map Slot.headerOrEmpty).getD ""

/-- How deep that header is indented: one level for each header around it. -/
def depth (path : Path) : Nat := path.dropLast.foldl (fun depth slot => slot.depthInside depth) 0

end Path

/-- The line about an element has the depth and the header that the path to it tells. -/
theorem Slot.lineAt_eq (slot : Slot) (depth : Nat) (path : Path) (l : Label) :
    slot.lineAt depth path l =
      ⟨(slot :: path).dropLast.foldl (fun depth slot => slot.depthInside depth) depth,
        headerText (Path.header (slot :: path)) l.annotations l.castType⟩ := by
  induction path generalizing slot depth with
  | nil => rfl
  | cons inner path ih =>
    rw [lineAt, ih]
    simp [Path.header]

namespace Layout

/-- The text of several lists of lines is the texts of the lists one after the other. -/
theorem text_append (layout : Layout) (lines lines' : List Line) :
    layout.text (lines ++ lines') = layout.text lines ++ layout.text lines' := by
  induction lines with
  | nil => simp [text]
  | cons l lines ih => rw [List.cons_append, text, text, ih, String.append_assoc]

/-- The text of lines is the text of each, one after the other. -/
theorem text_eq_join (layout : Layout) (lines : List Line) :
    layout.text lines = String.join (lines.map layout.line) := by
  induction lines with
  | nil => rfl
  | cons l lines ih => rw [text, ih, List.map_cons, String.join_cons]

/-- The text of lines is put together from the texts of their parts. -/
theorem text_flatMap {α : Type} (layout : Layout) (f : α → List Line) (l : List α) :
    layout.text (l.flatMap f) = String.join (l.map fun x => layout.text (f x)) := by
  induction l with
  | nil => rfl
  | cons x l ih => rw [List.flatMap_cons, text_append, ih, List.map_cons, String.join_cons]

end Layout

namespace Scene

variable {s : Scene}

/-! ## Lines of packages -/

/-- What the lines of a package and its classes say, in their order. The package has a line even
when it carries nothing. -/
def saidOf (s : Scene) (name : String) : Said :=
  ([.package name], ⟨(s.root.labelAt [.package name]).annotations, none⟩) ::
    Element.saidOfEach ((s.classesOf name).map fun c => (.typeDecl c.1, c.2))

/-- The lines of a package are determined by what they say, with an empty line at the end. -/
theorem packageLines_eq_map (s : Scene) (name : String) :
    s.packageLines name = ((s.saidOf name).map fun x => ⟨Path.depth x.1,
      headerText (Path.header x.1) x.2.annotations x.2.castType⟩) ++ [.blank] := by
  have hannotations : ((s.root.child? (.package name)).map (·.annotations)).getD [] =
      (s.root.labelAt [.package name]).annotations := by
    rw [Element.labelAt, Element.at?_cons]
    cases s.root.child? (.package name) <;> rfl
  have hclasses : (s.classesOf name).flatMap (fun c => c.2.lines (.typeDecl c.1) 0) =
      (Element.saidOfEach ((s.classesOf name).map fun c => (.typeDecl c.1, c.2))).map fun x =>
        ⟨Path.depth x.1, headerText (Path.header x.1) x.2.annotations x.2.castType⟩ := by
    rw [Element.saidOfEach, List.map_flatMap, List.flatMap_map]
    refine List.flatMap_congr fun c _ => ?_
    rw [Element.lines_eq, Said.under, List.map_map]
    exact List.map_congr_left fun x _ => Slot.lineAt_eq ..
  rw [packageLines_eq, hannotations, hclasses, saidOf, List.map_cons, List.cons_append]
  rfl

/-- A package is no cast. -/
theorem Placed.castType_package (h : s.Placed) {name : String} {e : Element}
    (hc : s.root.child? (.package name) = some e) : e.castType = none :=
  (h.placed _ (Keyed.mem_of_get? hc)).castType_eq_none Kind.noConfusion

/-- What is said of a package and its classes is said of an element in one of its classes or of the
package, which may be absent. -/
theorem mem_saidOf (hw : s.Placed) {name : String} {x : Path × Label} (hx : x ∈ s.saidOf name) :
    ((∃ y, s.at? x.1 = some y ∧ x.2 = y.label) ∨
      s.at? [.package name] = none ∧ x = ([.package name], .blank)) ∧
    ∃ slot rest, x.1 = slot :: rest ∧
      (slot = .package name ∨ ∃ n, slot = .typeDecl n ∧ (splitQualified n).1 = name) := by
  rcases List.mem_cons.1 hx with rfl | hx
  · refine ⟨?_, _, [], rfl, .inl rfl⟩
    rw [at?, Element.at?_singleton]
    cases hc : s.root.child? (.package name) with
    | none => exact .inr ⟨rfl, by rw [Element.labelAt_cons_of_none hc]; rfl⟩
    | some e =>
      exact .inl ⟨e, rfl, by rw [Element.labelAt_cons_of_some hc, Element.labelAt_nil,
        Element.label, hw.castType_package hc]⟩
  · obtain ⟨c, hc, z, hz, rfl⟩ := Element.mem_saidOfEach_iff.1 hx
    obtain ⟨d, hd, rfl⟩ := List.mem_map.1 hc
    obtain ⟨hclass, hname⟩ := List.mem_filter.1 hd
    have hmem := mem_classes_iff.1 hclass
    have hchild : s.root.child? (.typeDecl d.1) = some d.2 := Keyed.get?_of_mem hw.distinct hmem
    refine ⟨.inl ?_, _, z.1, rfl, .inr ⟨d.1, rfl, of_decide_eq_true hname⟩⟩
    rw [at?, Element.at?_cons, hchild]
    exact Element.exists_of_mem_said (hw.placed _ hmem) (hw.top _ hmem).2 hz

/-- Classes have different names. -/
theorem nodup_names_classes (hn : (Keyed.keys s.root.children).Nodup) :
    (s.classes.map (·.1)).Nodup := by
  rw [names_classes]
  refine hn.filterMap fun a b name ha hb => ?_
  cases a <;> cases ha
  cases b <;> cases hb
  rfl

/-- What the lines of a package and its classes say, they say at different paths. -/
theorem nodup_paths_saidOf (hw : s.Placed) (name : String) : (s.saidOf name).paths.Nodup := by
  refine List.nodup_cons.2 ⟨fun hmem => ?_, Element.nodup_paths_saidOfEach ?_ fun c hc => ?_⟩
  · obtain ⟨x, hx, hpath⟩ := List.mem_map.1 hmem
    obtain ⟨c, hc, y, -, rfl⟩ := Element.mem_saidOfEach_iff.1 hx
    obtain ⟨d, -, rfl⟩ := List.mem_map.1 hc
    cases hpath
  · have hkeys : Keyed.keys ((s.classesOf name).map fun c => (Slot.typeDecl c.1, c.2)) =
        ((s.classesOf name).map (·.1)).map .typeDecl := by
      simp [Keyed.keys, Function.comp_def]
    rw [hkeys]
    exact ((List.filter_sublist.map _).nodup (nodup_names_classes hw.distinct)).map
      fun _ _ => Slot.typeDecl.inj
  · obtain ⟨d, hd, rfl⟩ := List.mem_map.1 hc
    have hmem := mem_classes_iff.1 (List.mem_of_mem_filter hd)
    exact Element.nodup_paths_said (hw.placed _ hmem) (hw.top _ hmem).2

/-! ## Lines of a scene -/

/-- No two lines of a scene are about one element. -/
theorem nodup_paths_packageNames (hw : s.Placed) :
    (s.packageNames.map fun name => (s.saidOf name).paths).flatten.Nodup := by
  rw [← List.flatMap_def, List.nodup_flatMap]
  refine ⟨fun name _ => nodup_paths_saidOf hw name, ?_⟩
  -- the first slot of a path tells the package
  refine s.nodup_packageNames.imp fun {m n} hne path hm hn => hne ?_
  obtain ⟨x, hx, rfl⟩ := List.mem_map.1 hm
  obtain ⟨y, hy, hxy⟩ := List.mem_map.1 hn
  obtain ⟨-, a, rest, ha, hm⟩ := mem_saidOf hw hx
  obtain ⟨-, b, rest', hb, hn⟩ := mem_saidOf hw hy
  obtain ⟨rfl, -⟩ := List.cons.inj (ha.symm.trans (hxy.symm.trans hb))
  rcases hm with rfl | ⟨k, rfl, rfl⟩ <;> rcases hn with hn | ⟨l, hn, hl⟩ <;> cases hn
  · rfl
  · exact hl

/-- The lines of a package say the same as the package and its classes. -/
theorem Placed.notes_saidOf (h : s.Placed) (name : String) (path : Path) :
    (s.saidOf name).notes path = (Element.saidOfEach (s.members name)).notes path := by
  rw [members, Element.saidOfEach_append, h.said_package, Said.notes_append, saidOf, Said.notes,
    List.flatMap_cons]
  refine congrArg₂ (· ++ ·) ?_ rfl
  cases he : s.root.child? (.package name) with
  | none =>
    rw [Element.labelAt_cons_of_none he]
    simp [Label.blank, Label.notes, Said.notes]
  | some e =>
    rw [Element.labelAt_cons_of_some he]
    simp [Said.notes, Element.label, h.castType_package he]

/-- Some line is about each element with annotations. -/
theorem Placed.mem_paths (h : s.Placed) {path : Path}
    (ha : (s.root.labelAt path).annotations ≠ []) :
    path ∈ (s.packageNames.map fun name => (s.saidOf name).paths).flatten := by
  have hnotes :
      Said.notes (s.packageNames.flatMap s.saidOf) path = (s.root.labelAt path).notes := by
    rw [← notes_said h, said, listed, Element.saidOfEach, Said.notes, Said.notes,
      List.flatMap_assoc, List.flatMap_assoc, List.flatMap_assoc]
    refine List.flatMap_congr fun name _ => (h.notes_saidOf name path).trans ?_
    rw [Element.saidOfEach, Said.notes, List.flatMap_assoc]
  have hsaid : Said.notes (s.packageNames.flatMap s.saidOf) path ≠ [] := by
    simp [hnotes, Label.notes, ha]
  have hmem := Said.mem_paths_of_notes hsaid
  rwa [Said.paths, List.map_flatMap, List.flatMap_def] at hmem

/-- Pruning a scene is pruning its tree. -/
theorem root_prune (s : Scene) : s.prune.root = s.root.prune := rfl

/-- Pruning leaves a scene in place. -/
theorem Placed.prune (h : s.Placed) (hs : s.Shaped) : s.prune.Placed := by
  have hr : s.root.Shaped .scene := hs
  have hmem : ∀ c ∈ s.root.prune.children, ∃ child, (c.1, child) ∈ s.root.children ∧
      c.2 = child.prune := fun c hc => by
    obtain ⟨child, hmem, -, hp⟩ := Element.mem_children_prune_iff.1 hc
    exact ⟨child, hmem, hp⟩
  refine ⟨(Element.label_prune _).trans h.blank, Element.nodup_keys_prune hr, fun c hc => ?_,
    fun c hc => ?_⟩
  · obtain ⟨child, hchild, -⟩ := hmem c hc
    exact h.top (c.1, child) hchild
  · obtain ⟨child, hchild, hp⟩ := hmem c hc
    rw [hp]
    exact (h.placed _ hchild).prune (hr.children _ hchild)

/-- What the lines of a pruned scene say is what the labels of the scene say. -/
theorem Placed.label_of_mem_saidOf_prune (h : s.Placed) (hs : s.Shaped) {name : String}
    {x : Path × Label} (hx : x ∈ s.prune.saidOf name) : x.2 = s.root.labelAt x.1 := by
  rcases (mem_saidOf (h.prune hs) hx).1 with ⟨y, hy, hlabel⟩ | ⟨hnone, rfl⟩
  · obtain ⟨z, hz, rfl⟩ := Element.exists_eq_prune_of_at?_prune hs hy
    rw [hlabel, Element.label_prune, Element.labelAt, hz]
  · have hannotations := Element.annotations_labelAt_prune hs [.package name]
    rw [at?, root_prune, Element.at?_singleton] at hnone
    rw [Element.labelAt_cons_of_none hnone] at hannotations
    cases hc : s.root.child? (.package name) with
    | none => rw [Element.labelAt_cons_of_none hc]
    | some e =>
      rw [Element.labelAt_cons_of_some hc] at hannotations ⊢
      exact congrArg₂ Label.mk hannotations (h.castType_package hc).symm

/-- The text consists of blocks of lines, each with an empty line at the end. A line is about one
element: it has the header of the element and a colon, then a blank and the text of each of its
annotations, then a blank and the type that it casts to. No two lines are about one element, and
some line is about each element with annotations. -/
def Prints (s : Scene) (layout : Layout) (text : String) : Prop :=
  ∃ blocks : List (List Path), blocks.flatten.Nodup ∧
    (∀ path, (s.root.labelAt path).annotations ≠ [] → path ∈ blocks.flatten) ∧
    text = String.join (blocks.map fun paths => String.join (paths.map fun path =>
      layout.indent path.depth ++ path.header ++ ":" ++
        String.join ((s.root.labelAt path).annotations.map fun a => " " ++ a.text) ++
        ((s.root.labelAt path).castType.map fun type => " " ++ type).getD "" ++ "\n") ++ "\n")

/-- **The text of a placed scene shows every annotation once**, in the line of its element. -/
theorem Placed.prints (h : s.Placed) (hs : s.Shaped) (layout : Layout) :
    s.Prints layout (layout.text s.prune.declarationLines) := by
  have hpruned := h.prune hs
  refine ⟨s.prune.packageNames.map fun name => (s.prune.saidOf name).paths,
    nodup_paths_packageNames hpruned, fun path ha => hpruned.mem_paths ?_, ?_⟩
  · rwa [root_prune, Element.annotations_labelAt_prune hs]
  · rw [declarationLines, layout.text_flatMap, List.map_map]
    refine congrArg String.join (List.map_congr_left fun name _ => ?_)
    have hblank : layout.text [.blank] = "\n" := by
      obtain ⟨width, style⟩ := layout
      cases style <;> simp [Layout.text, Layout.line, Layout.indent, Line.blank]
    rw [packageLines_eq_map, layout.text_append, layout.text_eq_join, hblank, Function.comp_apply,
      Said.paths, List.map_map, List.map_map]
    refine congrArg (String.join · ++ "\n") (List.map_congr_left fun x hx => ?_)
    simp only [Function.comp_apply, Layout.line, headerText, h.label_of_mem_saidOf_prune hs hx]
    cases (s.root.labelAt x.1).castType <;> simp [String.append_assoc]

end Scene

end AnnotationIndex
