import AnnotationIndex.Proofs.Reading

/-!
# The order of what is written

A text that is written of a scene lists packages and classes, and what belongs to each element,
family by family, but keeps the order within a family (`Element.slots_said`). The scene that is read
from it therefore has the order of the text (`Scene.Relisted`), and once a scene is in such an
order, writing it again changes nothing (`Scene.Relisted.said_eq`,
`Scene.Relisted.declarationLines_eq`).
-/

namespace AnnotationIndex

/-- Only one of the elements gives anything. -/
theorem flatMap_eq_of_unique {α β : Type} {l : List α} {f : α → List β} {a : α} (hn : l.Nodup)
    (ha : a ∈ l) (h : ∀ b ∈ l, b ≠ a → f b = []) : l.flatMap f = f a := by
  induction l with
  | nil => cases ha
  | cons b l ih =>
    obtain ⟨hb, hl⟩ := List.nodup_cons.1 hn
    rw [List.flatMap_cons]
    rcases List.mem_cons.1 ha with rfl | ha
    · have hrest : ∀ c ∈ l, f c = [] := fun c hc =>
        h c (List.mem_cons_of_mem _ hc) fun he => hb (he ▸ hc)
      rw [List.flatMap_eq_nil_iff.2 hrest, List.append_nil]
    · rw [h b List.mem_cons_self fun he => hb (he ▸ ha), List.nil_append]
      exact ih hl ha fun c hc => h c (List.mem_cons_of_mem _ hc)

/-- Arranged entries of a family are those of the family, in their order. -/
theorem filter_arrange {α : Type} {order : List Family} (ho : order.Nodup)
    {entries : List (Slot × α)} (hmem : ∀ c ∈ entries, c.1.family ∈ order) (family : Family) :
    (arrange order entries).filter (fun c => c.1.family = family) =
      entries.filter fun c => c.1.family = family := by
  by_cases hf : family ∈ order
  · rw [arrange, List.filter_flatMap, flatMap_eq_of_unique ho hf]
    · simp
    · intro g _ hne
      rw [List.filter_filter, List.filter_eq_nil_iff]
      intro c _ hc
      simp only [Bool.and_eq_true, decide_eq_true_eq] at hc
      exact hne (hc.2.symm.trans hc.1)
  · have hnone : entries.filter (fun c => c.1.family = family) = [] :=
      List.filter_eq_nil_iff.2 fun c hc hfam => hf (of_decide_eq_true hfam ▸ hmem c hc)
    rw [hnone, List.filter_eq_nil_iff]
    intro c hc hfam
    exact List.filter_eq_nil_iff.1 hnone c (mem_arrange_iff.1 hc).1 hfam

/-- A slot that is always filled is the only one of its family. -/
theorem Slot.eq_of_isOwned {a b : Slot} (ha : a.isOwned = true) (h : b.family = a.family) :
    b = a := by
  cases a <;> cases ha <;> cases b <;> cases h <;> rfl

/-- Lists without repetition that have the same element, if any, are equal. -/
theorem eq_of_subsingleton {α : Type} {xs ys : List α} (hx : xs.Nodup) (hy : ys.Nodup)
    (h : ∀ a, a ∈ xs ↔ a ∈ ys) (hs : ∀ a ∈ xs, ∀ b ∈ xs, a = b) : xs = ys := by
  have hperm := (List.perm_ext_iff_of_nodup hx hy).2 h
  cases xs with
  | nil => exact hperm.nil_eq
  | cons a xs =>
    cases xs with
    | nil => exact List.singleton_perm.1 hperm
    | cons b xs =>
      have hab := hs a (by simp) b (by simp)
      simp [hab] at hx

namespace Element

variable {slot : Slot} {e : Element}

/-- What an element says of the slots below it is what its content says. -/
theorem next_said (hw : e.Placed slot) (hp : slot.Proper) (path : Path) :
    (e.said slot).next path = (saidOfEach (written slot e.children)).next path := by
  rcases hp.heading with hplain | ⟨header, hh⟩
  · rw [said_of_plain hplain]
  · by_cases hs : e.Silent slot
    · rw [said_of_silent hh hs, hs.2.2]
    · rw [said_of_header hw hh hs, Said.next_cons]
      cases path <;> rfl

/-- Something is said of an element that is annotated. -/
theorem said_ne_nil (hw : e.Placed slot) (hp : slot.Proper) (hs : e.Shaped slot.kind)
    (ha : e.isAnnotated = true) : e.said slot ≠ [] := by
  obtain ⟨path, hpath⟩ := (isAnnotated_iff hs).1 ha
  intro hnil
  have hnotes := notes_said hw hp path
  rw [hnil] at hnotes
  have hblank : (e.labelAt path).notes = [] := hnotes.symm
  simp only [Label.notes, List.append_eq_nil_iff, List.map_eq_nil_iff] at hblank
  exact hpath hblank.1

/-- The slots that are always filled are the owned ones among the slots of an element. -/
theorem mem_filled_iff_isOwned (hs : e.Shaped slot.kind) {c : Slot × Element}
    (hc : c ∈ e.children) : c.1 ∈ slot.kind.filled ↔ c.1.isOwned = true := by
  rw [Kind.mem_filled_iff, hs.owned c hc]
  simp

/-- In what is said of a pruned element, the slots that are not always filled are met as they are
written. -/
theorem meetAll_next (hw : e.Placed slot) (hs : e.Shaped slot.kind) (hp : e.prune = e) :
    meetAll slot.kind.filled ((saidOfEach (written slot e.children)).next []) =
      slot.kind.filled ++
        ((written slot e.children).filter fun c => !c.1.isOwned).map (·.1) := by
  have hsaid : ∀ c ∈ e.children, c.1.isOwned = false → c.2.said c.1 ≠ [] := fun c hc ho =>
    said_ne_nil (hw.children c hc) (hw.links c hc).2.2 (hs.children c hc)
      (((prune_eq_self_iff hs).1 hp c hc).1.resolve_left (by simp [ho]))
  rw [next_saidOfEach_nil, meetAll_blocks _ _ hw.nodup_written]
  congr 2
  refine List.filter_congr fun c hc => ?_
  have hmem := hw.mem_written_iff.1 hc
  have hfilled := mem_filled_iff_isOwned hs hmem
  cases ho : c.1.isOwned with
  | true => simp [hfilled.2 ho]
  | false => simp [mt hfilled.1 (by simp [ho]), hsaid c hmem ho]

/-- An owned slot is the only one of its family, and always filled. -/
theorem filter_filled_of_isOwned (hs : e.Shaped slot.kind) {a : Slot} (ha : a.isOwned = true) :
    slot.kind.filled.filter (·.family = a.family) =
      (Keyed.keys e.children).filter (·.family = a.family) := by
  have hself : ∀ b : Slot, b.family = a.family → b = a := fun b => Slot.eq_of_isOwned ha
  have hnodup : slot.kind.filled.Nodup := by cases slot.kind <;> decide
  refine eq_of_subsingleton (hnodup.filter _) (hs.distinct.filter _) (fun b => ?_)
    fun b hb d hd => ?_
  · simp only [List.mem_filter, decide_eq_true_eq]
    refine and_congr_left fun hfam => ⟨hs.filled b, fun hb => ?_⟩
    obtain ⟨c, hc, rfl⟩ := List.mem_map.1 hb
    exact (mem_filled_iff_isOwned hs hc).2 (by rw [hself c.1 hfam, ha])
  · rw [hself b (of_decide_eq_true (List.mem_filter.1 hb).2),
      hself d (of_decide_eq_true (List.mem_filter.1 hd).2)]

/-- Of each family, the children are written in their order. -/
theorem filter_written (hw : e.Placed slot) (family : Family) :
    (written slot e.children).filter (·.1.family = family) =
      e.children.filter (·.1.family = family) := by
  have horder : Family.writingOrder.Nodup := by decide
  rw [hw.written_eq]
  exact filter_arrange horder (fun c hc => (hw.links c hc).mem_writingOrder) family

/-- The slots of a pruned element that are met in what is said of it, with those that are always
filled, are in each family its own slots in their order. -/
theorem meetAll_written (hw : e.Placed slot) (hs : e.Shaped slot.kind)
    (hp : e.prune = e) (family : Family) :
    (meetAll slot.kind.filled ((saidOfEach (written slot e.children)).next [])).filter
      (·.family = family) = (Keyed.keys e.children).filter (·.family = family) := by
  rw [meetAll_next hw hs hp, List.filter_append]
  by_cases hf : ∃ a : Slot, a.isOwned = true ∧ a.family = family
  · obtain ⟨a, ha, rfl⟩ := hf
    have hnone : (((written slot e.children).filter fun c => !c.1.isOwned).map (·.1)).filter
        (·.family = a.family) = [] := by
      refine List.filter_eq_nil_iff.2 fun b hb hfam => ?_
      obtain ⟨c, hc, rfl⟩ := List.mem_map.1 hb
      have hown := (List.mem_filter.1 hc).2
      rw [Slot.eq_of_isOwned ha (of_decide_eq_true hfam), ha] at hown
      cases hown
    rw [hnone, List.append_nil, filter_filled_of_isOwned hs ha]
  · have hnone : slot.kind.filled.filter (·.family = family) = [] :=
      List.filter_eq_nil_iff.2 fun b hb hfam =>
        hf ⟨b, (Kind.mem_filled_iff.1 hb).2, of_decide_eq_true hfam⟩
    rw [hnone, List.nil_append, ← keys_filter (·.family = family), ← filter_written hw,
      ← Keyed.keys, ← keys_filter (·.family = family), List.filter_comm, List.filter_eq_self.2]
    intro c hc
    obtain ⟨-, hfam⟩ := List.mem_filter.1 hc
    cases ho : c.1.isOwned with
    | true => exact absurd ⟨c.1, ho, of_decide_eq_true hfam⟩ hf
    | false => rfl

/-- **What is said of an element that has a place shows the order of its slots in each
family.** -/
theorem slots_said (hw : e.Placed slot) (hp : slot.Proper) (hs : e.Shaped slot.kind)
    (hpruned : e.prune = e) (path : Path) (family : Family) :
    (meetAll (slot.kind.after path).filled ((e.said slot).next path)).filter (·.family = family) =
      (e.slotsAt slot.kind path).filter (·.family = family) := by
  induction path generalizing e slot with
  | nil =>
    rw [next_said hw hp]
    exact meetAll_written hw hs hpruned family
  | cons inner rest ih =>
    rw [next_said hw hp, next_saidOfEach_cons hw.nodup_written, hw.get?_written]
    cases hc : e.child? inner with
    | none => rw [slotsAt_cons_of_none hc, Option.elim_none, meetAll_nil]
    | some c =>
      have hmem := Keyed.mem_of_get? hc
      rw [slotsAt_cons_of_some hc, Option.elim_some]
      exact ih (hw.children _ hmem) (hw.links _ hmem).2.2 (hs.child hc)
        ((prune_eq_self_iff hs).1 hpruned _ hmem).2

end Element

/-! ## Packages and classes -/

namespace Slot

/-- The name of the package in the slot. -/
def packageName? : Slot → Option String
  | .package name => some name
  | _ => none

/-- The name of the class in the slot. -/
def className? : Slot → Option String
  | .typeDecl name => some name
  | _ => none

end Slot

namespace Scene

variable {s t : Scene}

/-- The packages of a scene are named by the package slots at its root. -/
theorem names_packages (s : Scene) :
    s.packages.map (·.1) = (Keyed.keys s.root.children).filterMap Slot.packageName? := by
  rw [packages, List.map_filterMap, Keyed.keys, List.filterMap_map]
  congr 1
  funext c
  obtain ⟨slot, e⟩ := c
  cases slot <;> rfl

/-- The classes of a scene are named by the class slots at its root. -/
theorem names_classes (s : Scene) :
    s.classes.map (·.1) = (Keyed.keys s.root.children).filterMap Slot.className? := by
  rw [classes, List.map_filterMap, Keyed.keys, List.filterMap_map]
  congr 1
  funext c
  obtain ⟨slot, e⟩ := c
  cases slot <;> rfl

/-- No package is listed twice. -/
theorem nodup_packageNames (s : Scene) : s.packageNames.Nodup := nodup_eraseDups _

/-- The classes of a package. -/
def classesOf (s : Scene) (package : String) : List (String × Element) :=
  s.classes.filter fun c => (splitQualified c.1).1 = package

/-- The members of a package are its own slot, if it has one, and its classes. -/
theorem keys_members (s : Scene) (name : String) : Keyed.keys (s.members name) =
    ((s.root.child? (.package name)).toList.map fun _ => Slot.package name) ++
      ((s.classesOf name).map (·.1)).map .typeDecl := by
  simp [members, classesOf, Keyed.keys, Function.comp_def]

/-- Among the members of a package is no other package. -/
theorem packageNames_members (s : Scene) (name : String) :
    (Keyed.keys (s.members name)).filterMap Slot.packageName? =
      (s.root.child? (.package name)).toList.map fun _ => name := by
  rw [keys_members, List.filterMap_append, List.filterMap_map, List.filterMap_map]
  cases s.root.child? (.package name) <;> simp [Slot.packageName?]

/-- Among the members of a package its classes are the only ones. -/
theorem classNames_members (s : Scene) (name : String) :
    (Keyed.keys (s.members name)).filterMap Slot.className? = (s.classesOf name).map (·.1) := by
  rw [keys_members, List.filterMap_append, List.filterMap_map, List.filterMap_map]
  cases s.root.child? (.package name) <;> simp [Slot.className?, Function.comp_def]

/-- The lines of a package are its header, its classes and a blank line. -/
theorem packageLines_eq (s : Scene) (name : String) : s.packageLines name =
    ⟨0, headerText (packageHeader name)
      (((s.root.child? (.package name)).map (·.annotations)).getD []) none⟩ ::
      ((s.classesOf name).flatMap (fun c => c.2.lines (.typeDecl c.1) 0) ++ [.blank]) := by
  rw [packageLines, at?, Element.at?_singleton]
  cases s.root.child? (.package name) <;> rfl

/-- A package is named when it has a slot at the root. -/
theorem mem_names_packages_iff {name : String} :
    name ∈ s.packages.map (·.1) ↔ ∃ e, s.root.child? (.package name) = some e := by
  rw [← Option.isSome_iff_exists, Element.child?, Keyed.get?_isSome_iff, names_packages,
    List.mem_filterMap]
  constructor
  · rintro ⟨slot, hs, hname⟩
    cases slot <;> cases hname
    exact hs
  · exact fun hs => ⟨_, hs, rfl⟩

/-- The packages and classes of the first scene are in the order in which those of the second are
written, and each is like the one there. -/
structure Relisted (t s : Scene) : Prop where
  keys : Keyed.keys t.root.children = Keyed.keys s.listed
  child : ∀ slot c, s.root.child? slot = some c →
    ∃ d, t.root.child? slot = some d ∧ Element.Alike slot.kind d c

/-- **A scene that has labels and slots as they are said of a pruned one is relisted.** -/
theorem relisted_of_said (hw : s.Placed) (hs : s.Shaped) (hp : s.root.prune = s.root)
    (hlabels : ∀ path, t.root.labelAt path = s.root.labelAt path)
    (hslots : ∀ path, t.root.slotsAt .scene path =
      meetAll (Kind.scene.after path).filled (s.said.next path)) : t.Relisted s := by
  have hshaped : s.root.Shaped .scene := hs
  have hpruned := (Element.prune_eq_self_iff hshaped).1 hp
  have hkeys : Keyed.keys t.root.children = Keyed.keys s.listed := by
    rw [← Element.slotsAt_nil t.root .scene, hslots, said, Element.next_saidOfEach_nil,
      meetAll_blocks _ _ (nodup_listed hw.distinct), List.filter_eq_self.2]
    · rfl
    · intro c hc
      have hmem := (mem_listed_iff hw).1 hc
      have hann : c.2.isAnnotated = true :=
        (hpruned c hmem).1.resolve_left (by simp [(hw.top c hmem).1.isOwned_eq_false])
      have hsaid := Element.said_ne_nil (hw.placed c hmem) (hw.top c hmem).2
        (hshaped.children c hmem) hann
      simpa [Kind.after, Kind.filled] using hsaid
  refine ⟨hkeys, fun slot c hc => ?_⟩
  have hmem := Keyed.mem_of_get? hc
  have hslot : slot ∈ Keyed.keys t.root.children := by
    rw [hkeys]
    exact List.mem_map_of_mem ((mem_listed_iff hw).2 hmem)
  obtain ⟨d, hd⟩ := Option.isSome_iff_exists.1 (Keyed.get?_isSome_iff.2 hslot)
  refine ⟨d, hd, fun path => ?_, fun path family => ?_⟩
  · have := hlabels (slot :: path)
    rwa [Element.labelAt_cons_of_some hd, Element.labelAt_cons_of_some hc] at this
  · have := hslots (slot :: path)
    rw [Element.slotsAt_cons_of_some hd, said,
      Element.next_saidOfEach_cons (nodup_listed hw.distinct), get?_listed hw, hc,
      Option.elim_some] at this
    rw [this]
    exact Element.slots_said (hw.placed _ hmem) (hw.top _ hmem).2 (hshaped.child hc)
      (hpruned _ hmem).2 path family

namespace Relisted

/-- A scene that lists what another one does has the same slots at its root. -/
theorem child?_isSome_iff (h : t.Relisted s) (hw : s.Placed) (slot : Slot) :
    (t.root.child? slot).isSome ↔ (s.root.child? slot).isSome := by
  rw [Element.child?, Keyed.get?_isSome_iff, h.keys, ← Keyed.get?_isSome_iff, get?_listed hw]

/-- The packages of a scene that lists another one stand in the order in which they are written. -/
theorem names_packages (h : t.Relisted s) : t.packages.map (·.1) =
    s.packageNames.flatMap fun name =>
      (s.root.child? (.package name)).toList.map fun _ => name := by
  rw [Scene.names_packages, h.keys, listed, Keyed.keys, List.map_flatMap, List.filterMap_flatMap]
  exact List.flatMap_congr fun name _ => s.packageNames_members name

/-- The classes of a scene that lists another one stand in the order in which they are written. -/
theorem names_classes (h : t.Relisted s) : t.classes.map (·.1) =
    s.packageNames.flatMap fun name => (s.classesOf name).map (·.1) := by
  rw [Scene.names_classes, h.keys, listed, Keyed.keys, List.map_flatMap, List.filterMap_flatMap]
  exact List.flatMap_congr fun name _ => s.classNames_members name

/-- Packages stay in their order, because those with annotations come first already. -/
theorem packageNames_eq (h : t.Relisted s) (hw : s.Placed) :
    t.packageNames = s.packageNames := by
  let names := s.packages.map (·.1)
  let others := ((s.classes.map fun c => (splitQualified c.1).1).filter (· ∉ names)).eraseDups
  have hnodup : names.Nodup := by
    rw [show names = _ from Scene.names_packages s]
    refine List.Nodup.filterMap (fun a b name ha hb => ?_) hw.distinct
    cases a <;> cases ha
    cases b <;> cases hb
    rfl
  have hsplit : s.packageNames = names ++ others := by
    rw [packageNames, eraseDups_eq_meetAll, meetAll_append, meetAll_of_nodup hnodup, meetAll_eq]
  have hnames : ∀ name, name ∈ names ↔ (s.root.child? (.package name)).toList ≠ [] := fun name => by
    rw [mem_names_packages_iff]
    cases s.root.child? (.package name) <;> simp
  have hothers : ∀ name ∈ others, name ∉ names ∧ s.classesOf name ≠ [] := by
    intro name hname
    obtain ⟨hmem, hnot⟩ := List.mem_filter.1 (List.mem_eraseDups.1 hname)
    obtain ⟨c, hc, rfl⟩ := List.mem_map.1 hmem
    exact ⟨of_decide_eq_true hnot, List.ne_nil_of_mem (List.mem_filter.2 ⟨hc, by simp⟩)⟩
  have hclasses : (t.classes.map fun c => (splitQualified c.1).1) =
      s.packageNames.flatMap fun name => (s.classesOf name).map fun _ => name := by
    have := congrArg (List.map fun n => (splitQualified n).1) h.names_classes
    rw [List.map_map, List.map_flatMap] at this
    refine this.trans (List.flatMap_congr fun name _ => ?_)
    rw [List.map_map]
    exact List.map_congr_left fun c hc => of_decide_eq_true (List.mem_filter.1 hc).2
  have hfirst : (s.packageNames.filter fun name =>
      name ∉ ([] : List String) ∧ (s.root.child? (.package name)).toList ≠ []) = names := by
    rw [hsplit, List.filter_append, List.filter_eq_self.2, List.filter_eq_nil_iff.2,
      List.append_nil]
    · intro name hname
      simpa [← hnames] using (hothers name hname).1
    · intro name hname
      simpa [← hnames] using hname
  have hsecond : (s.packageNames.filter fun name =>
      name ∉ names ∧ s.classesOf name ≠ []) = others := by
    rw [hsplit, List.filter_append, List.filter_eq_nil_iff.2, List.filter_eq_self.2,
      List.nil_append]
    · intro name hname
      simpa using hothers name hname
    · intro name hname
      simp [hname]
  rw [packageNames, h.names_packages, hclasses, eraseDups_eq_meetAll, meetAll_append,
    meetAll_blocks_self (fun name => (s.root.child? (.package name)).toList) s.nodup_packageNames,
    List.nil_append, hfirst, meetAll_blocks_self s.classesOf s.nodup_packageNames, hsecond, hsplit]

/-- A scene that lists another one has the same classes in each of its packages. -/
theorem names_classesOf (h : t.Relisted s) {name : String} (hname : name ∈ s.packageNames) :
    (t.classesOf name).map (·.1) = (s.classesOf name).map (·.1) := by
  have hfilter : ∀ r : Scene, (r.classesOf name).map (·.1) =
      (r.classes.map (·.1)).filter fun n => (splitQualified n).1 = name := fun r => by
    rw [List.filter_map]
    simp only [classesOf, Function.comp_def]
  rw [hfilter t, h.names_classes, List.filter_flatMap,
    flatMap_eq_of_unique s.nodup_packageNames hname]
  · rw [List.filter_eq_self]
    intro n hn
    obtain ⟨c, hc, rfl⟩ := List.mem_map.1 hn
    exact (List.mem_filter.1 hc).2
  · intro other _ hne
    rw [List.filter_eq_nil_iff]
    intro n hn hsplit
    obtain ⟨c, hc, rfl⟩ := List.mem_map.1 hn
    exact hne ((of_decide_eq_true (List.mem_filter.1 hc).2).symm.trans (of_decide_eq_true hsplit))

/-- A scene that lists another one has the same members in each of its packages. -/
theorem keys_members (h : t.Relisted s) (hw : s.Placed) {name : String}
    (hname : name ∈ s.packageNames) :
    Keyed.keys (t.members name) = Keyed.keys (s.members name) := by
  have hpackage := h.child?_isSome_iff hw (.package name)
  rw [Scene.keys_members, Scene.keys_members, h.names_classesOf hname]
  congr 1
  cases hs : s.root.child? (.package name) <;> cases ht : t.root.child? (.package name) <;>
    simp [hs, ht] at hpackage ⊢

/-- What a scene lists that lists another one is at the same slots. -/
theorem keys_listed (h : t.Relisted s) (hw : s.Placed) :
    Keyed.keys t.listed = Keyed.keys s.listed := by
  rw [listed, listed, h.packageNames_eq hw, Keyed.keys, Keyed.keys, List.map_flatMap,
    List.map_flatMap]
  exact List.flatMap_congr fun name hname => h.keys_members hw hname

/-- The same is said of the packages and classes. -/
theorem said_child (h : t.Relisted s) (ht : t.Shaped) (hs : s.Shaped) {c d : Slot × Element}
    (hc : c ∈ t.root.children) (hd : d ∈ s.root.children)
    (he : c.1 = d.1) : c.2.said c.1 = d.2.said d.1 := by
  have htr : t.root.Shaped .scene := ht
  have hsr : s.root.Shaped .scene := hs
  obtain ⟨c', hc', halike⟩ := h.child d.1 d.2 (Keyed.get?_of_mem hsr.distinct hd)
  have hself : c' = c.2 :=
    Option.some.inj (hc'.symm.trans (he ▸ Keyed.get?_of_mem htr.distinct hc))
  rw [he, ← hself]
  exact Element.said_congr halike (htr.child hc') (hsr.children d hd)

/-- **The same is said of a relisted scene**, in the same order. -/
theorem said_eq (h : t.Relisted s) (hw : s.Placed) (ht : t.Shaped) (hs : s.Shaped) :
    t.said = s.said := by
  have htr : t.root.Shaped .scene := ht
  have hsr : s.root.Shaped .scene := hs
  refine Element.saidOfEach_congr (h.keys_listed hw) fun c hc d hd => h.said_child ht hs ?_ ?_
  · obtain ⟨name, -, hc⟩ := List.mem_flatMap.1 hc
    exact ((mem_members_iff htr.distinct).1 hc).1
  · exact (mem_listed_iff hw).1 hd

/-- **A relisted scene is written by the same lines.** -/
theorem declarationLines_eq (h : t.Relisted s) (hw : s.Placed) (ht : t.Shaped) (hs : s.Shaped) :
    t.declarationLines = s.declarationLines := by
  rw [declarationLines, declarationLines, h.packageNames_eq hw]
  refine List.flatMap_congr fun name hname => ?_
  have hclasses : (t.classesOf name).flatMap (fun c => c.2.lines (.typeDecl c.1) 0) =
      (s.classesOf name).flatMap fun c => c.2.lines (.typeDecl c.1) 0 := by
    rw [List.flatMap_def, List.flatMap_def]
    refine congrArg _ (Keyed.map_eq_map (h.names_classesOf hname) fun c hc d hd he => ?_)
    have hct := mem_classes_iff.1 (List.mem_of_mem_filter hc)
    have hds := mem_classes_iff.1 (List.mem_of_mem_filter hd)
    have hsaid := h.said_child ht hs hct hds (congrArg Slot.typeDecl he)
    rw [Element.lines_eq, Element.lines_eq, hsaid, he]
  have hannotations : (t.root.child? (.package name)).map (·.annotations) =
      (s.root.child? (.package name)).map (·.annotations) := by
    cases hc : s.root.child? (.package name) with
    | none =>
      have hnone := (h.child?_isSome_iff hw _).not.2 (Option.not_isSome_iff_eq_none.2 hc)
      rw [Option.not_isSome_iff_eq_none.1 hnone]
    | some c =>
      obtain ⟨d, hd, halike⟩ := h.child _ _ hc
      rw [hd]
      exact congrArg (some ∘ Label.annotations) (halike.labels [])
  rw [packageLines_eq, packageLines_eq, hclasses, hannotations]

/-- A relisted scene is pruned if the scene is. -/
theorem prune_eq (h : t.Relisted s) (hw : s.Placed) (ht : t.Shaped) (hs : s.Shaped)
    (hp : s.root.prune = s.root) : t.root.prune = t.root := by
  have htr : t.root.Shaped .scene := ht
  have hsr : s.root.Shaped .scene := hs
  refine (Element.prune_eq_self_iff htr).2 fun c hc => ?_
  have hsome : (s.root.child? c.1).isSome := by
    rw [← h.child?_isSome_iff hw, Element.child?, Keyed.get?_of_mem htr.distinct hc]
    rfl
  obtain ⟨d, hd⟩ := Option.isSome_iff_exists.1 hsome
  obtain ⟨c', hc', halike⟩ := h.child _ _ hd
  obtain rfl : c' = c.2 := Option.some.inj (hc'.symm.trans (Keyed.get?_of_mem htr.distinct hc))
  obtain ⟨hkept, hpruned⟩ := (Element.prune_eq_self_iff hsr).1 hp _ (Keyed.mem_of_get? hd)
  have hshaped := htr.children c hc
  rw [halike.isAnnotated_iff hshaped (hsr.child hd)]
  exact ⟨hkept, halike.prune_eq_self hshaped (hsr.child hd) hpruned⟩

/-- In a relisted scene no path leads to an element that the scene lacks. -/
theorem exists_at? (h : t.Relisted s) (hw : s.Placed) {path : Path} {e : Element}
    (he : t.at? path = some e) : ∃ c, s.at? path = some c := by
  cases path with
  | nil => exact ⟨s.root, rfl⟩
  | cons slot rest =>
    rw [at?, Element.at?_cons, Option.bind_eq_some_iff] at he
    obtain ⟨d, hd, he⟩ := he
    have hsome : (s.root.child? slot).isSome := by
      rw [← h.child?_isSome_iff hw, hd]
      rfl
    obtain ⟨c, hc⟩ := Option.isSome_iff_exists.1 hsome
    obtain ⟨d', hd', halike⟩ := h.child slot c hc
    cases hd.symm.trans hd'
    obtain ⟨x, hx⟩ := halike.exists_at? he
    exact ⟨x, by rw [at?, Element.at?_cons, hc]; exact hx⟩

end Relisted

end Scene

end AnnotationIndex
