import AnnotationIndex.Proofs.Definition.Collection
import AnnotationIndex.Proofs.Element.Placed
import AnnotationIndex.Proofs.Element.Said
import AnnotationIndex.Proofs.Reader.Statement
import AnnotationIndex.Proofs.Section

/-!
# What is written is read back

The lines of an element that can be written (`Element.Writable`) are read as deposits that tell what
is said of the element and of everything inside it (`Element.Writable.readBack`), because every
section finds the element that it is written with. The main statement is `Scene.ofText_text`, on the
text of a whole scene.
-/

namespace AnnotationIndex

open Reader

/-! ## Arranged children -/

/-- The children of an element stand in different slots after one another, and so does what is
written for them. -/
theorem arrange_pairwise {α : Type} {kind : Kind} {children : List (Slot × α)}
    (hn : (Keyed.keys children).Nodup) (ho : ∀ c ∈ children, kind.owns c.1 = true) :
    (arrange Family.writingOrder children).Pairwise fun x y =>
      x.1 ≠ y.1 ∧ x.1.family.last ≤ y.1.family.first := by
  have hdistinct : children.Pairwise fun x y => x.1 ≠ y.1 := List.pairwise_map.1 hn
  have horder : Family.writingOrder.Pairwise fun f g =>
      Family.writingOrder.idxOf f < Family.writingOrder.idxOf g := by decide
  rw [arrange, List.pairwise_flatMap]
  constructor
  · intro family _
    refine (hdistinct.filter _).imp_of_mem fun {x y} hx hy hne => ⟨hne, ?_⟩
    obtain ⟨hx, hfx⟩ := List.mem_filter.1 hx
    obtain ⟨hy, hfy⟩ := List.mem_filter.1 hy
    refine Kind.last_le_first (ho x hx) (ho y hy) hne (Nat.le_of_eq ?_)
    rw [of_decide_eq_true hfx, of_decide_eq_true hfy]
  · refine horder.imp fun {f g} hfg x hx y hy => ?_
    obtain ⟨hx, hfx⟩ := List.mem_filter.1 hx
    obtain ⟨hy, hfy⟩ := List.mem_filter.1 hy
    rw [← of_decide_eq_true hfx, ← of_decide_eq_true hfy] at hfg
    have hne : x.1 ≠ y.1 := fun he => Nat.lt_irrefl _ (he ▸ hfg)
    exact ⟨hne, Kind.last_le_first (ho x hx) (ho y hy) hne hfg.le⟩

/-- Every slot of an element that is written has a place among those that are written with it. -/
theorem Slot.Links.mem_writingOrder {a b : Slot} (h : a.Links b) :
    b.family ∈ Family.writingOrder := by
  obtain ⟨ho, -, -⟩ := h
  cases a <;> cases b <;> first | (cases ho; done) | (simp only [family]; decide)

/-! ## Elements that can be written -/

/-- The element in the slot can be written when the definitions are written before it: what its
labels say has a place, and its children are in slots that are written with it. -/
inductive Element.Writable (ds : List Definition) : Slot → Element → Prop where
  | mk {slot : Slot} {e : Element}
      (typed : ∀ a ∈ e.annotations, a.Typed ds ∧ a.definition.isTopLevel = true)
      (marked : e.annotations ≠ [] → slot.kind.isMarked = true)
      (cast : ∀ type ∈ e.castType, slot.kind = .cast ∧ IsCastType type)
      (distinct : (Keyed.keys e.children).Nodup)
      (links : ∀ c ∈ e.children, slot.Links c.1 ∧ c.1.NoComment)
      (writable : ∀ c ∈ e.children, Writable ds c.1 c.2) : Writable ds slot e

namespace Element

namespace Writable

variable {ds : List Definition} {slot : Slot} {e : Element}

/-- The slots of an element that can be written are written with it, and start no comments. -/
theorem links (h : e.Writable ds slot) : ∀ c ∈ e.children, slot.Links c.1 ∧ c.1.NoComment := by
  cases h with | mk _ _ _ _ h => exact h

/-- The children of an element that can be written can be written. -/
theorem children (h : e.Writable ds slot) : ∀ c ∈ e.children, c.2.Writable ds c.1 := by
  cases h with | mk _ _ _ _ _ h => exact h

/-- What can be written has a place in an index. -/
theorem placed (h : e.Writable ds slot) : e.Placed slot := by
  induction h with
  | mk _ marked cast distinct links _ ih =>
    exact .mk ⟨marked, cast⟩ distinct (fun c hc => (links c hc).1) ih

end Writable

namespace Placed

variable {slot : Slot} {e : Element}

/-- All children of an element that has a place are written, in the order of their families. -/
theorem written_eq (h : e.Placed slot) :
    written slot e.children = arrange Family.writingOrder e.children := by
  rw [written, List.filter_eq_self.2 fun c hc => (h.links c hc).2.1]

/-- Of an element in its place, all children are written. -/
theorem mem_written_iff (h : e.Placed slot) {c : Slot × Element} :
    c ∈ written slot e.children ↔ c ∈ e.children := by
  rw [h.written_eq, mem_arrange_iff,
    and_iff_left_of_imp fun hc => (h.links c hc).mem_writingOrder]

/-- Children are written in different slots, in the order of their sections. -/
theorem written_pairwise (h : e.Placed slot) : (written slot e.children).Pairwise fun x y =>
    x.1 ≠ y.1 ∧ x.1.family.last ≤ y.1.family.first := by
  rw [h.written_eq]
  exact arrange_pairwise h.distinct fun c hc => (h.links c hc).1

/-- No slot is written twice. -/
theorem nodup_written (h : e.Placed slot) : (Keyed.keys (written slot e.children)).Nodup :=
  List.pairwise_map.2 (h.written_pairwise.imp And.left)

/-- A child is found among those that are written. -/
theorem get?_written (h : e.Placed slot) (inner : Slot) :
    Keyed.get? inner (written slot e.children) = e.child? inner :=
  Keyed.get?_eq_of_mem_iff h.nodup_written h.distinct (fun _ => h.mem_written_iff) inner

/-- An element that is not announced says nothing itself. -/
theorem notes_of_plain (h : e.Placed slot) (hp : slot.heading = .plain) :
    e.label.notes = [] := by
  obtain ⟨hm, hk⟩ := Slot.unmarked_of_plain hp
  have htype := h.castType_eq_none hk
  have has : e.annotations = [] := by
    by_contra hne
    rw [h.label.marked hne] at hm
    cases hm
  simp [Element.label, Label.notes, has, htype]

/-- Nothing belongs to a package; its classes belong to the scene. -/
theorem children_package {name : String} (h : e.Placed (.package name)) : e.children = [] := by
  refine List.eq_nil_iff_forall_not_mem.2 fun c hc => ?_
  have ho := (h.links c hc).1
  obtain ⟨slot, child⟩ := c
  cases slot <;> cases ho

end Placed

/-! ## What the lines say -/

/-- Of an element that is not announced, only what belongs to it is said. -/
theorem said_of_plain {slot : Slot} {e : Element} (h : slot.heading = .plain) :
    e.said slot = saidOfEach (written slot e.children) := by
  cases e
  simp only [said, h, saidBySlot_eq]

/-- The lines of an element that is not announced are those of what belongs to it. -/
theorem lines_of_plain {slot : Slot} {e : Element} (h : slot.heading = .plain) (depth : Nat) :
    e.lines slot depth = Line.assemble (linesBySlot slot depth e.children) := by
  cases e
  simp only [lines, h]

/-- Nothing is written of the element in the slot. -/
def Silent (slot : Slot) (e : Element) : Prop :=
  slot.isOptional = true ∧ e.annotations = [] ∧ saidOfEach (written slot e.children) = []

variable {slot : Slot} {e : Element} {header : String}

/-- A cast is never passed over in silence. -/
theorem Silent.kind_ne_cast (h : e.Silent slot) : slot.kind ≠ .cast := by
  obtain ⟨hoptional, -⟩ := h
  cases slot <;> cases hoptional <;> simp [Slot.kind]

/-- An element in its place shows all its annotations. -/
theorem shown_eq (h : e.Placed slot) :
    (if slot.kind.isMarked then e.annotations else []) = e.annotations := by
  by_cases has : e.annotations = []
  · simp [has]
  · rw [if_pos (h.label.marked has)]

/-- Nothing is said of an element that is passed over. -/
theorem said_of_silent (hh : slot.heading = .header header)
    (h : e.Silent slot) : e.said slot = [] := by
  obtain ⟨hoptional, has, hcontents⟩ := h
  obtain ⟨as, type, cs⟩ := e
  simp only at has hcontents
  simp [said, hh, saidBySlot_eq, hoptional, has, hcontents]

/-- Of an element that is announced, its label is said first. -/
theorem said_of_header (hw : e.Placed slot) (hh : slot.heading = .header header)
    (h : ¬e.Silent slot) : e.said slot = ([], e.label) :: saidOfEach (written slot e.children) := by
  obtain ⟨as, type, cs⟩ := e
  have hshown := shown_eq hw
  simp only [Silent, not_and] at h hshown
  simp only [said, hh, hshown, saidBySlot_eq, label]
  rw [if_neg]
  simpa [and_assoc] using h

/-- The lines of an element that is announced start with its header and its label. -/
theorem lines_of_header (hw : e.Placed slot) (hh : slot.heading = .header header)
    (h : ¬e.Silent slot) (depth : Nat) : e.lines slot depth =
      ⟨depth, headerText header e.annotations e.castType⟩ ::
        Line.assemble (linesBySlot slot (depth + 1) e.children) := by
  rw [Silent, ← linesBySlot_eq_nil_iff slot (depth + 1)] at h
  obtain ⟨as, type, cs⟩ := e
  have hshown := shown_eq hw
  simp only [not_and] at h hshown
  simp only [lines, hh, hshown]
  rw [if_neg]
  simpa [and_assoc] using h

/-- **What is said of an element that has a place is what its labels say.** -/
theorem notes_said (hw : e.Placed slot) (hp : slot.Proper) (path : Path) :
    (e.said slot).notes path = (e.labelAt path).notes := by
  induction hw generalizing path with
  | @mk slot e label distinct links placed ih =>
    have hw : e.Placed slot := .mk label distinct links placed
    have hinside : ∀ inner rest, (saidOfEach (written slot e.children)).notes (inner :: rest) =
        (e.labelAt (inner :: rest)).notes := by
      intro inner rest
      rw [notes_saidOfEach_cons hw.nodup_written, hw.get?_written]
      cases hc : e.child? inner with
      | none => rw [labelAt_cons_of_none hc, Option.elim_none, Label.notes_blank]
      | some c =>
        have hmem := Keyed.mem_of_get? hc
        rw [labelAt_cons_of_some hc, Option.elim_some]
        exact ih _ hmem (links _ hmem).2.2 rest
    have hself := notes_saidOfEach_nil (written slot e.children)
    rcases hp.heading with hplain | ⟨header, hh⟩
    · rw [said_of_plain hplain]
      cases path with
      | nil => rw [hself, labelAt_nil, hw.notes_of_plain hplain]
      | cons inner rest => exact hinside inner rest
    · by_cases hs : e.Silent slot
      · rw [said_of_silent hh hs]
        cases path with
        | nil =>
          have htype := hw.castType_eq_none hs.kind_ne_cast
          simp [Said.notes, Element.label, Label.notes, hs.2.1, htype]
        | cons inner rest => rw [← hinside, hs.2.2]
      · rw [said_of_header hw hh hs, Said.notes, List.flatMap_cons]
        cases path with
        | nil => rw [if_pos rfl, ← Said.notes, hself, List.append_nil, labelAt_nil]
        | cons inner rest =>
          rw [if_neg (by simp), List.nil_append]
          exact hinside inner rest

/-! ## The lines are read back -/

variable {scope : Scope}

/-- Wherever the lines of the element in the slot are written with the element around it, they are
read back, and that element stays the one that takes what comes later. -/
def ReadBack (scope : Scope) (inner : Slot) (e : Element) : Prop :=
  ∀ ⦃c : Context⦄ ⦃lead : Path⦄ ⦃slot : Slot⦄ (path : Path) (depth r : Nat)
    (outer frames : List Frame), c.Holds lead slot → slot.Links inner → inner.NoComment →
    Serves c path r outer frames → r ≤ inner.family.first →
    ∃ frames', Says ⟨true, scope, none, frames⟩ (e.lines inner depth) ⟨true, scope, none, frames'⟩
        ((e.said inner).under (path ++ lead ++ [inner])) ∧
      Serves c path inner.family.last outer frames'

/-- Elements that are read back one by one are read back after one another. -/
theorem says_each {c : Context} {lead : Path} {slot : Slot} (hc : c.Holds lead slot)
    {cs : List (Slot × Element)} (hcs : ∀ x ∈ cs, x.2.ReadBack scope x.1)
    (hl : ∀ x ∈ cs, slot.Links x.1 ∧ x.1.NoComment)
    (hp : cs.Pairwise fun x y => x.1.family.last ≤ y.1.family.first) (path : Path)
    (depth : Nat) {r bound : Nat} {outer frames : List Frame} (hs : Serves c path r outer frames)
    (hfirst : ∀ x ∈ cs, r ≤ x.1.family.first) (hlast : ∀ x ∈ cs, x.1.family.last ≤ bound)
    (hb : r ≤ bound) :
    ∃ frames', Says ⟨true, scope, none, frames⟩ (cs.flatMap fun x => x.2.lines x.1 depth)
        ⟨true, scope, none, frames'⟩ ((saidOfEach cs).under (path ++ lead)) ∧
      Serves c path bound outer frames' := by
  induction cs generalizing r frames with
  | nil => exact ⟨frames, .nil _, hs.mono hb⟩
  | cons x cs ih =>
    obtain ⟨hx, hrest⟩ := List.pairwise_cons.1 hp
    obtain ⟨hlinks, hcomment⟩ := hl x List.mem_cons_self
    obtain ⟨frames₁, hstep, hserves⟩ := hcs x List.mem_cons_self path depth r outer frames hc hlinks
      hcomment hs (hfirst x List.mem_cons_self)
    obtain ⟨frames₂, hstep', hserves'⟩ := ih (fun y hy => hcs y (List.mem_cons_of_mem _ hy))
      (fun y hy => hl y (List.mem_cons_of_mem _ hy)) hrest hserves hx
      (fun y hy => hlast y (List.mem_cons_of_mem _ hy)) (hlast x List.mem_cons_self)
    refine ⟨frames₂, ?_, hserves'⟩
    rw [List.flatMap_cons, saidOfEach_cons, Said.under_append, Said.under_under]
    exact hstep.append hstep'

/-- The children of an element are read back as they are written, in the order of their families. -/
theorem says_children {c : Context} {lead : Path} {slot : Slot} (hc : c.Holds lead slot)
    {e : Element} (hw : e.Writable scope.definitions slot)
    (hcs : ∀ x ∈ e.children, x.2.ReadBack scope x.1) (path : Path) (depth : Nat) {r bound : Nat}
    {outer frames : List Frame} (hs : Serves c path r outer frames)
    (hfirst : ∀ x ∈ e.children, r ≤ x.1.family.first)
    (hlast : ∀ x ∈ e.children, x.1.family.last ≤ bound) (hb : r ≤ bound) :
    ∃ frames', Says ⟨true, scope, none, frames⟩
        (Line.assemble (linesBySlot slot depth e.children)) ⟨true, scope, none, frames'⟩
        ((saidOfEach (written slot e.children)).under (path ++ lead)) ∧
      Serves c path bound outer frames' := by
  rw [linesBySlot_eq]
  have hmem {x : Slot × Element} (hx : x ∈ written slot e.children) : x ∈ e.children :=
    hw.placed.mem_written_iff.1 hx
  exact says_each hc (fun x hx => hcs x (hmem hx)) (fun x hx => hw.links x (hmem hx))
    (hw.placed.written_pairwise.imp And.right) path depth hs (fun x hx => hfirst x (hmem hx))
    (fun x hx => hlast x (hmem hx)) hb

/-- What is written with a header about what is inside its element is read back, and afterwards the
element around takes sections as it did after the header. -/
theorem says_inside {c : Context} {slot : Slot} {s : Section} (hs : slot.section? = some s)
    (ht : c.takes s = true) {e : Element} (hw : e.Writable scope.definitions slot)
    (hcs : ∀ x ∈ e.children, x.2.ReadBack scope x.1) (here : Path) {path : Path} (depth : Nat)
    {outer : List Frame} {frame : Frame} (hserves : Serves c path s.rank outer (frame :: outer)) :
    ∃ frames',
      Says ⟨true, scope, none, s.context?.toList.map (Frame.mk · here) ++ frame :: outer⟩
        (Line.assemble (linesBySlot slot depth e.children)) ⟨true, scope, none, frames'⟩
        ((saidOfEach (written slot e.children)).under here) ∧
      Serves c path s.rank outer frames' := by
  cases hc : s.context? with
  | none =>
    have hnil : e.children = [] := by
      refine List.eq_nil_iff_forall_not_mem.2 fun x hx => ?_
      obtain ⟨⟨ho, hshows, -⟩, -⟩ := hw.links x hx
      obtain ⟨inner, child⟩ := x
      cases slot
      case supertype t => rcases Slot.section?_supertype hs with rfl | rfl <;> cases hc
      all_goals
        cases hs <;> cases hc <;> cases inner <;> cases ho <;> cases hshows
    rw [hnil]
    exact ⟨frame :: outer, .nil _, hserves⟩
  | some c' =>
    have hbound : ∀ f : Family, f.last ≤ Family.writingOrder.length := fun f => by
      cases f <;> decide
    obtain ⟨frames', hstep, hserves'⟩ :=
      says_children (.header hs hc) hw hcs here depth (.self c' here (frame :: outer))
        (fun _ _ => Nat.zero_le _) (fun x _ => hbound x.1.family) (Nat.zero_le _)
    rw [List.append_nil] at hstep
    exact ⟨frames', hstep, hserves.leave ht hc hserves'⟩

/-- **An element that can be written is read back.** -/
theorem Writable.readBack (hds : Named scope.definitions) {slot : Slot} {e : Element}
    (hw : e.Writable scope.definitions slot) : e.ReadBack scope slot := by
  induction hw with
  | @mk inner e typed marked cast distinct links writable ih =>
    have hw : e.Writable scope.definitions inner := .mk typed marked cast distinct links writable
    intro c lead slot path depth r outer frames hc hl hcomment hserves hr
    obtain ⟨ho, hshows, hproper⟩ := hl
    cases hs : inner.section? with
    | none =>
      obtain ⟨hholds, hplain⟩ := hc.plain ho hshows hs
      have hinside := fun x (hx : x ∈ e.children) =>
        Slot.inside_plain (Slot.family_of_plain hplain) (links x hx).1.1
      rw [lines_of_plain hplain, said_of_plain hplain, List.append_assoc]
      exact says_children hholds hw ih path depth hserves (fun x hx => hr.trans (hinside x hx).1)
        (fun x hx => (hinside x hx).2) (hr.trans inner.family.first_le_last)
    | some s =>
      obtain ⟨ht, hlead⟩ := hc.takes ho hshows hs
      obtain ⟨hfirst, hlast⟩ := Section.first_last hs
      obtain ⟨frame, hfind, hpath, hserves₁⟩ := hserves.find ht (hfirst ▸ hr)
      obtain ⟨header, -, hheading, -⟩ := reads_header hproper hcomment hs
      have hsayable : Sayable scope (path ++ lead ++ [inner])
          (if s.isMarked then some ⟨path ++ lead ++ [inner], s = .castInsertion⟩ else none)
          e.label := by
        refine ⟨typed, fun hne => ?_, fun type htype => ?_⟩
        · rw [← Section.isMarked_eq hs, if_pos (marked hne)]
          exact ⟨_, rfl⟩
        · obtain ⟨hk, htype⟩ := cast type htype
          obtain rfl := (Section.eq_castInsertion_iff hs).2 hk
          exact ⟨rfl, htype⟩
      have hline := says_section depth hproper hcomment hs hheading hfind (by rw [hpath, hlead]) hds
        hsayable
      obtain ⟨frames', hinside, hserves₂⟩ :=
        says_inside hs ht hw ih (path ++ lead ++ [inner]) (depth + 1) hserves₁
      rw [hlast]
      by_cases hsilent : e.Silent inner
      · have hsaid := said_of_silent hheading hsilent
        rw [lines_eq_nil_iff.2 hsaid, hsaid]
        exact ⟨frames, .nil _, hserves.mono (hfirst ▸ hr)⟩
      · rw [lines_of_header hw.placed hheading hsilent, said_of_header hw.placed hheading hsilent]
        rw [Said.under_cons, List.append_nil]
        exact ⟨frames', hline.append hinside, hserves₂⟩

end Element

/-! ## The lines of a scene -/

/-- A list without what is there again has no entry twice. -/
theorem nodup_eraseDups {α : Type} [BEq α] [LawfulBEq α] : ∀ l : List α, l.eraseDups.Nodup
  | [] => List.nodup_nil
  | a :: l => by
    rw [List.eraseDups_cons, List.nodup_cons]
    exact ⟨by simp, nodup_eraseDups _⟩
termination_by l => l.length
decreasing_by
  have := List.length_filter_le (fun b => !b == a) l
  simp only [List.length_cons]
  omega

namespace Scene

/-- The scene can be written when the definitions are written before it. A package is created by
what its header carries. -/
structure Writable (ds : List Definition) (s : Scene) : Prop where
  blank : s.root.label = .blank
  distinct : (Keyed.keys s.root.children).Nodup
  top : ∀ c ∈ s.root.children, c.1.IsTop ∧ c.1.Proper
  annotated : ∀ c ∈ s.root.children, c.1.kind = .package → c.2.isAnnotated = true
  writable : ∀ c ∈ s.root.children, c.2.Writable ds c.1

/-- The scene stays within what an index can say. -/
structure Placed (s : Scene) : Prop where
  blank : s.root.label = .blank
  distinct : (Keyed.keys s.root.children).Nodup
  top : ∀ c ∈ s.root.children, c.1.IsTop ∧ c.1.Proper
  placed : ∀ c ∈ s.root.children, c.2.Placed c.1

/-- A scene that can be written stays within what an index can say. -/
theorem Writable.placed {ds : List Definition} {s : Scene} (h : s.Writable ds) : s.Placed :=
  ⟨h.blank, h.distinct, h.top, fun c hc => (h.writable c hc).placed⟩

/-- The classes of a scene are its children in class slots. -/
theorem mem_classes_iff {s : Scene} {c : String × Element} :
    c ∈ s.classes ↔ (.typeDecl c.1, c.2) ∈ s.root.children := by
  rw [classes, List.mem_filterMap]
  constructor
  · rintro ⟨⟨slot, e⟩, he, hc⟩
    cases slot <;> cases hc
    exact he
  · exact fun h => ⟨_, h, rfl⟩

/-- The packages of a scene are its children in package slots. -/
theorem mem_packages_iff {s : Scene} {c : String × Element} :
    c ∈ s.packages ↔ (.package c.1, c.2) ∈ s.root.children := by
  rw [packages, List.mem_filterMap]
  constructor
  · rintro ⟨⟨slot, e⟩, he, hc⟩
    cases slot <;> cases hc
    exact he
  · exact fun h => ⟨_, h, rfl⟩

/-- The package of the given name and its classes, as they are written. -/
def members (s : Scene) (name : String) : List (Slot × Element) :=
  (s.root.child? (.package name)).toList.map (fun e => (.package name, e)) ++
    (s.classes.filter fun c => (splitQualified c.1).1 = name).map fun c => (.typeDecl c.1, c.2)

/-- The packages and classes as they are written. -/
def listed (s : Scene) : List (Slot × Element) := s.packageNames.flatMap s.members

variable {s : Scene} {ds : List Definition}

/-- The members of a package are the package itself and the classes whose names are in it. -/
theorem mem_members_iff (hn : (Keyed.keys s.root.children).Nodup) {name : String}
    {c : Slot × Element} : c ∈ s.members name ↔ c ∈ s.root.children ∧
      (c.1 = .package name ∨ ∃ n, c.1 = .typeDecl n ∧ (splitQualified n).1 = name) := by
  simp only [members, List.mem_append, List.mem_map, Option.mem_toList, List.mem_filter,
    mem_classes_iff, decide_eq_true_eq]
  constructor
  · rintro (⟨e, he, rfl⟩ | ⟨d, ⟨hd, hname⟩, rfl⟩)
    · exact ⟨Keyed.mem_of_get? he, .inl rfl⟩
    · exact ⟨hd, .inr ⟨d.1, rfl, hname⟩⟩
  · rintro ⟨hc, h⟩
    obtain ⟨slot, e⟩ := c
    rcases h with rfl | ⟨n, rfl, hname⟩
    · exact .inl ⟨e, Keyed.get?_of_mem hn hc, rfl⟩
    · exact .inr ⟨(n, e), ⟨hc, hname⟩, rfl⟩

/-- Every package and class is written once. -/
theorem nodup_listed (hn : (Keyed.keys s.root.children).Nodup) :
    (Keyed.keys s.listed).Nodup := by
  rw [listed, Keyed.keys, List.Nodup, List.pairwise_map, List.pairwise_flatMap]
  constructor
  · intro name _
    rw [members, List.pairwise_append]
    refine ⟨?_, ?_, ?_⟩
    · cases s.root.child? (.package name) <;> simp
    · rw [List.pairwise_map]
      refine List.Pairwise.filter _ ?_
      rw [classes, List.pairwise_filterMap]
      refine (List.pairwise_map.1 hn).imp fun {x y} hne a ha b hb he => hne ?_
      obtain ⟨⟨xs, xe⟩, ⟨ys, ye⟩⟩ := x, y
      cases xs <;> cases ha
      cases ys <;> cases hb
      exact he
    · intro x hx y hy he
      obtain ⟨e, -, rfl⟩ := List.mem_map.1 hx
      obtain ⟨c, -, rfl⟩ := List.mem_map.1 hy
      cases he
  · refine (nodup_eraseDups _).imp fun {m n} hne x hx y hy he => hne ?_
    obtain ⟨-, hm⟩ := (mem_members_iff hn).1 hx
    obtain ⟨-, hn⟩ := (mem_members_iff hn).1 hy
    rw [he] at hm
    rcases hm with hm | ⟨k, hm, rfl⟩ <;> rcases hn with hn | ⟨k', hn, rfl⟩ <;>
      cases hm.symm.trans hn <;> rfl

/-- No package and no class is left out. -/
theorem mem_listed_iff (hw : s.Placed) {c : Slot × Element} :
    c ∈ s.listed ↔ c ∈ s.root.children := by
  simp only [listed, List.mem_flatMap, mem_members_iff hw.distinct]
  constructor
  · rintro ⟨_, _, hc, _⟩
    exact hc
  · intro hc
    obtain ⟨htop, -⟩ := hw.top c hc
    obtain ⟨slot, e⟩ := c
    cases slot <;> cases htop
    case package.refl name =>
      refine ⟨name, ?_, hc, .inl rfl⟩
      rw [packageNames, List.mem_eraseDups]
      exact List.mem_append_left _ (List.mem_map.2 ⟨(name, e), mem_packages_iff.2 hc, rfl⟩)
    case typeDecl.refl n =>
      refine ⟨(splitQualified n).1, ?_, hc, .inr ⟨n, rfl, rfl⟩⟩
      rw [packageNames, List.mem_eraseDups]
      exact List.mem_append_right _ (List.mem_map.2 ⟨(n, e), mem_classes_iff.2 hc, rfl⟩)

/-- The packages and classes of a scene are all found in the order in which they are written. -/
theorem get?_listed (hw : s.Placed) (slot : Slot) :
    Keyed.get? slot s.listed = s.root.child? slot :=
  Keyed.get?_eq_of_mem_iff (nodup_listed hw.distinct) hw.distinct (fun _ => mem_listed_iff hw) slot

/-- What is said of the packages and classes, in the order in which they are written. -/
def said (s : Scene) : Said := Element.saidOfEach s.listed

/-- **What is said of a scene is what its labels say.** -/
theorem notes_said (hw : s.Placed) (path : Path) :
    s.said.notes path = (s.root.labelAt path).notes := by
  cases path with
  | nil => rw [said, Element.notes_saidOfEach_nil, Element.labelAt_nil, hw.blank, Label.notes_blank]
  | cons slot rest =>
    rw [said, Element.notes_saidOfEach_cons (nodup_listed hw.distinct), get?_listed hw]
    cases hc : s.root.child? slot with
    | none => rw [Element.labelAt_cons_of_none hc, Option.elim_none, Label.notes_blank]
    | some e =>
      have hmem := Keyed.mem_of_get? hc
      rw [Element.labelAt_cons_of_some hc, Option.elim_some]
      exact Element.notes_said (hw.placed _ hmem) (hw.top _ hmem).2 rest

/-- In a package there is nothing but its label. -/
theorem Placed.said_package (h : s.Placed) (name : String) :
    Element.saidOfEach ((s.root.child? (.package name)).toList.map fun e => (.package name, e)) =
      (s.root.child? (.package name)).toList.map fun e => ([.package name], e.label) := by
  cases he : s.root.child? (.package name) with
  | none => rfl
  | some e =>
    have hmem := Keyed.mem_of_get? he
    have hplaced := h.placed _ hmem
    have hspeaks : ¬e.Silent (.package name) := fun h => Bool.false_ne_true h.1
    rw [Option.toList_some, List.map_singleton, List.map_singleton, Element.saidOfEach,
      List.flatMap_singleton, Element.said_of_header hplaced rfl hspeaks, hplaced.children_package]
    rfl

/-- The lines of a class are read back in the package of the class. -/
theorem says_classLines (hds : Named ds) {n : String} {e : Element} (frames : List Frame)
    (hp : (Slot.typeDecl n).Proper) (hw : e.Writable ds (.typeDecl n)) :
    ∃ frames', Says ⟨true, ⟨(splitQualified n).1, ds⟩, none, frames⟩ (e.lines (.typeDecl n) 0)
      ⟨true, ⟨(splitQualified n).1, ds⟩, none, frames'⟩
      ((e.said (.typeDecl n)).under [.typeDecl n]) := by
  obtain ⟨p, b, -, hb, rfl⟩ := hp
  have hsplit : splitQualified (qualify p b) = (p, b) := splitQualified_qualify hb.toIsWord
  have hheading : (Slot.typeDecl (qualify p b)).heading = .header ("class " ++ b) := by
    rw [Slot.heading, hsplit]
  have hcs : ∀ x ∈ e.children, x.2.ReadBack ⟨p, ds⟩ x.1 := fun x hx =>
    (hw.children x hx).readBack hds
  have hsayable : Sayable ⟨p, ds⟩ [.typeDecl (qualify p b)]
      (some ⟨[.typeDecl (qualify p b)], false⟩) e.label := by
    cases hw with
    | mk typed _ cast =>
      exact ⟨typed, fun _ => ⟨_, rfl⟩, fun type ht => Kind.noConfusion (cast type ht).1⟩
  have hbound : ∀ f : Family, f.last ≤ Family.writingOrder.length := fun f => by
    cases f <;> decide
  have hw : e.Writable (Scope.mk p ds).definitions (.typeDecl (qualify p b)) := hw
  have hspeaks : ¬e.Silent (.typeDecl (qualify p b)) := fun h => Bool.false_ne_true h.1
  obtain ⟨frames', hstep, -⟩ :=
    Element.says_children (.typeDecl _) hw hcs [.typeDecl (qualify p b)] 1 (.self .typeDecl _ [])
      (fun _ _ => Nat.zero_le _) (fun x _ => hbound x.1.family) (Nat.zero_le _)
  rw [hsplit, Element.lines_of_header hw.placed hheading hspeaks,
    Element.said_of_header hw.placed hheading hspeaks]
  exact ⟨frames', (says_class hb hds hsayable).append hstep⟩

/-- The lines of a package say what its label says, and then what is in its classes. -/
theorem exists_packageLabel (hw : s.Writable ds) (name : String) :
    ∃ l : Label, Sayable ⟨name, ds⟩ [.package name] (some ⟨[.package name], false⟩) l ∧
      s.packageLines name = ⟨0, headerText (packageHeader name) l.annotations l.castType⟩ ::
        ((s.classes.filter fun c => (splitQualified c.1).1 = name).flatMap
          (fun c => c.2.lines (.typeDecl c.1) 0) ++ [.blank]) ∧
      Element.saidOfEach ((s.root.child? (.package name)).toList.map fun e => (.package name, e)) =
        if l.notes.isEmpty then [] else [([.package name], l)] := by
  rw [hw.placed.said_package]
  cases he : s.root.child? (.package name) with
  | none =>
    refine ⟨.blank, ?_, by simp [packageLines, at?, Element.at?, he, Label.blank], by simp⟩
    exact ⟨by simp [Label.blank], fun h => absurd rfl h, by simp [Label.blank]⟩
  | some e =>
    have hmem := Keyed.mem_of_get? he
    have hwe := hw.writable _ hmem
    have htype : e.castType = none := hwe.placed.castType_eq_none Kind.noConfusion
    have has : e.annotations ≠ [] := by
      intro has
      have hann := hw.annotated _ hmem rfl
      have hnil := hwe.placed.children_package
      obtain ⟨as, type, cs⟩ := e
      simp only at has hnil
      simp [has, hnil, Element.isAnnotated, Element.anyAnnotated] at hann
    refine ⟨e.label, ?_, ?_, ?_⟩
    · cases hwe with
      | mk typed => exact ⟨typed, fun _ => ⟨_, rfl⟩, fun type ht => by
          rw [Element.label, htype] at ht
          cases ht⟩
    · simp [packageLines, at?, Element.at?, he, Element.label, htype]
    · rw [if_neg (by simpa [Label.notes, Element.label, htype] using has)]
      rfl

/-- The lines of a package and its classes are read back. -/
theorem says_packageLines (hds : Named ds) (hw : s.Writable ds) {name : String}
    (hname : name ∈ s.packageNames) (inPackage : Bool) (p : String) (frames : List Frame) :
    ∃ frames', Says ⟨inPackage, ⟨p, ds⟩, none, frames⟩ (s.packageLines name)
      ⟨true, ⟨name, ds⟩, none, frames'⟩ (Element.saidOfEach (s.members name)) := by
  have hproper : IsPackageName name := by
    rw [packageNames, List.mem_eraseDups, List.mem_append] at hname
    rcases hname with h | h
    · obtain ⟨c, hc, rfl⟩ := List.mem_map.1 h
      exact (hw.top _ (mem_packages_iff.1 hc)).2
    · obtain ⟨c, hc, rfl⟩ := List.mem_map.1 h
      obtain ⟨p, b, hp, hb, hn⟩ := (hw.top _ (mem_classes_iff.1 hc)).2
      rwa [hn, splitQualified_qualify hb.toIsWord]
  have hclasses : ∀ cs : List (String × Element), (∀ c ∈ cs, c ∈ s.classes) →
      (∀ c ∈ cs, (splitQualified c.1).1 = name) → ∀ frames : List Frame,
      ∃ frames', Says ⟨true, ⟨name, ds⟩, none, frames⟩
        (cs.flatMap fun c => c.2.lines (.typeDecl c.1) 0) ⟨true, ⟨name, ds⟩, none, frames'⟩
        (Element.saidOfEach (cs.map fun c => (.typeDecl c.1, c.2))) := by
    intro cs
    induction cs with
    | nil => exact fun _ _ frames => ⟨frames, .nil _⟩
    | cons c cs ih =>
      intro hcs hnames frames
      have hc := mem_classes_iff.1 (hcs c List.mem_cons_self)
      obtain ⟨frames₁, hstep⟩ := says_classLines hds frames (hw.top _ hc).2
        (hw.writable _ hc)
      rw [hnames c List.mem_cons_self] at hstep
      obtain ⟨frames₂, hstep'⟩ := ih (fun d hd => hcs d (List.mem_cons_of_mem _ hd))
        (fun d hd => hnames d (List.mem_cons_of_mem _ hd)) frames₁
      exact ⟨frames₂, hstep.append hstep'⟩
  obtain ⟨frames', hstep⟩ := hclasses (s.classes.filter fun c => (splitQualified c.1).1 = name)
    (fun c hc => (List.mem_filter.1 hc).1)
    (fun c hc => of_decide_eq_true (List.mem_filter.1 hc).2) []
  obtain ⟨l, hsayable, hlines, hsaid⟩ := exists_packageLabel hw name
  refine ⟨frames', ?_⟩
  rw [hlines, members, Element.saidOfEach_append, hsaid]
  have hheader : Says ⟨inPackage, ⟨p, ds⟩, none, frames⟩
      [⟨0, headerText (packageHeader name) l.annotations l.castType⟩] ⟨true, ⟨name, ds⟩, none, []⟩
      (if l.notes.isEmpty then [] else [([.package name], l)]) :=
    says_package hproper hds hsayable
  have hall := hheader.append (hstep.append (.blank _))
  rwa [List.append_nil] at hall

/-- **The lines of a scene are read back**, wherever packages and classes may be written. -/
theorem says_declarationLines (hds : Named ds) (hw : s.Writable ds) {inPackage : Bool} {p : String}
    {frames : List Frame} :
    ∃ st, Says ⟨inPackage, ⟨p, ds⟩, none, frames⟩ s.declarationLines st s.said := by
  have hnames : ∀ names : List String, (∀ n ∈ names, n ∈ s.packageNames) →
      ∀ (inPackage : Bool) (p : String) (frames : List Frame),
      ∃ st, Says ⟨inPackage, ⟨p, ds⟩, none, frames⟩ (names.flatMap s.packageLines) st
        (Element.saidOfEach (names.flatMap s.members)) := by
    intro names
    induction names with
    | nil => exact fun _ inPackage p frames => ⟨_, .nil _⟩
    | cons name names ih =>
      intro hnames inPackage p frames
      obtain ⟨frames', hstep⟩ := says_packageLines hds hw (hnames name List.mem_cons_self)
        inPackage p frames
      obtain ⟨st, hstep'⟩ := ih (fun n hn => hnames n (List.mem_cons_of_mem _ hn)) true name frames'
      refine ⟨st, ?_⟩
      rw [List.flatMap_cons, List.flatMap_cons, Element.saidOfEach_append]
      exact hstep.append hstep'
  exact hnames s.packageNames (fun _ h => h) inPackage p frames

end Scene

/-! ## Whole texts -/

/-- The lines of declared definitions define them, at the beginning of a text. -/
theorem Declarations.says_lines {ds : List Definition} (h : Declarations ds) :
    ∃ inPackage p, Says .start (ds.flatMap Definition.lines) ⟨inPackage, ⟨p, ds⟩, none, []⟩ [] := by
  induction h with
  | nil => exact ⟨false, "", .nil _⟩
  | @snoc ds d h hd ih =>
    obtain ⟨inPackage, p, hstep⟩ := ih
    refine ⟨true, d.package, ?_⟩
    rw [List.flatMap_append, List.flatMap_singleton]
    exact hstep.append (says_definition h.named hd)

/-- What lines say is what their text deposits, whatever the layout. -/
theorem depositsOf_text (layout : Layout) {lines : List Line} {st : State} {said : Said}
    (h : Says .start lines st said) :
    ∃ ds, depositsOf (layout.text lines) = (ds, none) ∧ Deposit.Tell ds said := by
  obtain ⟨Ls, hL, -, hr⟩ := h
  obtain ⟨ds, hds, htell⟩ := hr 1 [] boundary_nil
  refine ⟨ds, ?_, htell⟩
  have htokens : tokenize (layout.text lines) = .ok ⟨tokensFrom 1 Ls, 1 + lines.length⟩ :=
    layout.tokens_text hL 1
  have hend : run st [] = ([], none) := by rw [run]
  have hrun : run .start (tokensFrom 1 Ls) = (ds, none) := by
    rw [← List.append_nil (tokensFrom 1 Ls), hds, hend, List.append_nil]
  rw [depositsOf, htokens]
  simp [hrun]

/-- **A scene that is written after the definitions that it uses is read back**, in any layout: the
text can be read, and the scene that it describes has the same labels. Each element of that scene
has its slots in the order in which something is said of them. -/
theorem Scene.ofText_text (layout : Layout) {s : Scene} {ds : List Definition}
    (hds : Declarations ds) (hw : s.Writable ds)
    (hn : ∀ path, ((s.root.labelAt path).annotations.map (·.name)).Nodup) :
    ∃ t, ofText (layout.text (ds.flatMap Definition.lines ++ s.declarationLines)) = .ok t ∧
      (∀ path, t.root.labelAt path = s.root.labelAt path) ∧
      ∀ path, t.root.slotsAt .scene path =
        meetAll (Kind.scene.after path).filled (s.said.next path) := by
  obtain ⟨inPackage, p, hdefs⟩ := hds.says_lines
  obtain ⟨st, hdecls⟩ := says_declarationLines hds.named hw
  obtain ⟨deposits, hdeposits, htell⟩ := depositsOf_text layout (hdefs.append hdecls)
  obtain ⟨t, ht, hlabels, hslots⟩ := load_of_tell hn htell fun path => notes_said hw.placed path
  refine ⟨t, ?_, hlabels, hslots⟩
  simp only [ofText, read, hdeposits, ht]

end AnnotationIndex
