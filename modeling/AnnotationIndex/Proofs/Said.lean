import AnnotationIndex.Proofs.Element.Slots
import AnnotationIndex.Proofs.Notes

/-!
# What is said of a scene

Headers say of elements, one after the other, which labels they have (`Said`). Deposits tell what is
said when each label is deposited after nothing but elements on the way to it (`Deposit.Tell`).
Loading them gives those labels, and gives each element its slots in the order in which they are
said (`Scene.load_of_tell`).
-/

namespace AnnotationIndex

/-- What is said of elements, one after the other: the label of each, and the path to it. -/
abbrev Said := List (Path × Label)

namespace Said

/-- What is said of elements below a path, as seen from where the path starts. -/
def under (path : Path) (said : Said) : Said := said.map fun x => (path ++ x.1, x.2)

/-- What is said about the element at a path, in order. -/
def notes (said : Said) (path : Path) : List Note :=
  said.flatMap fun x => if x.1 = path then x.2.notes else []

/-- The slots of the element at a path that are on the way to what something is said of,
in order. -/
def next (said : Said) (path : Path) : List Slot := said.filterMap fun x => path.next? x.1

/-- What is said of several parts is said of each below the path. -/
theorem under_append (path : Path) (said said' : Said) :
    under path (said ++ said') = under path said ++ under path said' :=
  List.map_append

/-- The first thing said is said below the path. -/
theorem under_cons (path : Path) (x : Path × Label) (said : Said) :
    under path (x :: said) = (path ++ x.1, x.2) :: under path said :=
  List.map_cons

/-- Two paths one after the other are one path. -/
theorem under_under (path other : Path) (said : Said) :
    under path (under other said) = under (path ++ other) said := by
  simp [under]

/-- What is said in two parts is said about an element in order. -/
theorem notes_append (said said' : Said) (path : Path) :
    notes (said ++ said') path = notes said path ++ notes said' path :=
  List.flatMap_append

/-- The first thing said is the first to lead anywhere. -/
theorem next_cons (x : Path × Label) (said : Said) (path : Path) :
    next (x :: said) path = (path.next? x.1).toList ++ next said path := by
  rw [next, List.filterMap_cons]
  cases path.next? x.1 <;> rfl

/-- What is said below a slot is not said of the element itself. -/
theorem notes_under_nil (slot : Slot) (said : Said) : notes (under [slot] said) [] = [] := by
  simp [notes, under, List.flatMap_map]

/-- What is said below a slot is said of the element in that slot only. -/
theorem notes_under_cons (slot slot' : Slot) (said : Said) (rest : Path) :
    notes (under [slot] said) (slot' :: rest) = if slot = slot' then notes said rest else [] := by
  split
  · next h => simp [notes, under, h, List.flatMap_map]
  · next h => simp [notes, under, h, List.flatMap_map]

/-- All that is said below a slot leads there. -/
theorem next_under_nil (slot : Slot) (said : Said) :
    next (under [slot] said) [] = said.map fun _ => slot := by
  simp [next, under, Path.next?, List.filterMap_map, Function.comp_def]

/-- What is said below a slot leads on in that slot only. -/
theorem next_under_cons (slot slot' : Slot) (said : Said) (rest : Path) :
    next (under [slot] said) (slot' :: rest) = if slot' = slot then next said rest else [] := by
  split
  · next h => simp [next, under, Path.next?, h, List.filterMap_map, Function.comp_def]
  · next h => simp [next, under, Path.next?, h]

end Said

/-! ## Deposits that tell what is said -/

/-- The deposits of a label, from one line. -/
def Label.deposits (l : Label) (path : Path) (line : Nat) : List Deposit :=
  (l.annotations.map fun a => .mark path a line) ++
    l.castType.toList.map fun type => .castType path type line

namespace Deposit

/-- The deposits of a label all go to its path. -/
theorem path_of_mem_deposits {l : Label} {path : Path} {line : Nat} {d : Deposit}
    (h : d ∈ l.deposits path line) : d.path = path := by
  rcases List.mem_append.1 h with h | h <;> obtain ⟨_, -, rfl⟩ := List.mem_map.1 h <;> rfl

/-- The deposits of a label leave its notes at its path, and nothing elsewhere. -/
theorem notes_deposits (l : Label) (path : Path) (line : Nat) (other : Path) :
    notes (l.deposits path line) other = if path = other then l.notes else [] := by
  by_cases h : path = other <;>
    simp [notes, Label.deposits, Label.notes, List.filterMap_map, Deposit.path, note?, h,
      List.filterMap_eq_map']

/-- A label without notes has no deposits. -/
theorem deposits_eq_nil_iff {l : Label} {path : Path} {line : Nat} :
    l.deposits path line = [] ↔ l.notes = [] := by
  simp [Label.deposits, Label.notes]

/-- Creating elements leaves no notes. -/
theorem notes_elements (paths : List Path) (other : Path) :
    notes (paths.map element) other = [] := by
  simp [notes, note?]

/-- The deposits tell what is said: each label comes after elements on the way to where it goes.
Where the label is blank, its own element is one of them. -/
inductive Tell : List Deposit → Said → Prop
  | nil : Tell [] []
  | cons {ways : List Path} {path : Path} {l : Label} {line : Nat} {ds : List Deposit} {said : Said}
      (way : ∀ q ∈ ways, q <+: path) (reached : path ∈ ways ∨ l.notes ≠ []) (rest : Tell ds said) :
      Tell (ways.map element ++ l.deposits path line ++ ds) ((path, l) :: said)

namespace Tell

variable {ds es : List Deposit} {said said' : Said}

/-- One label is told by creating elements on its way and then depositing it. -/
theorem single {ways : List Path} {path : Path} {l : Label} {line : Nat}
    (way : ∀ q ∈ ways, q <+: path) (reached : path ∈ ways ∨ l.notes ≠ []) :
    Tell (ways.map element ++ l.deposits path line) [(path, l)] := by
  have h : Tell (ways.map element ++ l.deposits path line ++ []) [(path, l)] :=
    .cons way reached .nil
  rwa [List.append_nil] at h

/-- What is said one after the other is told one after the other. -/
theorem append (h : Tell ds said) (h' : Tell es said') : Tell (ds ++ es) (said ++ said') := by
  induction h with
  | nil => exact h'
  | cons way reached _ ih =>
    rw [List.append_assoc, List.cons_append]
    exact .cons way reached ih

/-- What the deposits note is what is said. -/
theorem notes_eq (h : Tell ds said) (path : Path) : notes ds path = said.notes path := by
  induction h with
  | nil => rfl
  | cons _ _ _ ih =>
    rw [notes_append, notes_append, notes_elements, notes_deposits, ih]
    rfl

/-- Slots are met on the way to the deposits as they are in what is said. -/
theorem meetAll_eq (h : Tell ds said) (path : Path) (met : List Slot) :
    meetAll met (ds.filterMap fun d => path.next? d.path) = meetAll met (said.next path) := by
  induction h generalizing met with
  | nil => rfl
  | @cons ways target l line ds said way reached _ ih =>
    let block := ways.map element ++ l.deposits target line
    have hpath : ∀ d ∈ block, d.path <+: target := by
      intro d hd
      rcases List.mem_append.1 hd with hd | hd
      · obtain ⟨q, hq, rfl⟩ := List.mem_map.1 hd
        exact way q hq
      · exact path_of_mem_deposits hd ▸ List.prefix_rfl
    have hreached : ∃ d ∈ block, d.path = target := by
      rcases reached with h | h
      · exact ⟨.element target, List.mem_append_left _ (List.mem_map_of_mem h), rfl⟩
      · obtain ⟨d, hd⟩ := List.exists_mem_of_ne_nil (l.deposits target line)
          (mt deposits_eq_nil_iff.1 h)
        exact ⟨d, List.mem_append_right _ hd, path_of_mem_deposits hd⟩
    have hblock : meetAll met (block.filterMap fun d => path.next? d.path) =
        meetAll met (path.next? target).toList := by
      cases hnext : path.next? target with
      | none =>
        rw [List.filterMap_eq_nil_iff.2 fun d hd =>
          Option.eq_none_iff_forall_ne_some.2 fun slot h => ?_]
        · rfl
        · cases hnext.symm.trans (Path.next?_mono h (hpath d hd))
      | some slot =>
        refine meetAll_const (fun b hb => ?_) ?_ met
        · obtain ⟨d, hd, h⟩ := List.mem_filterMap.1 hb
          exact Option.some.inj ((Path.next?_mono h (hpath d hd)).symm.trans hnext)
        · obtain ⟨d, hd, h⟩ := hreached
          exact List.ne_nil_of_mem (List.mem_filterMap.2 ⟨d, hd, h.symm ▸ hnext⟩)
    rw [List.filterMap_append, meetAll_append, hblock, ih, ← meetAll_append, Said.next_cons]

end Tell

end Deposit

/-! ## Loading what is said -/

namespace Scene

/-- A load adds the slots on the way to each deposit. -/
theorem slotsAt_load {s : Scene} {ds : List Deposit} (h : (s.load ds).2 = none) (path : Path) :
    (s.load ds).1.root.slotsAt .scene path =
      meetAll (s.root.slotsAt .scene path) (ds.filterMap fun d => path.next? d.path) := by
  induction ds generalizing s with
  | nil => rfl
  | cons d ds ih =>
    cases hr : d.refusal? (s.root.labelAt d.path) with
    | some e =>
      rw [load_cons_of_some hr] at h
      cases h
    | none =>
      rw [load_cons_of_none hr] at h ⊢
      rw [ih h, Scene.modifyAt, Element.slotsAt_modifyAt d.children_act, List.filterMap_cons]
      cases path.next? d.path <;> rfl

/-- **Deposits that tell labels give those labels**, if no label has two annotations of one type,
and each element gets its slots in the order in which they are said. -/
theorem load_of_tell {ds : List Deposit} {said : Said} {labels : Path → Label}
    (hn : ∀ path, ((labels path).annotations.map (·.name)).Nodup) (h : Deposit.Tell ds said)
    (hl : ∀ path, said.notes path = (labels path).notes) :
    ∃ s, empty.load ds = (s, none) ∧ (∀ path, s.root.labelAt path = labels path) ∧
      ∀ path, s.root.slotsAt .scene path =
        meetAll (Kind.scene.after path).filled (said.next path) := by
  obtain ⟨s, hs, hlabels⟩ := load_of_notes hn fun path => (h.notes_eq path).trans (hl path)
  refine ⟨s, hs, hlabels, fun path => ?_⟩
  have hslots := slotsAt_load (congrArg Prod.snd hs) path
  rwa [hs, h.meetAll_eq, empty, Element.slotsAt_fresh] at hslots

end Scene

end AnnotationIndex
