import AnnotationIndex.Proofs.Said
import AnnotationIndex.Writer

/-!
# What is written of an element

`Element.said` lists what the lines about an element say, in their order; the lines are determined
by it (`Element.lines_eq`). It is the same for elements that are alike (`Element.said_congr`),
because lines do not show in which order slots of different families stand.
-/

namespace AnnotationIndex

/-- What is made of entries does not matter to how they are arranged. -/
theorem arrange_map {α β : Type} (order : List Family) (f : Slot × α → β)
    (entries : List (Slot × α)) :
    arrange order (entries.map fun e => (e.1, f e)) =
      (arrange order entries).map fun e => (e.1, f e) := by
  simp only [arrange, List.map_flatMap, List.filter_map]
  rfl

namespace Slot

/-- The header of the element in the slot, if it has one. -/
def headerOrEmpty (slot : Slot) : String :=
  match slot.heading with
  | .header text => text
  | .plain | .hidden => ""

/-- The depth of the lines inside the element in the slot, where its own are at the given one. -/
def depthInside (slot : Slot) (depth : Nat) : Nat :=
  match slot.heading with
  | .header _ => depth + 1
  | .plain | .hidden => depth

/-- The line about the element at a path below the one in the slot. -/
def lineAt (slot : Slot) (depth : Nat) : Path → Label → Line
  | [], l => ⟨depth, headerText slot.headerOrEmpty l.annotations l.castType⟩
  | inner :: path, l => inner.lineAt (slot.depthInside depth) path l

end Slot

namespace Element

mutual

/-- What the lines about the element in a slot say, in their order. -/
def said (slot : Slot) : Element → Said
  | ⟨annotations, castType, children⟩ =>
    let contents := (arrange Family.writingOrder (saidBySlot slot children)).flatMap (·.2)
    match slot.heading with
    | .hidden => []
    | .plain => contents
    | .header _ =>
      let shown := if slot.kind.isMarked then annotations else []
      if slot.isOptional && shown.isEmpty && contents.isEmpty then []
      else ([], ⟨shown, castType⟩) :: contents

/-- What the lines about each of the elements say that are written with the element in a slot. -/
def saidBySlot (slot : Slot) : List (Slot × Element) → List (Slot × Said)
  | [] => []
  | (inner, child) :: rest =>
    if slot.shows inner then (inner, (child.said inner).under [inner]) :: saidBySlot slot rest
    else saidBySlot slot rest

end

/-- What the lines about several elements say, one after the other. -/
def saidOfEach (cs : List (Slot × Element)) : Said := cs.flatMap fun c => (c.2.said c.1).under [c.1]

/-- The elements that are written with the element in a slot, in the order of their families. -/
def written (slot : Slot) (cs : List (Slot × Element)) : List (Slot × Element) :=
  arrange Family.writingOrder (cs.filter fun c => slot.shows c.1)

/-- What is said by slots, arranged, is what is said of the children in the order of writing. -/
theorem saidBySlot_eq (slot : Slot) (cs : List (Slot × Element)) :
    (arrange Family.writingOrder (saidBySlot slot cs)).flatMap (·.2) =
      saidOfEach (written slot cs) := by
  have h : saidBySlot slot cs = (cs.filter fun c => slot.shows c.1).map fun c =>
      (c.1, (c.2.said c.1).under [c.1]) := by
    induction cs with
    | nil => rfl
    | cons c cs ih =>
      rw [saidBySlot, List.filter_cons, ih]
      split <;> rfl
  rw [h, arrange_map, List.flatMap_map]
  rfl

/-- The lines by slots, assembled, are those of the children in the order of writing. -/
theorem linesBySlot_eq (slot : Slot) (depth : Nat) (cs : List (Slot × Element)) :
    Line.assemble (linesBySlot slot depth cs) =
      (written slot cs).flatMap fun c => c.2.lines c.1 depth := by
  have h : linesBySlot slot depth cs = (cs.filter fun c => slot.shows c.1).map fun c =>
      (c.1, c.2.lines c.1 depth) := by
    induction cs with
    | nil => rfl
    | cons c cs ih =>
      rw [linesBySlot, List.filter_cons, ih]
      split <;> rfl
  rw [h, Line.assemble, arrange_map, List.flatMap_map]
  rfl

/-- What is written is among the children. -/
theorem mem_of_mem_written {slot : Slot} {cs : List (Slot × Element)} {c : Slot × Element}
    (h : c ∈ written slot cs) : c ∈ cs := by
  obtain ⟨family, -, hc⟩ := List.mem_flatMap.1 h
  exact List.mem_of_mem_filter (List.mem_of_mem_filter hc)

/-- **The lines about an element are determined by what they say.** -/
theorem lines_eq (e : Element) : ∀ (slot : Slot) (depth : Nat),
    e.lines slot depth = (e.said slot).map fun x => slot.lineAt depth x.1 x.2 := by
  induction e using induct with
  | h e ih =>
    intro slot depth
    obtain ⟨as, type, cs⟩ := e
    have hinside : Line.assemble (linesBySlot slot (slot.depthInside depth) cs) =
        (saidOfEach (written slot cs)).map fun x => slot.lineAt depth x.1 x.2 := by
      rw [linesBySlot_eq, saidOfEach, List.map_flatMap]
      refine List.flatMap_congr fun c hc => ?_
      rw [ih c (mem_of_mem_written hc), Said.under, List.map_map]
      rfl
    rw [Slot.depthInside] at hinside
    rw [lines, said]
    simp only [saidBySlot_eq]
    cases hh : slot.heading with
    | hidden => rfl
    | plain =>
      rw [hh] at hinside
      exact hinside
    | header text =>
      rw [hh] at hinside
      simp only at hinside
      simp only [hinside, List.isEmpty_map, apply_ite (List.map _), List.map_cons, List.map_nil,
        Slot.lineAt, Slot.headerOrEmpty, hh]

/-- An element has no lines exactly when nothing is said of it. -/
theorem lines_eq_nil_iff {e : Element} {slot : Slot} {depth : Nat} :
    e.lines slot depth = [] ↔ e.said slot = [] := by
  rw [lines_eq, List.map_eq_nil_iff]

/-- Nothing is written of several elements when nothing is said of any. -/
theorem linesBySlot_eq_nil_iff (slot : Slot) (depth : Nat) (cs : List (Slot × Element)) :
    Line.assemble (linesBySlot slot depth cs) = [] ↔ saidOfEach (written slot cs) = [] := by
  simp only [linesBySlot_eq, saidOfEach, List.flatMap_eq_nil_iff, lines_eq_nil_iff, Said.under,
    List.map_eq_nil_iff]

/-! ## What several elements say -/

/-- What is said of the first of several elements is said first. -/
theorem saidOfEach_cons (c : Slot × Element) (cs : List (Slot × Element)) :
    saidOfEach (c :: cs) = (c.2.said c.1).under [c.1] ++ saidOfEach cs :=
  List.flatMap_cons

/-- What is said of elements in two lists is said of each list. -/
theorem saidOfEach_append (cs ds : List (Slot × Element)) :
    saidOfEach (cs ++ ds) = saidOfEach cs ++ saidOfEach ds :=
  List.flatMap_append

/-- What is said of the children of an element is not said of it. -/
theorem notes_saidOfEach_nil (cs : List (Slot × Element)) : (saidOfEach cs).notes [] = [] := by
  simp only [saidOfEach, Said.notes, List.flatMap_assoc, List.flatMap_eq_nil_iff]
  exact fun c _ => List.flatMap_eq_nil_iff.1 (Said.notes_under_nil c.1 (c.2.said c.1))

/-- What is said of elements in different slots is said of the one in the slot. -/
theorem notes_saidOfEach_cons {cs : List (Slot × Element)} (hn : (Keyed.keys cs).Nodup)
    (slot : Slot) (rest : Path) : (saidOfEach cs).notes (slot :: rest) =
      (Keyed.get? slot cs).elim [] fun c => (c.said slot).notes rest := by
  rw [← Keyed.flatMap_ite _ _ hn, saidOfEach, Said.notes, List.flatMap_assoc]
  refine List.flatMap_congr fun c _ => (Said.notes_under_cons c.1 slot (c.2.said c.1) rest).trans ?_
  by_cases h : slot = c.1
  · rw [if_pos h, if_pos h.symm, h]
  · rw [if_neg h, if_neg (Ne.symm h)]

/-- What is said of the children of an element leads to their slots. -/
theorem next_saidOfEach_nil (cs : List (Slot × Element)) :
    (saidOfEach cs).next [] = cs.flatMap fun c => (c.2.said c.1).map fun _ => c.1 := by
  rw [saidOfEach, Said.next, List.filterMap_flatMap]
  exact List.flatMap_congr fun c _ => Said.next_under_nil c.1 (c.2.said c.1)

/-- What is said of elements in different slots leads on from the one in the slot. -/
theorem next_saidOfEach_cons {cs : List (Slot × Element)} (hn : (Keyed.keys cs).Nodup) (slot : Slot)
    (rest : Path) : (saidOfEach cs).next (slot :: rest) =
      (Keyed.get? slot cs).elim [] fun c => (c.said slot).next rest := by
  rw [← Keyed.flatMap_ite _ _ hn, saidOfEach, Said.next, List.filterMap_flatMap]
  refine List.flatMap_congr fun c _ => (Said.next_under_cons c.1 slot (c.2.said c.1) rest).trans ?_
  by_cases h : slot = c.1
  · rw [if_pos h, if_pos h, h]
  · rw [if_neg h, if_neg h]

/-! ## Elements that are alike -/

/-- Elements that say the same slot by slot say the same one after the other. -/
theorem saidOfEach_congr {xs ys : List (Slot × Element)} (hk : Keyed.keys xs = Keyed.keys ys)
    (h : ∀ x ∈ xs, ∀ y ∈ ys, x.1 = y.1 → x.2.said x.1 = y.2.said y.1) :
    saidOfEach xs = saidOfEach ys := by
  rw [saidOfEach, saidOfEach, List.flatMap_def, List.flatMap_def,
    Keyed.map_eq_map hk fun x hx y hy he => by rw [h x hx y hy he, he]]

/-- Leaving out slots leaves out their keys. -/
theorem keys_filter {α : Type} (p : Slot → Bool) (cs : List (Slot × α)) :
    Keyed.keys (cs.filter fun c => p c.1) = (Keyed.keys cs).filter p := by
  rw [Keyed.keys, Keyed.keys, List.filter_map]
  rfl

/-- **The same is written of elements that are alike.** -/
theorem said_congr {x : Element} : ∀ {y : Element} {slot : Slot}, Alike slot.kind x y →
    x.Shaped slot.kind → y.Shaped slot.kind → x.said slot = y.said slot := by
  induction x using induct with
  | h x ih =>
    intro y slot h hx hy
    have hchild : ∀ c ∈ x.children, ∀ d ∈ y.children, c.1 = d.1 → c.2.said c.1 = d.2.said d.1 := by
      intro c hc d hd he
      obtain ⟨d', hd', halike⟩ := h.child (Keyed.get?_of_mem hx.distinct hc)
      have hself : d' = d.2 :=
        Option.some.inj (hd'.symm.trans (he ▸ Keyed.get?_of_mem hy.distinct hd))
      rw [← he, ← hself]
      exact ih c hc halike (hx.children c hc) (hy.child hd')
    have hcontents :
        saidOfEach (written slot x.children) = saidOfEach (written slot y.children) := by
      simp only [saidOfEach, written, arrange, List.flatMap_assoc]
      refine List.flatMap_congr fun family _ => ?_
      refine saidOfEach_congr ?_ fun c hc d hd => hchild c
        (List.mem_of_mem_filter (List.mem_of_mem_filter hc)) d
        (List.mem_of_mem_filter (List.mem_of_mem_filter hd))
      rw [keys_filter (·.family = family), keys_filter (·.family = family), keys_filter,
        keys_filter, List.filter_comm, List.filter_comm (p := fun s : Slot => s.family = family)]
      exact congrArg _ (h.slots [] family)
    have hlabel : x.label = y.label := h.labels []
    obtain ⟨as, type, cs⟩ := x
    obtain ⟨bs, type', ds⟩ := y
    cases hlabel
    rw [said, said, saidBySlot_eq, saidBySlot_eq, hcontents]

end Element

end AnnotationIndex
