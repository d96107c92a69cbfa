import AnnotationIndex.Proofs.Deposit

/-!
# What deposits say at a path

The notes of deposits at a path are the annotations and the cast types that go there, in order and
without their lines (`Deposit.notes`). When at every path the notes are those of a label in which
no annotation type occurs twice, loading the deposits succeeds and gives those labels
(`Scene.load_of_notes`).
-/

namespace AnnotationIndex

/-- What a deposit says about its element. -/
inductive Note where
  | mark (a : Annotation)
  | castType (type : String)

namespace Note

/-- The label with the note added. -/
def extend : Note → Label → Label
  | mark a, l => { l with annotations := l.annotations ++ [a] }
  | castType type, l => { l with castType := some type }

/-- The note can be added to the label. -/
def Fits (l : Label) : Note → Prop
  | mark a => ∀ b ∈ l.annotations, b.name ≠ a.name
  | castType type => ∀ existing ∈ l.castType, existing = type

end Note

namespace Deposit

/-- What the deposit says about its element, if anything. -/
def note? : Deposit → Option Note
  | element _ => none
  | mark _ a _ => some (.mark a)
  | castType _ type _ => some (.castType type)

/-- What the deposits say about the element at the path, in order. -/
def notes (ds : List Deposit) (path : Path) : List Note :=
  ds.filterMap fun d => if d.path = path then d.note? else none

/-- No deposits leave no notes. -/
@[simp] theorem notes_nil (path : Path) : notes [] path = [] := rfl

/-- Notes are left one after the other. -/
@[simp] theorem notes_append (ds es : List Deposit) (path : Path) :
    notes (ds ++ es) path = notes ds path ++ notes es path :=
  List.filterMap_append

/-- A deposit leaves its note where it goes. -/
theorem notes_cons (d : Deposit) (ds : List Deposit) (path : Path) :
    notes (d :: ds) path = (if d.path = path then d.note?.toList else []) ++ notes ds path := by
  by_cases h : d.path = path
  · cases hn : d.note? <;> simp [notes, h, hn]
  · simp [notes, h]

/-- A deposit is refused when its note does not fit. -/
theorem refusal?_eq_none_iff {d : Deposit} {l : Label} :
    d.refusal? l = none ↔ ∀ n ∈ d.note?, n.Fits l := by
  cases d with
  | element => simp [refusal?, note?]
  | mark path a line => simp [refusal?_mark_eq_none_iff, note?, Note.Fits]
  | castType path type line => simp [refusal?_castType_eq_none_iff, note?, Note.Fits]

/-- A deposit extends a label by its note. -/
theorem extend_eq (d : Deposit) (l : Label) :
    d.extend l = d.note?.toList.foldl (fun l n => n.extend l) l := by
  cases d <;> rfl

end Deposit

namespace Label

/-- The notes can be added to the label one after the other. -/
def Takes : Label → List Note → Prop
  | _, [] => True
  | l, n :: ns => n.Fits l ∧ (n.extend l).Takes ns

/-- The label with the notes added. -/
def extendAll (l : Label) (ns : List Note) : Label := ns.foldl (fun l n => n.extend l) l

/-- What a label says. -/
def notes (l : Label) : List Note := l.annotations.map .mark ++ l.castType.toList.map .castType

/-- A blank label has no notes. -/
@[simp] theorem notes_blank : blank.notes = [] := rfl

/-- Notes are taken one after the other. -/
theorem takes_append {l : Label} {ns ms : List Note} :
    l.Takes (ns ++ ms) ↔ l.Takes ns ∧ (l.extendAll ns).Takes ms := by
  induction ns generalizing l with
  | nil => simp [Takes, extendAll]
  | cons n ns ih => simp only [List.cons_append, Takes, ih, extendAll, List.foldl_cons, and_assoc]

/-- Notes are added one after the other. -/
theorem extendAll_append (l : Label) (ns ms : List Note) :
    l.extendAll (ns ++ ms) = (l.extendAll ns).extendAll ms :=
  List.foldl_append

/-- Annotations of different types can be added one after the other, and then a cast type. -/
theorem takes_marks {l m : Label} (hl : l.castType = none)
    (hn : ((l.annotations ++ m.annotations).map (·.name)).Nodup) :
    l.Takes m.notes ∧ l.extendAll m.notes = ⟨l.annotations ++ m.annotations, m.castType⟩ := by
  obtain ⟨as, type⟩ := m
  induction as generalizing l with
  | nil =>
    obtain ⟨bs, _⟩ := l
    cases hl
    cases type with
    | none => simp [notes, Takes, extendAll]
    | some type => simp [notes, Takes, extendAll, Note.Fits, Note.extend]
  | cons a as ih =>
    have hfits : ∀ b ∈ l.annotations, b.name ≠ a.name := by
      intro b hb he
      rw [List.map_append] at hn
      exact List.disjoint_of_nodup_append hn (List.mem_map_of_mem hb) (by simp [he])
    obtain ⟨ht, he⟩ := ih (l := (Note.mark a).extend l) hl (by simpa [Note.extend] using hn)
    refine ⟨⟨hfits, ht⟩, ?_⟩
    simpa [notes, extendAll, Note.extend] using he

/-- A blank label takes what a label says and becomes that label. -/
theorem takes_notes {l : Label} (hn : (l.annotations.map (·.name)).Nodup) :
    blank.Takes l.notes ∧ blank.extendAll l.notes = l :=
  takes_marks (l := blank) rfl hn

end Label

namespace Scene

/-- Deposits whose notes can be added everywhere are loaded, and add their notes. -/
theorem load_of_takes {s : Scene} {ds : List Deposit}
    (h : ∀ path, (s.root.labelAt path).Takes (Deposit.notes ds path)) :
    (s.load ds).2 = none ∧ ∀ path, (s.load ds).1.root.labelAt path =
      (s.root.labelAt path).extendAll (Deposit.notes ds path) := by
  induction ds generalizing s with
  | nil => exact ⟨rfl, fun _ => rfl⟩
  | cons d ds ih =>
    have hself := h d.path
    rw [Deposit.notes_cons, if_pos rfl] at hself
    have hfit : d.refusal? (s.root.labelAt d.path) = none := by
      refine Deposit.refusal?_eq_none_iff.2 fun n hn => ?_
      have htake := (Label.takes_append.1 hself).1
      rw [Option.mem_def.1 hn] at htake
      exact htake.1
    have hlabel : ∀ path, (s.modifyAt d.path d.act).root.labelAt path =
        (s.root.labelAt path).extendAll (if d.path = path then d.note?.toList else []) := by
      intro path
      rw [Scene.modifyAt, d.labelAt_modifyAt]
      split
      · next hp => exact hp ▸ d.extend_eq _
      · rfl
    obtain ⟨hok, hlabels⟩ := ih (s := s.modifyAt d.path d.act) fun path => by
      have hpath := h path
      rw [Deposit.notes_cons] at hpath
      rw [hlabel]
      exact (Label.takes_append.1 hpath).2
    rw [load_cons_of_none hfit]
    refine ⟨hok, fun path => ?_⟩
    rw [hlabels, hlabel, Deposit.notes_cons, Label.extendAll_append]

/-- **Deposits that say at each path what a label says give those labels**, if no label has two
annotations of one type. -/
theorem load_of_notes {ds : List Deposit} {labels : Path → Label}
    (hn : ∀ path, ((labels path).annotations.map (·.name)).Nodup)
    (h : ∀ path, Deposit.notes ds path = (labels path).notes) :
    ∃ s, empty.load ds = (s, none) ∧ ∀ path, s.root.labelAt path = labels path := by
  have hempty : ∀ path, empty.root.labelAt path = .blank := Element.labelAt_bare
  obtain ⟨hok, hlabels⟩ := load_of_takes (s := empty) fun path => by
    rw [hempty, h]
    exact (Label.takes_notes (hn path)).1
  refine ⟨_, Prod.ext rfl hok, fun path => ?_⟩
  rw [hlabels, hempty, h]
  exact (Label.takes_notes (hn path)).2

end Scene

end AnnotationIndex
