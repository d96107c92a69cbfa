import AnnotationIndex.Proofs.Deposit
import AnnotationIndex.Proofs.Element.Merge
import AnnotationIndex.Reader.File

/-!
# Reading into a scene that holds something

Reading a text into a scene is the same as reading it alone and merging the result into the scene
(`Scene.read_eq_merge`). What a text deposits does not depend on the scene, so the statement comes
down to deposits: one deposit into a merged scene is a deposit into its second part
(`Deposit.refusal?_merge`, `Scene.modifyAt_merge`), unless it does not fit the first part.
-/

namespace AnnotationIndex

namespace Deposit

/-- What the second label refuses, both together refuse for the same reason. -/
theorem refusal?_merge_of_some {d : Deposit} {l m : Label} {e : ReadError} (hc : l.Compatible m)
    (h : d.refusal? m = some e) : d.refusal? (l.merge m) = some e := by
  cases d with
  | element => cases h
  | mark path a line =>
    rw [refusal?] at h
    split at h
    · next hf =>
      obtain ⟨b, hb, hn⟩ := List.find?_isSome.1 hf
      rw [← h]
      exact refusal?_mark_of_mem (List.mem_append_right _ hb) (by simpa using hn) path line
    · cases h
  | castType path type line =>
    cases hm : m.castType with
    | none => simp [refusal?, hm] at h
    | some existing =>
      have hl : l.castType.or (some existing) = some existing := by
        cases hl : l.castType with
        | none => rfl
        | some first => rw [hc.2 first hl existing hm]; rfl
      simp only [refusal?, hm] at h
      simp only [refusal?, Label.merge, hm, hl]
      exact h

/-- What the second label takes, both together take when what is added fits the first. -/
theorem refusal?_merge_eq_none_iff {d : Deposit} {l m : Label} (hc : l.Compatible m)
    (h : d.refusal? m = none) : d.refusal? (l.merge m) = none ↔ l.Compatible (d.extend m) := by
  cases d with
  | element => exact ⟨fun _ => hc, fun _ => rfl⟩
  | mark path a line =>
    rw [refusal?_mark_eq_none_iff] at h ⊢
    simp only [Label.merge, List.mem_append]
    constructor
    · intro ha
      refine ⟨fun b hb c hcm => ?_, hc.2⟩
      rcases List.mem_append.1 hcm with hcm | hcm
      · exact hc.1 b hb c hcm
      · rw [List.mem_singleton.1 hcm]
        exact ha b (.inl hb)
    · rintro ha b (hb | hb)
      · exact ha.1 b hb a (List.mem_append_right _ List.mem_cons_self)
      · exact h b hb
  | castType path type line =>
    rw [refusal?_castType_eq_none_iff] at h ⊢
    simp only [Label.Compatible, Label.merge, extend, Option.mem_some_iff, forall_eq',
      and_iff_right hc.1]
    cases hl : l.castType with
    | none => simpa [hl] using h
    | some first => simp

/-- Acting on a merged element is acting on its second part, if what is added fits the first. -/
theorem act_merge {d : Deposit} {x : Element} {m : Label}
    (h : x.label.Compatible (d.extend m)) (y : Element) :
    d.act (x.merge y) = x.merge (d.act y) := by
  obtain ⟨as, type, cs⟩ := x
  cases d with
  | element => rfl
  | mark path a line => simp [act, Element.merge]
  | castType path found line =>
    cases type with
    | none => simp [act, Element.merge]
    | some existing =>
      obtain rfl : existing = found := h.2 existing rfl found rfl
      simp [act, Element.merge]

end Deposit

namespace Scene

/-- Two scenes in one. The imports are those of the first. -/
def merge (s f : Scene) : Scene := { s with root := s.root.merge f.root }

/-- At no path both scenes have annotations of one type, or casts to different types. -/
def Compatible (s f : Scene) : Prop := s.root.Compatible f.root

variable {s g : Scene}

/-- Merging an empty scene changes nothing. -/
theorem merge_empty (s : Scene) : s.merge empty = s := by
  rw [merge, show empty.root = Element.bare from rfl, Element.merge_bare]

/-- An empty scene is compatible with every scene. -/
theorem compatible_empty (s : Scene) : s.Compatible empty := fun path => by
  rw [show empty.root = Element.bare from rfl, Element.labelAt_bare]
  exact Label.compatible_blank _

/-- A scene that fits the result of loading fits what was loaded into. -/
theorem Compatible.of_load {ds : List Deposit} (h : s.Compatible (g.load ds).1) :
    s.Compatible g := fun path => by
  have hp := extends_labelAt_load g ds path
  exact ⟨fun a ha b hb => (h path).1 a ha b (hp.1.subset hb),
    fun type ht type' ht' => (h path).2 type ht type' (hp.2 type' ht')⟩

/-- A deposit that both parts take goes to the second part. -/
theorem modifyAt_merge (hs : s.Shaped) {d : Deposit}
    (h : (s.root.labelAt d.path).Compatible (d.extend (g.root.labelAt d.path))) :
    (s.merge g).modifyAt d.path d.act = s.merge (g.modifyAt d.path d.act) := by
  refine congrArg (fun root => (⟨root, s.imports⟩ : Scene)) (Element.modifyAt_merge hs ?_ g.root)
  intro x hx y
  rw [Element.labelAt, hx] at h
  exact Deposit.act_merge h y

/-- Scenes stay compatible when a deposit is made that fits the label where it goes. -/
theorem compatible_modifyAt (hc : s.Compatible g) {d : Deposit}
    (h : (s.root.labelAt d.path).Compatible (d.extend (g.root.labelAt d.path))) :
    s.Compatible (g.modifyAt d.path d.act) := fun path => by
  rw [Scene.modifyAt, d.labelAt_modifyAt]
  split
  · next hp => exact hp ▸ h
  · exact hc path

/-- Loading into a merged scene: when the second part takes all deposits and the result fits the
first part, it is merged; otherwise some deposit is refused. -/
theorem load_merge (hs : s.Shaped) (ds : List Deposit) (hc : s.Compatible g) :
    ((g.load ds).2 = none → s.Compatible (g.load ds).1 →
      (s.merge g).load ds = (s.merge (g.load ds).1, none)) ∧
    (¬ ((g.load ds).2 = none ∧ s.Compatible (g.load ds).1) →
      ∃ d l e, Deposit.refusal? d l = some e ∧ ((s.merge g).load ds).2 = some e) := by
  induction ds generalizing g with
  | nil => exact ⟨fun _ _ => rfl, fun h => absurd ⟨rfl, hc⟩ h⟩
  | cons d rest ih =>
    have hlabel : (s.merge g).root.labelAt d.path =
        (s.root.labelAt d.path).merge (g.root.labelAt d.path) := Element.labelAt_merge ..
    cases hg : d.refusal? (g.root.labelAt d.path) with
    | some e =>
      have hm := Deposit.refusal?_merge_of_some (hc d.path) hg
      rw [← hlabel] at hm
      rw [load_cons_of_some hg, load_cons_of_some hm]
      exact ⟨fun h => (by cases h), fun _ => ⟨d, _, e, hg, rfl⟩⟩
    | none =>
      rw [load_cons_of_none hg]
      have hiff := Deposit.refusal?_merge_eq_none_iff (hc d.path) hg
      rw [← hlabel] at hiff
      cases hm : d.refusal? ((s.merge g).root.labelAt d.path) with
      | none =>
        have hfit := hiff.1 hm
        rw [load_cons_of_none hm, modifyAt_merge hs hfit]
        exact ih (compatible_modifyAt hc hfit)
      | some e =>
        rw [load_cons_of_some hm]
        refine ⟨fun _ hr => ?_, fun _ => ⟨d, _, e, hm, rfl⟩⟩
        have hstep := hr.of_load d.path
        rw [Scene.modifyAt, d.labelAt_modifyAt, if_pos rfl] at hstep
        cases hm.symm.trans (hiff.2 hstep)

/-- Loading into a scene is loading into the empty scene and merging. -/
theorem load_eq_merge (hs : s.Shaped) (ds : List Deposit) :
    ((empty.load ds).2 = none → s.Compatible (empty.load ds).1 →
      s.load ds = (s.merge (empty.load ds).1, none)) ∧
    (¬ ((empty.load ds).2 = none ∧ s.Compatible (empty.load ds).1) →
      ∃ d l e, Deposit.refusal? d l = some e ∧ (s.load ds).2 = some e) := by
  have := load_merge hs ds s.compatible_empty
  rwa [merge_empty] at this

/-- A text describes a scene when it can be read and none of its deposits is refused. -/
theorem ofText_eq_ok_iff {text : String} {f : Scene} :
    ofText text = .ok f ↔
      (depositsOf text).2 = none ∧ empty.load (depositsOf text).1 = (f, none) := by
  rw [ofText, read]
  rcases depositsOf text with ⟨ds, failure⟩
  rcases hload : empty.load ds with ⟨g, refused⟩
  cases refused <;> cases failure <;> simp [hload]

/-- **Reading is merging.** A text can be read into a scene exactly when it describes a scene by
itself that is compatible with it. The result is then the union of both, and when the two are not
compatible, the error is about an annotation or a cast type that is already there. -/
theorem read_eq_merge (s : Scene) (hs : s.Shaped) (text : String) :
    ((s.read text).2 = none ↔ ∃ f, ofText text = .ok f ∧ s.Compatible f) ∧
    ∀ f, ofText text = .ok f →
      (s.Compatible f → s.read text = (s.merge f, none)) ∧
      (¬ s.Compatible f → ∃ e, (s.read text).2 = some e ∧
        ((∃ name, e.cause = .annotationTwice name) ∨
          ∃ existing found, e.cause = .conflictingCastTypes existing found)) := by
  obtain ⟨hok, hfail⟩ := load_eq_merge hs (depositsOf text).1
  have hmerged {f : Scene} (hf : ofText text = .ok f) (hc : s.Compatible f) :
      s.read text = (s.merge f, none) := by
    obtain ⟨hread, hload⟩ := ofText_eq_ok_iff.1 hf
    rw [hload] at hok
    rw [read]
    simp only [hok rfl hc, hread]
  have hrefused {e : ReadError} (h : (s.load (depositsOf text).1).2 = some e) :
      (s.read text).2 = some e := by
    rw [read]
    rcases hl : s.load (depositsOf text).1 with ⟨s', refused⟩
    rw [hl] at h
    simp only at h
    simp only [hl, h]
  refine ⟨⟨fun h => ?_, fun ⟨f, hf, hc⟩ => by rw [hmerged hf hc]⟩, fun f hf =>
    ⟨hmerged hf, fun hc => ?_⟩⟩
  · by_cases hfit : (empty.load (depositsOf text).1).2 = none ∧
        s.Compatible (empty.load (depositsOf text).1).1
    · refine ⟨_, ofText_eq_ok_iff.2 ⟨?_, Prod.ext rfl hfit.1⟩, hfit.2⟩
      rw [read] at h
      simpa only [hok hfit.1 hfit.2] using h
    · obtain ⟨d, l, e, -, he⟩ := hfail hfit
      cases h.symm.trans (hrefused he)
  · obtain ⟨hread, hload⟩ := ofText_eq_ok_iff.1 hf
    rw [hload] at hfail
    obtain ⟨d, l, e, hr, he⟩ := hfail fun h => hc h.2
    exact ⟨e, hrefused he, Deposit.refusal?_cause hr⟩

namespace merged

/-- An annotation of a type without fields. -/
def mark (name : String) : Annotation := ⟨⟨name, some .runtime, [], []⟩, []⟩

/-- A class with an annotated field. -/
def present : Scene := empty.modifyAt [.typeDecl "C", .field "x"] fun e =>
  { e with annotations := [mark "A"] }

/-- A class with annotations of one type on it and on two of its fields. -/
def added (name : String) : Scene :=
  ⟨⟨[], none, [(.typeDecl "C", ⟨[mark name], none,
    [(.field "x", ⟨[mark name], none, []⟩), (.field "y", ⟨[mark name], none, []⟩)]⟩)]⟩, []⟩

/-- The scene of the marked field has the shape of scenes. -/
theorem shaped_present : present.Shaped := by
  refine Element.Shaped.modifyAt (fun e he => ?_) (by decide) (Element.shaped_fresh .scene)
  cases he with
  | mk _ cast distinct filled owned shaped =>
    exact .mk (fun h => by cases h) cast distinct filled owned shaped

/-- A text about an annotation of the type on the class and on its fields. -/
def text (name : String) : String :=
  "package: annotation visible @" ++ name ++ ": class C: @" ++ name ++ " field x: @" ++ name ++
    " field y: @" ++ name

set_option maxRecDepth 10000 in
/-- The text with another annotation describes the scene with that annotation. -/
theorem ofText_text_other : ofText (text "B") = .ok (added "B") := by with_unfolding_all rfl

set_option maxRecDepth 10000 in
/-- The text with the same annotation describes the scene with that annotation. -/
theorem ofText_text_same : ofText (text "A") = .ok (added "A") := by with_unfolding_all rfl

end merged

open merged

/-- Annotations of another type go beside the one on the field. One of the same type is refused, and
the scenes are not compatible. -/
theorem read_eq_merge_annotatedField : present.Shaped ∧
    (ofText (text "B") = .ok (added "B") ∧ present.Compatible (added "B") ∧
      present.read (text "B") = (present.merge (added "B"), none)) ∧
    ofText (text "A") = .ok (added "A") ∧ ¬ present.Compatible (added "A") ∧
      ∃ e, (present.read (text "A")).2 = some e ∧ e.cause = .annotationTwice "A" := by
  have hread : (present.read (text "B")).2 = none := by decide +kernel
  have hrefused : (present.read (text "A")).2 = some ⟨1, .annotationTwice "A"⟩ := by
    decide +kernel
  obtain ⟨hiff, hmerge⟩ := read_eq_merge present shaped_present (text "B")
  have hcompatible : present.Compatible (added "B") := by
    obtain ⟨f, hf, hc⟩ := hiff.1 hread
    cases ofText_text_other.symm.trans hf
    exact hc
  refine ⟨shaped_present, ⟨ofText_text_other, hcompatible,
    (hmerge _ ofText_text_other).1 hcompatible⟩, ofText_text_same, fun hc => ?_, _, hrefused, rfl⟩
  have := ((read_eq_merge present shaped_present (text "A")).2 _ ofText_text_same).1 hc
  rw [this] at hrefused
  cases hrefused

end Scene

end AnnotationIndex
