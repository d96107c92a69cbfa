import AnnotationIndex.Deposit
import AnnotationIndex.Proofs.Element.Shape

/-!
# Laws of deposits

A deposit changes the label at its path: `Deposit.extend` says how, and `Deposit.refusal?` when the
scene refuses it. `apply_eq` is all that is said about `Deposit.apply`; loading is then an induction
over the deposits. The main statements are that loading only adds to labels (`extends_labelAt_load`)
and that labels after a load that succeeds are the old ones with the deposits in order
(`labelAt_load`).
-/

namespace AnnotationIndex

namespace Label

/-- The second label has what the first one has, with further annotations at the end. -/
def Extends (l m : Label) : Prop :=
  l.annotations <+: m.annotations ∧ ∀ type ∈ l.castType, m.castType = some type

/-- A label extends itself. -/
theorem Extends.refl (l : Label) : l.Extends l := ⟨List.prefix_rfl, fun _ h => h⟩

/-- What extends an extension extends the label. -/
theorem Extends.trans {l m n : Label} (h : l.Extends m) (h' : m.Extends n) : l.Extends n :=
  ⟨h.1.trans h'.1, fun type ht => h'.2 type (h.2 type ht)⟩

end Label

namespace Deposit

/-- Where a deposit goes. -/
def path : Deposit → Path
  | .element path => path
  | .mark path _ _ => path
  | .castType path _ _ => path

/-- What a deposit adds to the label of its element. -/
def extend : Deposit → Label → Label
  | .element _, l => l
  | .mark _ a _, l => { l with annotations := l.annotations ++ [a] }
  | .castType _ type _, l => { l with castType := some type }

/-- What a deposit makes of its element. -/
def act : Deposit → Element → Element
  | .element _, e => e
  | .mark _ a _, e => { e with annotations := e.annotations ++ [a] }
  | .castType _ type _, e => { e with castType := some type }

/-- Why a deposit is refused at an element with the given label. -/
def refusal? : Deposit → Label → Option ReadError
  | .element _, _ => none
  | .mark _ a line, l =>
    if (AnnotationSet.find? l.annotations a.name).isSome then some ⟨line, .annotationTwice a.name⟩
    else none
  | .castType _ type line, l =>
    match l.castType with
    | none => none
    | some existing =>
      if existing = type then none else some ⟨line, .conflictingCastTypes existing type⟩

/-- An annotation is refused where one of its type is present. -/
theorem refusal?_mark_of_mem {a b : Annotation} {l : Label} (hb : b ∈ l.annotations)
    (h : b.name = a.name) (path : Path) (line : Nat) :
    (mark path a line).refusal? l = some ⟨line, .annotationTwice a.name⟩ := by
  rw [refusal?, if_pos]
  exact List.find?_isSome.2 ⟨b, hb, by simpa using h⟩

/-- An annotation is added exactly where none of its name is. -/
theorem refusal?_mark_eq_none_iff {path : Path} {a : Annotation} {line : Nat} {l : Label} :
    (mark path a line).refusal? l = none ↔ ∀ b ∈ l.annotations, b.name ≠ a.name := by
  constructor
  · intro h b hb hn
    rw [refusal?_mark_of_mem hb hn] at h
    cases h
  · intro h
    rw [refusal?, if_neg]
    intro hf
    obtain ⟨b, hb, hn⟩ := List.find?_isSome.1 hf
    exact h b hb (by simpa using hn)

/-- A cast type is set exactly where there is none or the same. -/
theorem refusal?_castType_eq_none_iff {path : Path} {type : String} {line : Nat} {l : Label} :
    (castType path type line).refusal? l = none ↔ ∀ existing ∈ l.castType, existing = type := by
  cases hl : l.castType with
  | none => simp [refusal?, hl]
  | some existing => simp [refusal?, hl]

/-- A deposit does not touch the slots of the element. -/
theorem children_act (d : Deposit) (e : Element) : (d.act e).children = e.children := by
  cases d <;> rfl

/-- A deposit extends the label of the element. -/
theorem label_act (d : Deposit) (e : Element) : (d.act e).label = d.extend e.label := by
  cases d <;> rfl

/-- A deposit is refused for the label at its path, or acts at its path. -/
theorem apply_eq (d : Deposit) (s : Scene) :
    d.apply s = match d.refusal? (s.root.labelAt d.path) with
      | some e => .error e
      | none => .ok (s.modifyAt d.path d.act) := by
  have hconst {x : Element} (hx : d.act (s.root.reach d.path) = x) :
      (s.modifyAt d.path fun _ => x) = s.modifyAt d.path d.act := by
    rw [Scene.modifyAt, Scene.modifyAt, Element.modifyAt_congr hx.symm]
  rw [← Element.label_reach]
  cases d with
  | element path => rfl
  | mark path a line =>
    simp only [apply, addMark, refusal?, Element.label, Deposit.path]
    by_cases hf : (AnnotationSet.find? (s.root.reach path).annotations a.name).isSome
    · simp only [hf, if_true]
      rfl
    · simp only [hf]
      exact congrArg Except.ok (hconst rfl)
  | castType path type line =>
    simp only [apply, setCastType, refusal?, Element.label, Deposit.path]
    cases hc : (s.root.reach path).castType with
    | none => exact congrArg Except.ok (hconst rfl)
    | some existing =>
      by_cases he : existing = type
      · subst he
        simp only [if_true]
        refine congrArg Except.ok (hconst ?_)
        simp only [act, Deposit.path]
        revert hc
        cases s.root.reach path
        rintro ⟨⟩
        rfl
      · simp only [if_neg he]
        rfl

/-- An annotation is refused because one of its name is there. -/
theorem eq_of_refusal?_mark {path : Path} {a : Annotation} {line : Nat} {l : Label} {e : ReadError}
    (h : (mark path a line).refusal? l = some e) : e = ⟨line, .annotationTwice a.name⟩ := by
  rw [refusal?] at h
  split at h
  · cases h
    rfl
  · cases h

/-- A cast type is refused because there is another one. -/
theorem eq_of_refusal?_castType {path : Path} {type : String} {line : Nat} {l : Label}
    {e : ReadError} (h : (castType path type line).refusal? l = some e) :
    ∃ existing, e = ⟨line, .conflictingCastTypes existing type⟩ := by
  simp only [refusal?] at h
  split at h
  · cases h
  · split at h
    · cases h
    · cases h
      exact ⟨_, rfl⟩

/-- A deposit that is refused says that an annotation or a cast type is in the way. -/
theorem refusal?_cause {d : Deposit} {l : Label} {e : ReadError} (h : d.refusal? l = some e) :
    (∃ name, e.cause = .annotationTwice name) ∨
      ∃ existing found, e.cause = .conflictingCastTypes existing found := by
  cases d with
  | element => cases h
  | mark path a line => exact .inl ⟨a.name, by rw [eq_of_refusal?_mark h]⟩
  | castType path type line =>
    obtain ⟨existing, he⟩ := eq_of_refusal?_castType h
    exact .inr ⟨existing, type, by rw [he]⟩

/-- A deposit that is accepted only adds. -/
theorem extends_extend {d : Deposit} {l : Label} (h : d.refusal? l = none) :
    l.Extends (d.extend l) := by
  cases d with
  | element => exact .refl l
  | mark path a line => exact ⟨List.prefix_append _ _, fun _ h => h⟩
  | castType path type line =>
    refine ⟨List.prefix_rfl, fun existing he => ?_⟩
    rw [refusal?_castType_eq_none_iff.1 h existing he]
    rfl

/-- A deposit changes the label at its path only. -/
theorem labelAt_modifyAt (d : Deposit) (e : Element) (path : Path) :
    (e.modifyAt d.act d.path).labelAt path =
      if d.path = path then d.extend (e.labelAt path) else e.labelAt path := by
  rw [Element.labelAt_modifyAt d.children_act]
  split
  · next h => rw [label_act, h, Element.label_reach]
  · rfl

/-- The label at a path after deposits. -/
def extendAll (ds : List Deposit) (path : Path) (l : Label) : Label :=
  ds.foldl (fun l d => if d.path = path then d.extend l else l) l

end Deposit

namespace Scene

variable {s : Scene}

/-- A deposit that is not refused is made, and the rest is loaded into what it leaves. -/
theorem load_cons_of_none {d : Deposit} (h : d.refusal? (s.root.labelAt d.path) = none)
    (rest : List Deposit) : s.load (d :: rest) = (s.modifyAt d.path d.act).load rest := by
  rw [load, d.apply_eq, h]

/-- A deposit that is refused ends the loading, and leaves the scene as it is. -/
theorem load_cons_of_some {d : Deposit} {e : ReadError}
    (h : d.refusal? (s.root.labelAt d.path) = some e) (rest : List Deposit) :
    s.load (d :: rest) = (s, some e) := by
  rw [load, d.apply_eq, h]

/-- Nothing is deposited after a deposit that is refused. -/
theorem load_append_of_some {s : Scene} {ds : List Deposit} {e : ReadError}
    (h : (s.load ds).2 = some e) (es : List Deposit) : s.load (ds ++ es) = s.load ds := by
  induction ds generalizing s with
  | nil => cases h
  | cons d ds ih =>
    cases hd : d.refusal? (s.root.labelAt d.path) with
    | some e => rw [List.cons_append, load_cons_of_some hd, load_cons_of_some hd]
    | none =>
      rw [load_cons_of_none hd] at h
      rw [List.cons_append, load_cons_of_none hd, load_cons_of_none hd, ih h]

/-- New elements are not refused. -/
theorem load_elements (s : Scene) (paths : List Path) :
    (s.load (paths.map Deposit.element)).2 = none := by
  induction paths generalizing s with
  | nil => rfl
  | cons path paths ih =>
    rw [List.map_cons, load_cons_of_none rfl]
    exact ih _

/-- Deposits one after another. -/
theorem load_append {s : Scene} {ds : List Deposit} (h : (s.load ds).2 = none)
    (es : List Deposit) : s.load (ds ++ es) = (s.load ds).1.load es := by
  induction ds generalizing s with
  | nil => rfl
  | cons d ds ih =>
    cases hd : d.refusal? (s.root.labelAt d.path) with
    | some e =>
      rw [load_cons_of_some hd] at h
      cases h
    | none =>
      rw [load_cons_of_none hd] at h
      rw [List.cons_append, load_cons_of_none hd, load_cons_of_none hd, ih h]

/-- What every deposit that is accepted keeps, loading keeps, also when some deposit is refused. -/
theorem load_induction {P : Scene → Prop} {ds : List Deposit}
    (hstep : ∀ s, P s → ∀ d ∈ ds, d.refusal? (s.root.labelAt d.path) = none →
      P (s.modifyAt d.path d.act)) (h : P s) : P (s.load ds).1 := by
  induction ds generalizing s with
  | nil => exact h
  | cons d rest ih =>
    cases hr : d.refusal? (s.root.labelAt d.path) with
    | some e =>
      rw [load_cons_of_some hr]
      exact h
    | none =>
      rw [load_cons_of_none hr]
      exact ih (fun s hs d hd => hstep s hs d (List.mem_cons_of_mem _ hd))
        (hstep s h d List.mem_cons_self hr)

/-- Loading only adds to labels, also when some deposit is refused. -/
theorem extends_labelAt_load (s : Scene) (ds : List Deposit) (path : Path) :
    (s.root.labelAt path).Extends ((s.load ds).1.root.labelAt path) := by
  induction ds generalizing s with
  | nil => exact .refl _
  | cons d rest ih =>
    cases h : d.refusal? (s.root.labelAt d.path) with
    | some e =>
      rw [load_cons_of_some h]
      exact .refl _
    | none =>
      rw [load_cons_of_none h]
      refine .trans ?_ (ih _)
      rw [Scene.modifyAt, d.labelAt_modifyAt]
      split
      · next hp => exact hp ▸ Deposit.extends_extend h
      · exact .refl _

/-- Labels after a load without refusal. -/
theorem labelAt_load {ds : List Deposit} (h : (s.load ds).2 = none) (path : Path) :
    (s.load ds).1.root.labelAt path = Deposit.extendAll ds path (s.root.labelAt path) := by
  induction ds generalizing s with
  | nil => rfl
  | cons d rest ih =>
    cases hr : d.refusal? (s.root.labelAt d.path) with
    | some e =>
      rw [load_cons_of_some hr] at h
      cases h
    | none =>
      rw [load_cons_of_none hr] at h ⊢
      rw [ih h, Scene.modifyAt, d.labelAt_modifyAt]
      rfl

end Scene

end AnnotationIndex
