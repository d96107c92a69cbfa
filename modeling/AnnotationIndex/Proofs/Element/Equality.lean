import AnnotationIndex.Proofs.Annotation.Reordering
import AnnotationIndex.Proofs.Element.Prune

/-!
# Structural equality

Equality of values, annotations, definitions, sets of annotations, elements and scenes has the same
properties throughout (`partialEquivalence_beq`): it is symmetric and transitive, does not see the
order of entries, and holds between data and themselves just when there is no NaN in what it
compares.
-/

namespace AnnotationIndex

/-! ## Elements in which nothing occurs twice -/

namespace Element

/-- The property holds of the element and of everything below it. -/
inductive All (P : Element → Prop) : Element → Prop where
  | mk {e : Element} (self : P e) (children : ∀ c ∈ e.children, All P c.2) : All P e

namespace All

variable {P : Element → Prop} {e : Element}

/-- What holds everywhere in a tree holds of its root. -/
theorem self (h : e.All P) : P e := by
  cases h with | mk h => exact h

/-- What holds everywhere in a tree holds everywhere in each of its children. -/
theorem children (h : e.All P) : ∀ c ∈ e.children, c.2.All P := by
  cases h with | mk _ h => exact h

end All

/-- No annotation and no slot occurs twice in the element, nor below it. -/
def Distinct (e : Element) : Prop :=
  e.All fun x => AnnotationSet.Distinct x.annotations ∧ (Keyed.keys x.children).Nodup

/-- No NaN is in the annotations of the element, nor in those below it. -/
def NowhereNaN (e : Element) : Prop := e.All fun x => ∀ a ∈ x.annotations, a.NowhereNaN

variable {x y z : Element}

/-! ## Symmetry and transitivity -/

/-- Equality of elements is transitive. -/
theorem beq_trans (h : x.beq y = true) (h' : y.beq z = true) : x.beq z = true := by
  induction x using induct generalizing y z with
  | h x ih =>
    obtain ⟨has, htype, hlength, hchildren⟩ := beq_iff.1 h
    obtain ⟨has', htype', hlength', hchildren'⟩ := beq_iff.1 h'
    refine beq_iff.2 ⟨AnnotationSet.beq_trans has has', htype.trans htype', hlength.trans hlength',
      fun c hc => ?_⟩
    obtain ⟨other, hother, hb⟩ := hchildren c hc
    obtain ⟨third, hthird, hb'⟩ := hchildren' _ (Keyed.mem_of_get? hother)
    exact ⟨third, hthird, ih c hc hb hb'⟩

/-- Equality of elements in which nothing occurs twice is symmetric. -/
theorem Distinct.beq_symm (hx : x.Distinct) (h : x.beq y = true) : y.beq x = true := by
  induction x using induct generalizing y with
  | h x ih =>
    obtain ⟨has, htype, hlength, hchildren⟩ := beq_iff.1 h
    refine beq_iff.2 ⟨hx.self.1.beq_symm has, htype.symm, hlength.symm, ?_⟩
    refine Keyed.exists_partner (r := fun x y => y.beq x = true) hx.self.2 hlength fun c hc => ?_
    obtain ⟨other, hother, hb⟩ := hchildren c hc
    exact ⟨other, hother, ih c hc (hx.children c hc) hb⟩

/-! ## Reflexivity -/

/-- No NaN is in an element that equals another one. -/
theorem nowhereNaN_of_beq (h : x.beq y = true) : x.NowhereNaN := by
  induction x using induct generalizing y with
  | h x ih =>
    obtain ⟨has, -, -, hchildren⟩ := beq_iff.1 h
    refine .mk (AnnotationSet.nowhereNaN_of_beq has) fun c hc => ?_
    obtain ⟨other, -, hb⟩ := hchildren c hc
    exact ih c hc hb

/-- An element without NaN equals itself. -/
theorem NowhereNaN.beq_self (hn : x.NowhereNaN) (hx : x.Distinct) : x.beq x = true := by
  induction x using induct with
  | h x ih =>
    exact beq_iff.2 ⟨hx.self.1.beq_self hn.self, rfl, rfl, fun c hc =>
      ⟨c.2, Keyed.get?_of_mem hx.self.2 hc, ih c hc (hn.children c hc) (hx.children c hc)⟩⟩

/-! ## Reordering -/

/-- The annotations or the slots of an element, or a list inside one of them, are put into another
order. -/
inductive Reorders : Element → Element → Prop where
  | annotations {as as' : List Annotation} {type : Option String} {children : List (Slot × Element)}
      (h : AnnotationSet.Reorders as as') : Reorders ⟨as, type, children⟩ ⟨as', type, children⟩
  | children {as : List Annotation} {type : Option String}
      {children children' : List (Slot × Element)} (h : children.Perm children') :
      Reorders ⟨as, type, children⟩ ⟨as, type, children'⟩
  | child {as : List Annotation} {type : Option String} {before after : List (Slot × Element)}
      {slot : Slot} {e e' : Element} (h : Reorders e e') :
      Reorders ⟨as, type, before ++ (slot, e) :: after⟩ ⟨as, type, before ++ (slot, e') :: after⟩

/-- A reordered element equals the same elements. -/
theorem Reorders.beq_eq (h : x.Reorders y) : ∀ z, y.beq z = x.beq z := by
  induction h with
  | annotations h =>
    intro z
    rw [beq, beq, h.beq_eq]
  | children h =>
    intro z
    rw [Bool.eq_iff_iff, beq_iff, beq_iff]
    simp only [h.length_eq, h.mem_iff]
  | child _ ih =>
    intro z
    rw [Bool.eq_iff_iff, beq_iff, beq_iff]
    simp only [List.forall_mem_append, List.forall_mem_cons, List.length_append, List.length_cons,
      ih]

/-- Nothing occurs twice in a reordered element. -/
theorem Reorders.distinct (h : x.Reorders y) : x.Distinct → y.Distinct := by
  induction h with
  | annotations h => exact fun hx => .mk ⟨h.distinct hx.self.1, hx.self.2⟩ hx.children
  | children h =>
    exact fun hx => .mk ⟨hx.self.1, (h.map _).nodup_iff.1 hx.self.2⟩ fun c hc =>
      hx.children c (h.mem_iff.2 hc)
  | child _ ih =>
    intro hx
    have hchildren := hx.children
    simp only [List.forall_mem_append, List.forall_mem_cons] at hchildren
    refine .mk ⟨hx.self.1, by simpa [Keyed.keys] using hx.self.2⟩ ?_
    simp only [List.forall_mem_append, List.forall_mem_cons]
    exact ⟨hchildren.1, ih hchildren.2.1, hchildren.2.2⟩

end Element

/-! ## Partial equivalence -/

/-- Equality of data of one kind is symmetric and transitive. Reordered data equal the same data,
and the same data equal them. Data equal themselves just when they hold no NaN. All of this concerns
the data that can be built, in which no key of a map occurs twice and no two annotations of a set
are equal. -/
structure PartialEquivalence {α : Type} (beq : α → α → Bool) (valid nowhereNaN : α → Prop)
    (reorders : α → α → Prop) : Prop where
  symm : ∀ x y, valid x → valid y → beq x y = true → beq y x = true
  trans : ∀ x y z, valid x → valid y → valid z → beq x y = true → beq y z = true → beq x z = true
  reordered : ∀ x x' y, valid x → valid y → Relation.ReflTransGen reorders x x' →
    beq x' y = beq x y ∧ beq y x' = beq y x
  self_iff : ∀ x, valid x → (beq x x = true ↔ nowhereNaN x)

section
variable {α : Type} {beq : α → α → Bool} {valid nowhereNaN : α → Prop} {reorders : α → α → Prop}

/-- It is enough to know what one reordering does on the left. -/
theorem PartialEquivalence.of_reorders (symm : ∀ {x y}, valid x → beq x y = true → beq y x = true)
    (trans : ∀ {x y z}, beq x y = true → beq y z = true → beq x z = true)
    (left : ∀ {x x'}, reorders x x' → ∀ y, beq x' y = beq x y)
    (keeps : ∀ {x x'}, reorders x x' → valid x → valid x')
    (free : ∀ {x y}, beq x y = true → nowhereNaN x)
    (self : ∀ {x}, nowhereNaN x → valid x → beq x x = true) :
    PartialEquivalence beq valid nowhereNaN reorders where
  symm _ _ hx _ h := symm hx h
  trans _ _ _ _ _ _ h h' := trans h h'
  self_iff _ hx := ⟨free, fun hn => self hn hx⟩
  reordered x x' y hx hy h := by
    have hleft : valid x' ∧ beq x' y = beq x y := by
      induction h with
      | refl => exact ⟨hx, rfl⟩
      | tail _ hstep ih => exact ⟨keeps hstep ih.1, (left hstep y).trans ih.2⟩
    obtain ⟨hx', hleft⟩ := hleft
    have hcomm : ∀ {a b}, valid a → valid b → beq a b = beq b a := fun ha hb =>
      Bool.eq_iff_iff.2 ⟨symm ha, symm hb⟩
    exact ⟨hleft, by rw [hcomm hy hx', hleft, hcomm hx hy]⟩

end

/-- **Structural equality is a partial equivalence**, of values, annotations, definitions, sets of
annotations, elements and scenes. It forgets the order of annotations, fields, field values and
slots, and only NaN keeps data from being equal to themselves. -/
theorem partialEquivalence_beq :
    PartialEquivalence Value.beq Value.Distinct Value.NowhereNaN Value.Reorders ∧
    PartialEquivalence Annotation.beq Annotation.Distinct Annotation.NowhereNaN
      Annotation.Reorders ∧
    PartialEquivalence Definition.beq Definition.Distinct Definition.NaNFree Definition.Reorders ∧
    PartialEquivalence AnnotationSet.beq AnnotationSet.Built (fun s => ∀ a ∈ s, a.NowhereNaN)
      AnnotationSet.Reorders ∧
    PartialEquivalence Element.beq Element.Distinct Element.NowhereNaN Element.Reorders ∧
    PartialEquivalence Scene.beq (fun s => s.root.Distinct) (fun s => s.root.NowhereNaN)
      (fun s t => s.root.Reorders t.root) := by
  refine ⟨?_, ?_, ?_, ?_, ?_, ?_⟩
  · exact .of_reorders Value.beq_symm Value.beq_trans (fun h => h.beq_eq) (fun h => h.distinct)
      Value.nowhereNaN_of_beq fun hn => hn.beq_self
  · exact .of_reorders Annotation.beq_symm Annotation.beq_trans (fun h => h.beq_eq)
      (fun h => h.distinct) Annotation.nowhereNaN_of_beq fun hn => hn.beq_self
  · exact .of_reorders Definition.beq_symm Definition.beq_trans (fun h => h.beq_eq)
      (fun h => h.distinct) Definition.naNFree_of_beq fun hn hd => Definition.beq_self hd hn
  · have hbuilt : AnnotationSet.Built = AnnotationSet.Distinct :=
      funext fun _ => propext AnnotationSet.built_iff
    rw [hbuilt]
    exact .of_reorders AnnotationSet.Distinct.beq_symm AnnotationSet.beq_trans (fun h => h.beq_eq)
      (fun h => h.distinct) AnnotationSet.nowhereNaN_of_beq fun hn hs => hs.beq_self hn
  · exact .of_reorders Element.Distinct.beq_symm Element.beq_trans (fun h => h.beq_eq)
      (fun h => h.distinct) Element.nowhereNaN_of_beq fun hn => hn.beq_self
  · exact .of_reorders Element.Distinct.beq_symm Element.beq_trans (fun h y => h.beq_eq y.root)
      (fun h => h.distinct) Element.nowhereNaN_of_beq fun hn => hn.beq_self

/-- A NaN differs from itself, and so does whatever holds it. -/
example : (Value.array [.floating .double .nan]).beq (.array [.floating .double .nan]) = false :=
  rfl

end AnnotationIndex
