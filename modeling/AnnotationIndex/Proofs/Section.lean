import AnnotationIndex.Proofs.Element.Shape
import AnnotationIndex.Proofs.Reader.Header
import Mathlib.Data.List.Chain

/-!
# Sections belong to the element that they are written with

Nothing closes a section, so that an element stays open until a section comes that belongs to an
element around it. That every section finds its owner rests on the order in which sections are
written (`Section.rank`): no element that is left open inside another one takes a section that is
written later with that other one (`Section.left_apart`). `Serves` says how the open elements look
while the sections of one element are read, up to which rank; reading one of its sections keeps it
(`Serves.find`, `Serves.leave`).
-/

namespace AnnotationIndex

/-! ## Written paths -/

namespace Slot

/-- The second slot is one of the element in the first and is written with it. -/
def Links (a b : Slot) : Prop := a.kind.owns b = true ∧ a.shows b = true ∧ b.Proper

/-- The slot is one of a scene. -/
def IsTop (slot : Slot) : Prop := Kind.scene.owns slot = true

/-- Packages and classes are there only when they have been created. -/
theorem IsTop.isOwned_eq_false {slot : Slot} (h : slot.IsTop) : slot.isOwned = false := by
  cases slot <;> cases h <;> rfl

end Slot

/-- The path leads to an element that can be written. -/
structure Path.Written (path : Path) : Prop where
  top : ∃ slot rest, path = slot :: rest ∧ slot.IsTop ∧ slot.Proper
  chain : path.IsChain Slot.Links

/-- A written path is continued by slots that are written with one another. -/
theorem Path.Written.append {path q : Path} {z : Slot} (h : path.Written)
    (hz : path.getLast? = some z) (hq : (z :: q).IsChain Slot.Links) : (path ++ q).Written := by
  obtain ⟨⟨top, rest, rfl, htop, hproper⟩, hchain⟩ := h
  refine ⟨⟨top, rest ++ q, rfl, htop, hproper⟩, hchain.append hq.tail fun x hx y hy => ?_⟩
  rw [hz] at hx
  cases hx
  cases q with
  | nil => cases hy
  | cons b q =>
    cases hy
    exact (List.isChain_cons_cons.1 hq).1

/-! ## Contexts -/

namespace Section

/-- The family of the slots that a section announces. -/
def family : Section → Family
  | .bound => .bound
  | .superclass | .interface => .supertype
  | .field => .field
  | .method => .method
  | .staticInit => .staticInit
  | .instanceInit => .instanceInit
  | .insertion => .insertion
  | .castInsertion => .castInsertion
  | .returnType => .returnType
  | .receiver => .receiver
  | .parameter => .parameter
  | .thrown => .thrown
  | .localVariable => .localVariable
  | .typecast => .typecast
  | .instanceof => .instanceof
  | .creation => .creation
  | .innerType => .innerType

/-- The place of a section among those that are written with one element. -/
def rank (s : Section) : Nat := Family.writingOrder.idxOf s.family

/-- The list of sections is complete. -/
theorem mem_all (s : Section) : s ∈ all := by
  cases s <;> decide

end Section

namespace Context

/-- Every kind of open element. -/
def all : List Context :=
  [.typeDecl, .method, .block, .code, .field, .variable, .typeUse]

/-- The list of open elements is complete. -/
theorem mem_all (c : Context) : c ∈ all := by
  cases c <;> decide

/-- What may be open inside an open element. -/
def inside : Context → List Context
  | .typeDecl => [.method, .block, .code, .field, .variable, .typeUse]
  | .method | .block => [.variable, .typeUse]
  | .field => [.code, .typeUse]
  | .code | .variable => [.typeUse]
  | .typeUse => []

/-- The sections of the element in the slot belong to an open element of this kind, above which it
lies by the path. -/
inductive Holds : Context → Path → Slot → Prop where
  | typeDecl (name : String) : Holds .typeDecl [] (.typeDecl name)
  | header {slot : Slot} {s : Section} {c : Context} (hs : slot.section? = some s)
      (hc : s.context? = some c) : Holds c [] slot
  | body : Holds .method [.body] .body
  | bodyCode : Holds .method [.body, .code] .code
  | blockCode : Holds .block [.code] .code
  | initializer : Holds .field [.initializer] .initializer
  | code : Holds .code [] .initializer

end Context

/-- What is left open after a section lies inside the element that the section belongs to, and takes
no section that is written later with that element. -/
theorem Section.left_apart {c c' g : Context} {s : Section} (ht : c.takes s = true)
    (hc : s.context? = some c') (hg : g = c' ∨ g ∈ c'.inside) :
    g ∈ c.inside ∧ ∀ s', c.takes s' = true → s.rank ≤ s'.rank → g.takes s' = false := by
  have hall : ∀ c ∈ Context.all, ∀ s ∈ all, c.takes s = true → ∀ c' ∈ s.context?,
      ∀ g ∈ c' :: c'.inside, g ∈ c.inside ∧
        ∀ s' ∈ all, c.takes s' = true → s.rank ≤ s'.rank → g.takes s' = false := by
    decide +kernel
  obtain ⟨hin, hapart⟩ := hall c c.mem_all s s.mem_all ht c' hc g (List.mem_cons.2 hg)
  exact ⟨hin, fun s' => hapart s' s'.mem_all⟩

/-- The section of a supertype is that of the superclass or of an interface. -/
theorem Slot.section?_supertype {t : Supertype} {s : Section}
    (h : (Slot.supertype t).section? = some s) : s = .superclass ∨ s = .interface := by
  rw [section?, Option.some.injEq] at h
  split at h
  · exact .inl h.symm
  · exact .inr h.symm

/-- The slot that a section announces is of the section's family. -/
theorem Section.family_of_section? {slot : Slot} {s : Section} (h : slot.section? = some s) :
    slot.family = s.family := by
  cases slot
  case supertype => rcases Slot.section?_supertype h with rfl | rfl <;> rfl
  all_goals cases h <;> rfl

/-- The element that a section announces is marked as the section is. -/
theorem Section.isMarked_eq {slot : Slot} {s : Section} (h : slot.section? = some s) :
    slot.kind.isMarked = s.isMarked := by
  cases slot
  case supertype => rcases Slot.section?_supertype h with rfl | rfl <;> rfl
  all_goals cases h <;> rfl

/-- Only a section for a cast that is put into source code announces a cast. -/
theorem Section.eq_castInsertion_iff {slot : Slot} {s : Section} (h : slot.section? = some s) :
    s = .castInsertion ↔ slot.kind = .cast := by
  cases slot
  case supertype => rcases Slot.section?_supertype h with rfl | rfl <;> simp [Slot.kind]
  all_goals cases h <;> simp [Slot.kind]

namespace Context

variable {c : Context} {lead : Path} {slot inner : Slot} {s : Section}

/-- A section that is written with an element belongs to the open element that holds it. -/
theorem Holds.takes (h : c.Holds lead slot) (ho : slot.kind.owns inner = true)
    (hw : slot.shows inner = true) (hs : inner.section? = some s) :
    c.takes s = true ∧ c.lead s = lead := by
  cases h with
  | typeDecl =>
    cases inner <;> cases ho
    case typeDecl.supertype.refl =>
      rcases Slot.section?_supertype hs with rfl | rfl <;> exact ⟨rfl, rfl⟩
    all_goals
      cases hs
      exact ⟨rfl, rfl⟩
  | body | bodyCode | blockCode | initializer | code =>
    cases inner <;> cases ho <;> cases hs <;> exact ⟨rfl, rfl⟩
  | header hs' hc =>
    cases slot
    case header.supertype =>
      cases inner <;> cases ho
      cases hs
      rcases Slot.section?_supertype hs' with rfl | rfl <;> cases hc <;> exact ⟨rfl, rfl⟩
    all_goals
      cases hs' <;> cases hc <;> cases inner <;> cases ho <;> cases hs <;> cases hw <;>
        exact ⟨rfl, rfl⟩

/-- The sections of an element that is not announced belong to the element that it lies in. -/
theorem Holds.plain (h : c.Holds lead slot) (ho : slot.kind.owns inner = true)
    (hw : slot.shows inner = true) (hs : inner.section? = none) :
    c.Holds (lead ++ [inner]) inner ∧ inner.heading = .plain := by
  cases h with
  | typeDecl | blockCode | initializer | code | bodyCode => cases inner <;> cases ho <;> cases hs
  | body =>
    cases inner <;> cases ho <;> cases hs
    exact ⟨.bodyCode, rfl⟩
  | header hs' hc =>
    cases slot
    case header.supertype =>
      cases inner <;> cases ho
      cases hs
    case header.method =>
      cases hs'
      cases hc
      cases inner <;> cases ho <;> cases hs
      exact ⟨.body, rfl⟩
    case header.field =>
      cases hs'
      cases hc
      cases inner <;> cases ho <;> cases hs
      exact ⟨.initializer, rfl⟩
    case header.staticInit | header.instanceInit =>
      cases hs'
      cases hc
      cases inner <;> cases ho <;> cases hs
      exact ⟨.blockCode, rfl⟩
    all_goals
      cases hs' <;> cases hc <;> cases inner <;> cases ho <;> cases hs <;> cases hw

/-- What a section announces lies in the element that takes it. -/
theorem Holds.isChain (h : c.Holds [] slot) (ht : c.takes s = true)
    (hs : inner.section? = some s) (hp : inner.Proper) :
    (slot :: (c.lead s ++ [inner])).IsChain Slot.Links := by
  have last {x : Slot} (ho : x.kind.owns inner = true) (hw : x.shows inner = true) :
      [x, inner].IsChain Slot.Links :=
    List.isChain_pair.2 ⟨ho, hw, hp⟩
  have via {x y : Slot} {l : Path} (hxy : x.Links y) (hl : (y :: l).IsChain Slot.Links) :
      (x :: y :: l).IsChain Slot.Links :=
    List.isChain_cons_cons.2 ⟨hxy, hl⟩
  cases h with
  | typeDecl =>
    cases inner
    case typeDecl.supertype =>
      rcases Slot.section?_supertype hs with rfl | rfl <;> exact last rfl rfl
    all_goals
      cases hs <;> cases ht <;> exact last rfl rfl
  | code =>
    cases inner
    case code.supertype => rcases Slot.section?_supertype hs with rfl | rfl <;> cases ht
    all_goals
      cases hs <;> cases ht <;> exact last rfl rfl
  | @header _ s' _ hs' hc =>
    cases inner
    case header.supertype =>
      rcases Slot.section?_supertype hs with rfl | rfl <;> cases c <;> cases ht <;> cases s' <;>
        cases hc
    all_goals
      cases slot
      case supertype =>
        rcases Slot.section?_supertype hs' with rfl | rfl <;> cases hc <;> cases hs <;> cases ht <;>
          exact last rfl rfl
      all_goals
        cases hs' <;> cases hc <;> cases hs <;> cases ht <;>
        first
        | exact last rfl rfl
        | exact via ⟨rfl, rfl, trivial⟩ (last rfl rfl)
        | exact via ⟨rfl, rfl, trivial⟩ (via ⟨rfl, rfl, trivial⟩ (last rfl rfl))

/-- What lies between an open element and the sections that it takes is written with it. -/
theorem Holds.isChain_lead (h : c.Holds [] slot) (s : Section) :
    (slot :: c.lead s).IsChain Slot.Links := by
  cases h with
  | typeDecl | code => exact .singleton _
  | @header _ s' _ hs hc =>
    cases slot
    case supertype =>
      rcases Slot.section?_supertype hs with rfl | rfl <;> cases hc <;> exact .singleton _
    all_goals
      cases hs <;> cases hc <;> cases s <;>
      first
      | exact .singleton _
      | exact List.isChain_pair.2 ⟨rfl, rfl, trivial⟩
      | exact List.isChain_cons_cons.2 ⟨⟨rfl, rfl, trivial⟩,
          List.isChain_pair.2 ⟨rfl, rfl, trivial⟩⟩

end Context

/-! ## The order of sections -/

namespace Family

/-- The place of the first section that is written for an element of the family. -/
def first : Family → Nat
  | .body => writingOrder.idxOf .localVariable
  | .code | .initializer => writingOrder.idxOf .typecast
  | family => writingOrder.idxOf family

/-- The place of the last section that is written for an element of the family, those of what
belongs to that element apart. -/
def last : Family → Nat
  | .body | .code | .initializer => writingOrder.idxOf .creation
  | family => writingOrder.idxOf family

/-- The first section of a family does not come after its last one. -/
theorem first_le_last (family : Family) : family.first ≤ family.last := by
  cases family <;> decide

end Family

/-- A slot with a section of its own has just that section. -/
theorem Section.first_last {slot : Slot} {s : Section} (h : slot.section? = some s) :
    slot.family.first = s.rank ∧ slot.family.last = s.rank := by
  rw [rank, family_of_section? h]
  cases s <;> exact ⟨rfl, rfl⟩

/-- The families of the slots that an element of the kind may have. -/
def Kind.families : Kind → List Family
  | .scene => [.package, .typeDecl]
  | .package => []
  | .typeUse | .cast => [.innerType]
  | .code => [.typecast, .instanceof, .creation]
  | .block => [.localVariable, .code]
  | .variable => [.innerType, .insertion, .castInsertion, .initializer]
  | .method =>
    [.insertion, .castInsertion, .bound, .returnType, .receiver, .parameter, .thrown, .body]
  | .typeDecl =>
    [.insertion, .castInsertion, .bound, .supertype, .field, .method, .staticInit, .instanceInit]

/-- The slots of an element are of the families that its kind has. -/
theorem Kind.mem_families {kind : Kind} {slot : Slot} (h : kind.owns slot = true) :
    slot.family ∈ kind.families := by
  cases kind <;> cases slot <;> first | (cases h; done) | simp [families, Slot.family]

/-- A family of elements that are not announced has one slot. -/
theorem Slot.eq_of_family {x y : Slot} (h : x.family = y.family)
    (hp : x.family ∈ [Family.body, .code, .initializer]) : x = y := by
  cases x <;> simp [family] at hp
  all_goals
    cases y <;> simp [family] at h
    rfl

/-- What is written for one of the elements in different slots of an element stands before what is
written for the other. -/
theorem Kind.last_le_first {kind : Kind} {x y : Slot} (hx : kind.owns x = true)
    (hy : kind.owns y = true) (hne : x ≠ y)
    (h : Family.writingOrder.idxOf x.family ≤ Family.writingOrder.idxOf y.family) :
    x.family.last ≤ y.family.first := by
  have hall : ∀ f ∈ kind.families, ∀ g ∈ kind.families,
      Family.writingOrder.idxOf f ≤ Family.writingOrder.idxOf g →
        f.last ≤ g.first ∨ f = g ∧ f ∈ [Family.body, .code, .initializer] := by
    cases kind <;> decide
  rcases hall _ (mem_families hx) _ (mem_families hy) h with h | ⟨hf, hplain⟩
  · exact h
  · exact absurd (Slot.eq_of_family hf hplain) hne

/-- What is not announced is a body, a position in code or an initializer. -/
theorem Slot.family_of_plain {slot : Slot} (h : slot.heading = .plain) :
    slot.family ∈ [Family.body, .code, .initializer] := by
  cases slot
  case supertype =>
    rw [heading] at h
    split at h
    · cases h
    · split at h <;> cases h
  all_goals first | (cases h; done) | simp [family]

/-- An element that is not announced carries nothing itself. -/
theorem Slot.unmarked_of_plain {slot : Slot} (h : slot.heading = .plain) :
    slot.kind.isMarked = false ∧ slot.kind ≠ .cast := by
  have hp := family_of_plain h
  cases slot <;> simp [family] at hp <;> simp [kind, Kind.isMarked]

/-- What is written for an element that is not announced is written inside the element around it. -/
theorem Slot.inside_plain {slot inner : Slot} (h : slot.family ∈ [Family.body, .code, .initializer])
    (ho : slot.kind.owns inner = true) :
    slot.family.first ≤ inner.family.first ∧ inner.family.last ≤ slot.family.last := by
  cases slot <;> simp [family] at h
  all_goals
    cases inner <;> cases ho <;> simp only [family] <;> decide

/-! ## Open elements -/

namespace Frame

/-- Open elements that do not take a section are passed over. -/
theorem find?_append {s : Section} {G : List Frame} (frames : List Frame)
    (h : ∀ g ∈ G, g.context.takes s = false) : find? s (G ++ frames) = find? s frames := by
  induction G with
  | nil => rfl
  | cons g G ih =>
    obtain ⟨hg, hG⟩ := List.forall_mem_cons.1 h
    rw [List.cons_append, find?, hg]
    exact ih hG

end Frame

/-- The open elements while sections of the element at the path are read, from a rank on: what is
left open inside it, the element itself, and what is open around it. A field whose expressions are
read counts as these. -/
def Serves (c : Context) (path : Path) (r : Nat) (outer frames : List Frame) : Prop :=
  ∃ G frame, frames = G ++ frame :: outer ∧
    (∀ g ∈ G, g.context ∈ c.inside ∧
      ∀ s, c.takes s = true → r ≤ s.rank → g.context.takes s = false) ∧
    (frame = ⟨c, path⟩ ∨
      c = .field ∧ Section.typecast.rank ≤ r ∧ frame = ⟨.code, path ++ [.initializer]⟩)

namespace Serves

variable {c : Context} {path : Path} {r : Nat} {outer frames : List Frame} {s : Section}

/-- An open element serves its own sections. -/
theorem self (c : Context) (path : Path) (outer : List Frame) :
    Serves c path 0 outer (⟨c, path⟩ :: outer) :=
  ⟨[], _, rfl, by simp, .inl rfl⟩

/-- Open elements that serve sections from a rank on serve those of a higher rank. -/
theorem mono {r' : Nat} (h : Serves c path r outer frames) (hr : r ≤ r') :
    Serves c path r' outer frames := by
  obtain ⟨G, frame, he, hG, hf⟩ := h
  refine ⟨G, frame, he, fun g hg => ?_, ?_⟩
  · exact ⟨(hG g hg).1, fun s ht hs => (hG g hg).2 s ht (hr.trans hs)⟩
  · exact hf.imp_right fun ⟨hc, hrank, hf⟩ => ⟨hc, hrank.trans hr, hf⟩

/-- A section of the element from the rank on finds the element. -/
theorem find (h : Serves c path r outer frames) (ht : c.takes s = true) (hr : r ≤ s.rank) :
    ∃ frame, Frame.find? s frames = some (frame, outer) ∧
      frame.path ++ frame.context.lead s = path ++ c.lead s ∧
      Serves c path s.rank outer (frame.resume s :: outer) := by
  obtain ⟨G, frame, rfl, hG, hf⟩ := h
  have hpass := Frame.find?_append (frame :: outer) fun g hg => (hG g hg).2 s ht hr
  rcases hf with rfl | ⟨rfl, hrank, rfl⟩
  · refine ⟨_, by rw [hpass, Frame.find?, if_pos ht], rfl, [], _, rfl, by simp, ?_⟩
    by_cases hc : c = .field ∧ s.isExpression = true
    · have hall : ∀ s ∈ Section.all, s.isExpression = true →
          Section.typecast.rank ≤ s.rank := by decide
      exact .inr ⟨hc.1, hall s s.mem_all hc.2, by rw [Frame.resume, if_pos hc]⟩
    · exact .inl (by rw [Frame.resume, if_neg hc])
  · have hs : s.isExpression = true := by
      have hall : ∀ s ∈ Section.all, Context.field.takes s = true →
          Section.typecast.rank ≤ s.rank → s.isExpression = true := by decide
      exact hall s s.mem_all ht (hrank.trans hr)
    have htake : Context.code.takes s = true := hs
    refine ⟨_, by rw [hpass, Frame.find?, if_pos htake], ?_, [], _, rfl, by simp,
      .inr ⟨rfl, hrank.trans hr, ?_⟩⟩
    · simp [Context.lead, hs]
    · simp [Frame.resume]

/-- After all sections of an element inside, the element is served as after that
element's header. -/
theorem leave {c' : Context} {path' : Path} {r' : Nat} {frame : Frame} (ht : c.takes s = true)
    (hc : s.context? = some c') (h : Serves c path s.rank outer (frame :: outer))
    (h' : Serves c' path' r' (frame :: outer) frames) : Serves c path s.rank outer frames := by
  obtain ⟨G, f, he, -, hf⟩ := h
  obtain rfl : G = [] := by
    have := congrArg List.length he
    simp only [List.length_cons, List.length_append] at this
    exact List.length_eq_zero_iff.1 (by omega)
  obtain rfl : frame = f := by simpa using he
  obtain ⟨G', f', rfl, hG', hf'⟩ := h'
  refine ⟨G' ++ [f'], frame, by simp, fun g hg => ?_, hf⟩
  refine Section.left_apart ht hc ?_
  rcases List.mem_append.1 hg with hg | hg
  · exact .inr (hG' g hg).1
  · rw [List.mem_singleton.1 hg]
    rcases hf' with rfl | ⟨rfl, -, rfl⟩
    · exact .inl rfl
    · exact .inr (by simp [Context.inside])

end Serves

end AnnotationIndex
