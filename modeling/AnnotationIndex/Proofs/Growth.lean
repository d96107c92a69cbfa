import AnnotationIndex.Proofs.Reading

/-!
# Reading only adds

Whatever a text says and wherever reading stops, the scene keeps all that it held: every element
stays where it is, its slots keep their order with new ones behind them, its annotations keep their
order with new ones behind them, and a type that is cast to stays (`Scene.read_keeps`). One element
compared with a later state of itself is `Element.Keeps`; `Element.Grows` says so of all elements
of a tree at once, which a deposit that is not refused preserves (`Scene.grows_deposit`). No shape
of the scene is needed.
-/

namespace AnnotationIndex

namespace Element

/-- The second element has what the first one has itself: its label, and its slots in their order.
New annotations and new slots are at the end. -/
structure Keeps (e f : Element) : Prop where
  label : e.label.Extends f.label
  slots : Keyed.keys e.children <+: Keyed.keys f.children

/-- Every element of the first tree is in the second one, where it has kept what it has. -/
def Grows (e f : Element) : Prop :=
  ∀ path x, e.at? path = some x → ∃ y, f.at? path = some y ∧ x.Keeps y

/-- An element keeps what it has when nothing changes. -/
theorem Keeps.refl (e : Element) : e.Keeps e := ⟨.refl _, List.prefix_rfl⟩

/-- What is kept twice is kept. -/
theorem Keeps.trans {e f g : Element} (h : e.Keeps f) (h' : f.Keeps g) : e.Keeps g :=
  ⟨h.label.trans h'.label, h.slots.trans h'.slots⟩

/-- A tree has grown when nothing changes. -/
theorem Grows.refl (e : Element) : e.Grows e := fun _ x hx => ⟨x, hx, .refl x⟩

/-- A tree that grows twice has grown. -/
theorem Grows.trans {e f g : Element} (h : e.Grows f) (h' : f.Grows g) : e.Grows g := by
  intro path x hx
  obtain ⟨y, hy, hxy⟩ := h path x hx
  obtain ⟨z, hz, hyz⟩ := h' path y hy
  exact ⟨z, hz, hxy.trans hyz⟩

/-- What changes its label by addition, and nothing below, grows. -/
theorem grows_of_children_eq {e f : Element} (hl : e.label.Extends f.label)
    (hc : f.children = e.children) : e.Grows f
  | [], _, rfl => ⟨f, rfl, hl, hc ▸ List.prefix_rfl⟩
  | slot :: rest, x, hx => by
    have hx' : f.at? (slot :: rest) = some x := by rw [← hx, at?_cons, at?_cons, child?, hc, child?]
    exact ⟨x, hx', .refl x⟩

/-- A change lets a tree grow when the element that it changes grows. -/
theorem Grows.modifyAt {f : Element → Element} {path : Path} {e : Element}
    (h : (e.reach path).Grows (f (e.reach path))) : e.Grows (e.modifyAt f path) := by
  induction path generalizing e with
  | nil => exact h
  | cons slot rest ih =>
    intro other x hx
    cases other with
    | nil =>
      cases hx
      refine ⟨_, rfl, .refl _, ?_⟩
      rw [Element.modifyAt, Keyed.keys_upsert]
      split
      · exact List.prefix_rfl
      · exact List.prefix_append _ _
    | cons slot' rest' =>
      rw [at?_cons] at hx ⊢
      by_cases hs : slot = slot'
      · subst hs
        rw [child?_modifyAt_self]
        cases hc : e.child? slot with
        | none =>
          rw [hc] at hx
          cases hx
        | some child =>
          rw [hc] at hx
          rw [reach, hc] at h
          exact ih h rest' x hx
      · rw [child?_modifyAt_of_ne f e hs]
        exact ⟨x, hx, .refl x⟩

end Element

/-- A deposit that is not refused adds to the element that it meets. -/
theorem Deposit.grows_act {d : Deposit} {e : Element} (h : d.refusal? e.label = none) :
    e.Grows (d.act e) :=
  Element.grows_of_children_eq (d.label_act e ▸ extends_extend h) (d.children_act e)

namespace Scene

/-- A deposit that is not refused lets the scene grow. -/
theorem grows_deposit {s : Scene} {d : Deposit} (h : d.refusal? (s.root.labelAt d.path) = none) :
    s.root.Grows (s.modifyAt d.path d.act).root := by
  refine Element.Grows.modifyAt (Deposit.grows_act ?_)
  rwa [Element.label_reach]

/-- Loading lets the scene grow, also when some deposit is refused. -/
theorem grows_load (s : Scene) (deposits : List Deposit) :
    s.root.Grows (s.load deposits).1.root := by
  refine load_induction (P := fun t => s.root.Grows t.root) ?_ (.refl _)
  intro t ht d _ hd
  exact ht.trans (grows_deposit hd)

/-- Deposits leave the imports alone. -/
theorem imports_load (s : Scene) (deposits : List Deposit) :
    (s.load deposits).1.imports = s.imports :=
  load_induction (P := fun t => t.imports = s.imports) (fun _ ht _ _ _ => ht) rfl

/-- A text that is no sequence of tokens deposits nothing. -/
theorem depositsOf_eq_nil {text : String} {e : ReadError} (h : tokenize text = .error e) :
    (depositsOf text).1 = [] := by
  rw [depositsOf, h]

/-- Reading a text, to its end or to an error, keeps all that a scene holds. Where an element was
there is one afterwards. Its slots of each family are the old ones in their order and perhaps
further ones behind them, so that an initializer stays, and so are its annotations; a type that is
cast to stays. Imports do not change. A text that is no sequence of tokens changes nothing. -/
theorem read_keeps (s : Scene) (text : String) :
    (∀ path e, s.at? path = some e → ∃ e', (s.read text).1.at? path = some e' ∧
      (∀ family, (Keyed.keys e.children).filter (fun slot => slot.family = family) <+:
        (Keyed.keys e'.children).filter fun slot => slot.family = family) ∧
      e.annotations <+: e'.annotations ∧
      (∀ type ∈ e.castType, e'.castType = some type) ∧
      ((e.child? .initializer).isSome → (e'.child? .initializer).isSome)) ∧
    (s.read text).1.imports = s.imports ∧
    ∀ error, tokenize text = .error error → (s.read text).1 = s := by
  rw [fst_read]
  refine ⟨?_, imports_load s _, ?_⟩
  · intro path e he
    obtain ⟨e', he', hk⟩ := grows_load s (depositsOf text).1 path e he
    refine ⟨e', he', fun _ => hk.slots.filter _, hk.label.1, hk.label.2, ?_⟩
    rw [Element.child?, Element.child?, Keyed.get?_isSome_iff, Keyed.get?_isSome_iff]
    exact fun hi => hk.slots.subset hi
  · intro error h
    rw [depositsOf_eq_nil h, load]

end Scene

end AnnotationIndex
