import AnnotationIndex.Proofs.Element.Prune
import AnnotationIndex.Proofs.Merging
import AnnotationIndex.Proofs.Reader.Run
import AnnotationIndex.Proofs.Writer

/-!
# Scenes that are read

What a text describes can be written again. Loading sound deposits keeps `Scene.Sound`: the scene
has its shape, annotations stand where a header can announce them, and they are typed over the
definitions of the text (`Scene.sound_of_ofText`). The pruned scene then satisfies what the writer
needs (`Scene.Sound.writable_prune`).
-/

namespace AnnotationIndex

/-! ## Loading sound deposits -/

/-- What a sound deposit makes of its element has the same shape. -/
theorem Deposit.Sound.shaped_act {ds : List Definition} {d : Deposit} (h : d.Sound ds) {e : Element}
    (he : e.Shaped (Kind.scene.after d.path)) : (d.act e).Shaped (Kind.scene.after d.path) := by
  obtain ⟨⟨⟨slot, rest, hpath, -⟩, -⟩, h⟩ := h
  have hscene : Kind.scene.after d.path ≠ .scene := by
    rw [hpath]
    exact Kind.after_slot_ne_scene slot rest
  cases he with
  | mk unmarked cast distinct filled owned shaped =>
    cases d with
    | element => exact .mk unmarked cast distinct filled owned shaped
    | mark => exact .mk (fun hk => absurd hk hscene) cast distinct filled owned shaped
    | castType => exact .mk unmarked (fun _ => h.1) distinct filled owned shaped

namespace Scene

variable {s : Scene} {ds : List Definition} {T : Annotation → Prop}

/-- A scene keeps its shape under sound deposits. -/
theorem Shaped.deposit (hs : s.Shaped) {d : Deposit} (hd : d.Sound ds) :
    (s.modifyAt d.path d.act).Shaped :=
  Element.Shaped.modifyAt (fun _ => hd.shaped_act) hd.1.hasPath hs

/-- What a text makes of a scene is what loading its deposits makes of it. -/
theorem fst_read (s : Scene) (text : String) :
    (s.read text).1 = (s.load (depositsOf text).1).1 := by
  rw [Scene.read]
  rcases hl : s.load (depositsOf text).1 with ⟨t, refused⟩
  cases refused <;> simp [hl]

/-- A scene keeps its shape when a text is read into it, to its end or to an error. -/
theorem Shaped.read (hs : s.Shaped) (text : String) : (s.read text).1.Shaped := by
  obtain ⟨ds, -, hall⟩ := depositsOf_sound text
  rw [fst_read]
  exact load_induction (fun _ hs d hd _ => hs.deposit (hall d hd)) hs

/-- What a scene says comes from sound deposits, of annotations with the given property. -/
structure Sound (T : Annotation → Prop) (s : Scene) : Prop where
  shaped : s.Shaped
  marks : ∀ path, ∀ a ∈ (s.root.labelAt path).annotations, path.Written ∧
    (Kind.scene.after path).isMarked = true ∧ T a ∧ a.definition.isTopLevel = true
  names : ∀ path, ((s.root.labelAt path).annotations.map (·.name)).Nodup
  casts : ∀ path, ∀ type ∈ (s.root.labelAt path).castType,
    Kind.scene.after path = .cast ∧ Reader.IsCastType type

/-- An empty scene is sound. -/
theorem sound_empty (T : Annotation → Prop) : empty.Sound T := by
  have hblank : ∀ path, empty.root.labelAt path = .blank := Element.labelAt_bare
  refine ⟨Element.shaped_fresh .scene, ?_, ?_, ?_⟩ <;> simp [hblank, Label.blank]

/-- A sound deposit that is accepted keeps the scene sound. -/
theorem Sound.deposit (h : s.Sound T) (ht : ∀ a, a.Typed ds → T a) {d : Deposit}
    (hd : d.Sound ds) (hr : d.refusal? (s.root.labelAt d.path) = none) :
    (s.modifyAt d.path d.act).Sound T := by
  have hlabel : ∀ path, (s.modifyAt d.path d.act).root.labelAt path =
      if d.path = path then d.extend (s.root.labelAt path) else s.root.labelAt path :=
    d.labelAt_modifyAt s.root
  refine ⟨h.shaped.deposit hd, fun path a ha => ?_, fun path => ?_, fun path type htype => ?_⟩
  · rw [hlabel] at ha
    split at ha
    · next hp =>
      cases d with
      | element => exact h.marks path a ha
      | castType => exact h.marks path a ha
      | mark _ b _ =>
        rcases List.mem_append.1 ha with ha | ha
        · exact h.marks path a ha
        · rw [List.mem_singleton.1 ha, ← hp]
          exact ⟨hd.1, hd.2.1, ht b hd.2.2.1, hd.2.2.2⟩
    · exact h.marks path a ha
  · rw [hlabel]
    split
    · next hp =>
      cases d with
      | element => exact h.names path
      | castType => exact h.names path
      | mark _ a _ =>
        rw [hp] at hr
        rw [Deposit.extend, List.map_append]
        refine (h.names path).append (List.nodup_singleton _) ?_
        rintro n hn hna
        obtain ⟨b, hb, rfl⟩ := List.mem_map.1 hn
        exact Deposit.refusal?_mark_eq_none_iff.1 hr b hb (by simpa using hna)
    · exact h.names path
  · rw [hlabel] at htype
    split at htype
    · next hp =>
      cases d with
      | element => exact h.casts path type htype
      | mark => exact h.casts path type htype
      | castType _ _ _ =>
        cases htype
        rw [← hp]
        exact hd.2
    · exact h.casts path type htype

/-- A scene stays sound when sound deposits are loaded. -/
theorem Sound.load (h : s.Sound T) (ht : ∀ a, a.Typed ds → T a) {deposits : List Deposit}
    (hd : ∀ d ∈ deposits, d.Sound ds) : (s.load deposits).1.Sound T :=
  load_induction (fun _ hs d hmem hr => hs.deposit ht (hd d hmem) hr) h

/-- A scene stays sound when a text is read into it, to its end or to an error. -/
theorem Sound.read (h : s.Sound T) (ht : ∀ ds, Declarations ds → ∀ a, a.Typed ds → T a)
    (text : String) : (s.read text).1.Sound T := by
  obtain ⟨ds, hds, hall⟩ := depositsOf_sound text
  rw [fst_read]
  exact h.load (ht ds hds) hall

/-- **A scene that a text describes is sound** over the definitions of the text, which are
declared. -/
theorem sound_of_ofText {text : String} (h : ofText text = .ok s) :
    ∃ ds, Declarations ds ∧ s.Sound fun a => a.Typed ds := by
  obtain ⟨-, hload⟩ := ofText_eq_ok_iff.1 h
  obtain ⟨ds, hds, hall⟩ := depositsOf_sound text
  have hempty := sound_empty <| Annotation.Typed ds
  have hsound := hempty.load (fun _ ht => ht) hall
  rw [hload] at hsound
  exact ⟨ds, hds, hsound⟩

end Scene

/-! ## What a scene uses -/

namespace Element

/-- An element below another one is at some path. -/
theorem exists_path_of_below {k kind : Kind} {x e : Element} (h : Below k x kind e) :
    e.Shaped kind → ∃ path, e.at? path = some x ∧ kind.after path = k := by
  induction h with
  | self => exact fun _ => ⟨[], rfl, rfl⟩
  | @child _ e c hc _ ih =>
    intro he
    obtain ⟨path, hpath, hk⟩ := ih (he.children c hc)
    have hchild : e.child? c.1 = some c.2 := Keyed.get?_of_mem he.distinct hc
    exact ⟨c.1 :: path, by rw [at?_cons, hchild]; exact hpath, hk⟩

/-- What is at a path is below the element. -/
theorem below_of_at? {path : Path} {kind : Kind} {x e : Element} (h : e.at? path = some x) :
    Below (kind.after path) x kind e := by
  induction path generalizing kind e with
  | nil =>
    cases h
    exact .self
  | cons slot rest ih =>
    rw [at?_cons] at h
    cases hc : e.child? slot with
    | none => simp [hc] at h
    | some child =>
      rw [hc] at h
      exact .child (Keyed.mem_of_get? hc) (ih h)

end Element

namespace Scene

variable {s : Scene} {T : Annotation → Prop}

/-- The annotations that count are those at paths to elements that can be marked. -/
theorem Shaped.uses_iff (h : s.Shaped) {a : Annotation} : s.Uses a ↔
    ∃ path, (Kind.scene.after path).isMarked = true ∧ a ∈ (s.root.labelAt path).annotations := by
  constructor
  · rintro ⟨kind, x, hx, hk, ha⟩
    obtain ⟨path, hpath, rfl⟩ := Element.exists_path_of_below hx h
    exact ⟨path, hk, by rwa [Element.labelAt, hpath]⟩
  · rintro ⟨path, hk, ha⟩
    rw [Element.labelAt] at ha
    split at ha
    · next x hx => exact ⟨_, x, Element.below_of_at? hx, hk, ha⟩
    · cases ha

/-- What holds of the annotations of a sound scene holds of those that it uses. -/
theorem Sound.of_uses (h : s.Sound T) {a : Annotation} (ha : s.Uses a) : T a := by
  obtain ⟨path, -, ha⟩ := h.shaped.uses_iff.1 ha
  exact (h.marks path a ha).2.2.1

/-- All annotations of a sound scene count. -/
theorem Sound.uses (h : s.Sound T) {path : Path} {a : Annotation}
    (ha : a ∈ (s.root.labelAt path).annotations) : s.Uses a :=
  h.shaped.uses_iff.2 ⟨path, (h.marks path a ha).2.1, ha⟩

end Scene

/-! ## Pruned scenes can be written -/

/-- A pruned element can be written when what is said in it has a place there. -/
theorem Element.writable_prune {ds : List Definition} (e : Element) : ∀ {slot : Slot},
    e.Shaped slot.kind →
    (∀ rest, ∀ a ∈ (e.labelAt rest).annotations, (slot :: rest).IsChain Slot.Links ∧
      (slot.kind.after rest).isMarked = true ∧ a.Typed ds ∧ a.definition.isTopLevel = true) →
    (∀ rest, ∀ type ∈ (e.labelAt rest).castType,
      slot.kind.after rest = .cast ∧ Reader.IsCastType type) →
    (∀ rest x, e.at? rest = some x → ∀ inner ∈ rest, inner.NoComment) →
    e.prune.Writable ds slot := by
  induction e using Element.induct with
  | h e ih =>
    intro slot he hmarks hcasts hcomment
    have hlabel : e.prune.label = e.label := e.label_prune
    have has : e.prune.annotations = e.annotations := congrArg Label.annotations hlabel
    have htype : e.prune.castType = e.castType := congrArg Label.castType hlabel
    refine .mk (fun a ha => ?_) (fun hne => ?_) (fun type ht => ?_) (Element.nodup_keys_prune he)
      (fun c hc => ?_) (fun c hc => ?_)
    · rw [has] at ha
      exact (hmarks [] a ha).2.2
    · rw [has] at hne
      obtain ⟨a, ha⟩ := List.exists_mem_of_ne_nil _ hne
      exact (hmarks [] a ha).2.1
    · rw [htype] at ht
      exact hcasts [] type ht
    · obtain ⟨child, hmem, hkept, -⟩ := Element.mem_children_prune_iff.1 hc
      have ho := he.owned (c.1, child) hmem
      have hchild : e.child? c.1 = some child := Keyed.get?_of_mem he.distinct hmem
      rcases hkept with hk | hann
      · exact Slot.links_of_isOwned ho hk
      · obtain ⟨rest, hne⟩ := (Element.isAnnotated_iff (he.children _ hmem)).1 hann
        obtain ⟨a, ha⟩ := List.exists_mem_of_ne_nil _ hne
        rw [← Element.labelAt_cons_of_some hchild] at ha
        refine ⟨(List.isChain_cons_cons.1 (hmarks _ a ha).1).1, ?_⟩
        exact hcomment [c.1] child (by rw [Element.at?_cons, hchild]; rfl) c.1 (by simp)
    · obtain ⟨child, hmem, -, hpruned⟩ := Element.mem_children_prune_iff.1 hc
      have hchild : e.child? c.1 = some child := Keyed.get?_of_mem he.distinct hmem
      have hinside : ∀ rest, e.labelAt (c.1 :: rest) = child.labelAt rest :=
        Element.labelAt_cons_of_some hchild
      rw [hpruned]
      refine ih _ hmem (he.children _ hmem) (fun rest a ha => ?_) (fun rest type ht => ?_)
        (fun rest x hx inner hi => ?_)
      · rw [← hinside] at ha
        obtain ⟨hchain, hmarked, htyped⟩ := hmarks _ a ha
        exact ⟨(List.isChain_cons_cons.1 hchain).2, hmarked, htyped⟩
      · rw [← hinside] at ht
        exact hcasts (c.1 :: rest) type ht
      · refine hcomment (c.1 :: rest) x ?_ inner (List.mem_cons_of_mem _ hi)
        rw [Element.at?_cons, hchild]
        exact hx

namespace Scene

/-- No method key in the scene holds the start of a comment. -/
def NoComment (s : Scene) : Prop :=
  ∀ path e, s.at? path = some e → ∀ slot ∈ path, slot.NoComment

/-- No method key of a pruned scene starts a comment when none of the scene does. -/
theorem NoComment.prune {s : Scene} (h : s.NoComment) (hs : s.Shaped) : s.prune.NoComment := by
  intro path e he slot hslot
  obtain ⟨x, hx⟩ := Element.exists_of_at?_prune hs he
  exact h path x hx slot hslot

/-- A scene in which nothing belongs to a package or a class has only their slots. -/
theorem noComment_of_leaves {s : Scene}
    (h : ∀ c ∈ s.root.children, c.1.NoComment ∧ c.2.children = []) : s.NoComment := by
  intro path e he slot hs
  cases path with
  | nil => cases hs
  | cons top rest =>
    rw [at?, Element.at?_cons, Option.bind_eq_some_iff] at he
    obtain ⟨child, hchild, he⟩ := he
    obtain ⟨htop, hleaf⟩ := h _ (Keyed.mem_of_get? hchild)
    cases rest with
    | nil => exact List.mem_singleton.1 hs ▸ htop
    | cons inner rest =>
      rw [Element.at?_cons, Element.child?, hleaf] at he
      cases he

/-- **A sound scene can be written once it is pruned**, after any definitions over which its
annotations are typed. -/
theorem Sound.writable_prune {s : Scene} {T : Annotation → Prop} {used : List Definition}
    (h : s.Sound T) (hc : s.NoComment)
    (hu : ∀ path, ∀ a ∈ (s.root.labelAt path).annotations, a.Typed used) :
    s.prune.Writable used := by
  have hs : s.root.Shaped .scene := h.shaped
  have htop : ∀ c ∈ s.root.prune.children, c.1.IsTop ∧ ∃ child, (c.1, child) ∈ s.root.children ∧
      child.isAnnotated = true ∧ c.2 = child.prune := by
    intro c hc
    obtain ⟨child, hmem, hkept, hpruned⟩ := Element.mem_children_prune_iff.1 hc
    have htop : c.1.IsTop := hs.owned (c.1, child) hmem
    exact ⟨htop, child, hmem, hkept.resolve_left (by simp [htop.isOwned_eq_false]), hpruned⟩
  refine ⟨(Element.label_prune _).trans h.shaped.label_root, Element.nodup_keys_prune hs,
    fun c hmem => ?_, fun c hmem _ => ?_, fun c hmem => ?_⟩
  · obtain ⟨htop, child, hmem, hann, -⟩ := htop c hmem
    refine ⟨htop, ?_⟩
    obtain ⟨rest, hne⟩ := (Element.isAnnotated_iff (hs.children _ hmem)).1 hann
    have hchild : s.root.child? c.1 = some child := Keyed.get?_of_mem hs.distinct hmem
    obtain ⟨a, ha⟩ := List.exists_mem_of_ne_nil _ hne
    rw [← Element.labelAt_cons_of_some hchild] at ha
    obtain ⟨⟨⟨slot, rest', hpath, -, hproper⟩, -⟩, -⟩ := h.marks _ a ha
    cases hpath
    exact hproper
  · obtain ⟨-, child, -, hann, hpruned⟩ := htop c hmem
    rwa [hpruned, Element.isAnnotated_prune]
  · obtain ⟨-, child, hmem, -, hpruned⟩ := htop c hmem
    have hchild : s.root.child? c.1 = some child := Keyed.get?_of_mem hs.distinct hmem
    have hinside : ∀ rest, s.root.labelAt (c.1 :: rest) = child.labelAt rest :=
      Element.labelAt_cons_of_some hchild
    rw [hpruned]
    refine child.writable_prune (hs.children _ hmem) (fun rest a ha => ?_) (fun rest type ht => ?_)
      (fun rest x hx inner hi => ?_)
    · rw [← hinside] at ha
      obtain ⟨hw, hmarked, -, htop⟩ := h.marks _ a ha
      exact ⟨hw.chain, hmarked, hu _ a ha, htop⟩
    · rw [← hinside] at ht
      exact h.casts (c.1 :: rest) type ht
    · refine hc (c.1 :: rest) x ?_ inner (List.mem_cons_of_mem _ hi)
      rw [at?, Element.at?_cons, hchild]
      exact hx

end Scene

end AnnotationIndex
