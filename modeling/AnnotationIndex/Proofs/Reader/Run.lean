import AnnotationIndex.Proofs.Deposit
import AnnotationIndex.Proofs.Reader.CastType
import AnnotationIndex.Proofs.Reader.Definition
import AnnotationIndex.Proofs.Section

/-!
# What texts deposit

Reading keeps `State.Sound`: the definitions in scope are declared, and every open element lies at a
path that can be written and takes the sections that are written with it. What is deposited on the
way goes to such paths and is typed over the definitions in scope (`Deposit.Sound`). `step_sound`
says so of one statement, and the main statement `run_sound` of a run.
-/

namespace AnnotationIndex

/-! ## Kinds along paths -/

/-- A path leads to what its last slot holds. -/
theorem Kind.after_concat (kind : Kind) (path : Path) (slot : Slot) :
    kind.after (path ++ [slot]) = slot.kind := by
  induction path generalizing kind with
  | nil => rfl
  | cons first rest ih => exact ih first.kind

/-- A chain of linked slots is a path that elements can have. -/
theorem Kind.hasPath_of_isChain {slot : Slot} {rest : Path}
    (h : (slot :: rest).IsChain Slot.Links) : slot.kind.hasPath rest = true := by
  induction rest generalizing slot with
  | nil => rfl
  | cons next rest ih =>
    obtain ⟨⟨ho, -⟩, hrest⟩ := List.isChain_cons_cons.1 h
    rw [hasPath, ho, ih hrest]
    rfl

/-- A path that can be written exists in every scene. -/
theorem Path.Written.hasPath {path : Path} (h : path.Written) :
    Kind.scene.hasPath path = true := by
  obtain ⟨⟨slot, rest, rfl, htop, -⟩, hchain⟩ := h
  rw [Kind.hasPath, Kind.hasPath_of_isChain hchain, Bool.and_true]
  exact htop

/-- A proper slot of a scene is a written path. -/
theorem Path.Written.top_only {slot : Slot} (ht : slot.IsTop) (hp : slot.Proper) :
    Path.Written [slot] :=
  ⟨⟨slot, [], rfl, ht, hp⟩, .singleton slot⟩

/-! ## Sound deposits and states -/

/-- The deposit goes to a path that can be written. What it says has a place there, and needs no
other definitions. -/
def Deposit.Sound (ds : List Definition) (d : Deposit) : Prop :=
  d.path.Written ∧
    match d with
    | .element _ => True
    | .mark path a _ =>
      (Kind.scene.after path).isMarked = true ∧ a.Typed ds ∧ a.definition.isTopLevel = true
    | .castType path type _ => Kind.scene.after path = .cast ∧ Reader.IsCastType type

/-- A sound deposit is sound over more definitions. -/
theorem Deposit.Sound.mono {ds ds' : List Definition} (hs : ds ⊆ ds') {d : Deposit}
    (h : d.Sound ds) : d.Sound ds' := by
  obtain ⟨hw, h⟩ := h
  refine ⟨hw, ?_⟩
  cases d with
  | element => trivial
  | mark => exact ⟨h.1, h.2.1.mono hs, h.2.2⟩
  | castType => exact h

/-- The open element lies at a path that can be written, and takes the sections of what sits
there. -/
def Frame.Sound (f : Frame) : Prop :=
  f.path.Written ∧ ∃ slot, f.path.getLast? = some slot ∧ f.context.Holds [] slot

namespace Reader

/-- What is known in the middle of a text comes from what has been read. -/
structure State.Sound (st : State) : Prop where
  package : IsPackageName st.scope.package
  declared : Declarations st.scope.definitions
  target : ∀ t ∈ st.target, t.path.Written ∧ (Kind.scene.after t.path).isMarked = true ∧
    (t.isCast = true → Kind.scene.after t.path = .cast)
  frames : ∀ f ∈ st.frames, f.Sound

/-- What is known at the beginning of a text is sound. -/
theorem sound_start : State.start.Sound :=
  ⟨.inl rfl, .nil, by simp [State.start], by simp [State.start]⟩

/-- The statement keeps sound states. What it deposits is sound, even when it cannot be read to its
end; when it can, what comes after it is sound. -/
structure Step.Keeps (ds : List Definition) (s : Step) : Prop where
  deposits : ∀ d ∈ s.deposits, d.Sound ds
  next : ∀ ⦃st : State⦄ ⦃rest : List Token⦄, s.next = .ok (st, rest) →
    st.Sound ∧ ds ⊆ st.scope.definitions ∧ ProperTokens rest

/-- A statement that cannot be read and deposits nothing keeps sound states. -/
theorem Step.keeps_error (ds : List Definition) (e : Failure) : Step.Keeps ds ⟨[], .error e⟩ :=
  ⟨by simp, fun _ _ h => nomatch h⟩

variable {st : State} {ts : List Token}

/-- A token at which no statement starts changes nothing. -/
theorem keeps_noStep (st : State) (ts : List Token) (ds : List Definition) :
    (noStep st ts).Keeps ds := Step.keeps_error ds _

/-- An annotation where the path has a place for it keeps sound states. -/
theorem keeps_markStep (h : st.Sound) {t : Target} (ht : st.target = some t) (line : Nat)
    (hts : ProperTokens ts) : (markStep st t.path line ts).Keeps st.scope.definitions := by
  rw [markStep]
  cases hs : single st.scope true ts with
  | error e => exact Step.keeps_error _ e
  | ok r =>
    obtain ⟨⟨ha, htop⟩, hrest⟩ := single_yields hts hs
    obtain ⟨hw, hm, -⟩ := h.target t ht
    refine ⟨fun d hd => ?_, fun st' rest hstep => ?_⟩
    · rw [List.mem_singleton.1 hd]
      exact ⟨hw, hm, ha, htop rfl⟩
    · cases hstep
      exact ⟨h, fun _ hd => hd, hrest⟩

/-- A cast type where the path leads to a cast keeps sound states. -/
theorem keeps_castTypeStep (h : st.Sound) {path : Path} (ht : st.target = some ⟨path, true⟩)
    {w : String} (hw : isKeyword w = false) (line : Nat)
    (hts : ProperTokens (⟨.word w, line⟩ :: ts)) :
    (castTypeStep st path line (⟨.word w, line⟩ :: ts)).Keeps st.scope.definitions := by
  rw [castTypeStep]
  cases hs : castType (⟨.word w, line⟩ :: ts) with
  | error e => exact Step.keeps_error _ e
  | ok r =>
    obtain ⟨⟨v, hv, htype⟩, hrest⟩ := castType_again hts hs
    obtain rfl : w = v := by simpa [word?, Lexeme.word?] using hv
    obtain ⟨hwritten, -, hcast⟩ := h.target _ ht
    refine ⟨fun d hd => ?_, fun st' rest hstep => ?_⟩
    · rw [List.mem_singleton.1 hd]
      exact ⟨hwritten, hcast rfl, w, hw, htype⟩
    · cases hstep
      exact ⟨⟨h.package, h.declared, by simp, h.frames⟩, fun _ hd => hd, hrest⟩

/-- What is read as the name of a package is one, or none. -/
theorem yields_packageName : Yields packageName IsPackageName := by
  intro ts name rest hts h
  rw [packageName] at h
  split at h
  · next ha =>
    cases h
    exact ⟨.inl rfl, proper_of_accept hts ha⟩
  split at h
  · cases h
  next hq =>
  obtain ⟨hname, hrest⟩ := yields_qualifiedName hts hq
  split at h
  · cases h
  next he =>
  cases h
  exact ⟨.inr hname, proper_of_expectSymbol hrest he⟩

/-- A package keeps sound states: it starts without an open element. -/
theorem keeps_packageStep (h : st.Sound) (hts : ProperTokens ts) :
    (packageStep st ts).Keeps st.scope.definitions := by
  rw [packageStep]
  cases hs : packageName ts with
  | error e => exact Step.keeps_error _ e
  | ok r =>
    obtain ⟨name, rest'⟩ := r
    obtain ⟨hname, hrest⟩ := yields_packageName hts hs
    have hw : Path.Written [.package name] := .top_only rfl hname
    refine ⟨fun d hd => ?_, fun st' rest hstep => ?_⟩
    · simp only at hd
      split at hd
      · rw [List.mem_singleton.1 hd]
        exact ⟨hw, trivial⟩
      · cases hd
    · cases hstep
      refine ⟨⟨hname, h.declared, fun t ht => ?_, by simp⟩, fun _ hd => hd, hrest⟩
      cases ht
      exact ⟨hw, rfl, by simp⟩

/-- A definition keeps sound states: it is declared after those before it. -/
theorem keeps_definitionStep (h : st.Sound) (line : Nat) (hts : ProperTokens ts) :
    (definitionStep st line ts).Keeps st.scope.definitions := by
  rw [definitionStep]
  cases hs : definition st.scope line ts with
  | error e => exact Step.keeps_error _ e
  | ok r =>
    obtain ⟨hd, hrest⟩ := yields_definition h.package hts hs
    refine ⟨by simp, fun st' rest hstep => ?_⟩
    cases hstep
    exact ⟨⟨h.package, h.declared.snoc hd, by simp, by simp⟩, List.subset_append_left _ _, hrest⟩

/-- A class keeps sound states: it is the first open element. -/
theorem keeps_classStep (h : st.Sound) (hts : ProperTokens ts) :
    (classStep st ts).Keeps st.scope.definitions := by
  rw [classStep]
  cases hs : identifier ts with
  | error e => exact Step.keeps_error _ e
  | ok r =>
    obtain ⟨name, more⟩ := r
    obtain ⟨hname, hmore⟩ := yields_identifier hts hs
    cases he : expectSymbol ':' more with
    | error e =>
      simp only [he]
      exact Step.keeps_error _ e
    | ok rest' =>
      simp only [he]
      have hw : Path.Written [.typeDecl (qualify st.scope.package name)] :=
        .top_only rfl ⟨_, name, h.package, hname, rfl⟩
      refine ⟨fun d hd => ?_, fun st' rest hstep => ?_⟩
      · rw [List.mem_singleton.1 hd]
        exact ⟨hw, trivial⟩
      · cases hstep
        refine ⟨⟨h.package, h.declared, fun t ht => ?_, fun f hf => ?_⟩, fun _ hd => hd,
          proper_of_expectSymbol hmore he⟩
        · cases ht
          exact ⟨hw, rfl, by simp⟩
        · rw [List.mem_singleton.1 hf]
          exact ⟨hw, _, rfl, .typeDecl _⟩

/-! ## Sections -/

/-- What takes a section is an open element, and what is around it was open before. -/
theorem Frame.find?_eq_some {s : Section} {frames outer : List Frame} {frame : Frame}
    (h : Frame.find? s frames = some (frame, outer)) :
    frame.context.takes s = true ∧ frame ∈ frames ∧ outer ⊆ frames := by
  induction frames with
  | nil => cases h
  | cons f frames ih =>
    rw [Frame.find?] at h
    split at h
    · next ht =>
      cases h
      exact ⟨ht, List.mem_cons_self, List.subset_cons_self _ _⟩
    · obtain ⟨ht, hm, hs⟩ := ih h
      exact ⟨ht, List.mem_cons_of_mem _ hm, fun g hg => List.mem_cons_of_mem _ (hs hg)⟩

/-- An element whose sections are read stays one that takes the sections of what sits there. -/
theorem sound_resume {f : Frame} (h : f.Sound) (s : Section) : (f.resume s).Sound := by
  obtain ⟨c, path⟩ := f
  obtain ⟨hw, slot, hlast, hholds⟩ := h
  rw [Frame.resume]
  split
  · next hf =>
    obtain ⟨rfl, -⟩ := hf
    have hlinks : slot.Links .initializer := by
      cases hholds with
      | @header _ s' _ hs hc =>
        cases slot
        case supertype => rcases Slot.section?_supertype hs with rfl | rfl <;> cases hc
        all_goals cases hs <;> cases hc <;> exact ⟨rfl, rfl, trivial⟩
    exact ⟨hw.append hlast (List.isChain_pair.2 hlinks), .initializer, by simp, .code⟩
  · exact ⟨hw, slot, hlast, hholds⟩

/-- What lies between an open element and a section that belongs to it can be written. -/
theorem written_lead {f : Frame} (h : f.Sound) (s : Section) :
    (f.path ++ f.context.lead s).Written := by
  obtain ⟨hw, slot, hlast, hholds⟩ := h
  exact hw.append hlast (hholds.isChain_lead s)

/-- A section that an open element takes keeps sound states. -/
theorem keeps_sectionStep (h : st.Sound) {s : Section} {frame : Frame} {outer : List Frame}
    (hf : Frame.find? s st.frames = some (frame, outer)) (hts : ProperTokens ts) :
    (sectionStep st s frame outer ts).Keeps st.scope.definitions := by
  obtain ⟨ht, hmem, hsub⟩ := Frame.find?_eq_some hf
  have hframe := h.frames frame hmem
  have howner := written_lead hframe s
  obtain ⟨hw, slot, hlast, hholds⟩ := hframe
  have hcreated : ∀ d ∈ (if (frame.context.lead s).isEmpty then []
      else [Deposit.element (frame.path ++ frame.context.lead s)]),
      d.Sound st.scope.definitions := by
    intro d hd
    split at hd
    · cases hd
    · rw [List.mem_singleton.1 hd]
      exact ⟨howner, trivial⟩
  rw [sectionStep]
  cases hs : header s ts with
  | error e => exact ⟨hcreated, fun _ _ h => nomatch h⟩
  | ok r =>
    obtain ⟨inner, rest'⟩ := r
    obtain ⟨⟨hproper, hsection⟩, hrest⟩ := yields_header s hts hs
    have hchain : (slot :: frame.context.lead s ++ [inner]).IsChain Slot.Links :=
      hholds.isChain ht hsection hproper
    have hinner : (frame.path ++ frame.context.lead s ++ [inner]).Written := by
      rw [List.append_assoc]
      exact hw.append hlast hchain
    have hafter := Kind.after_concat .scene (frame.path ++ frame.context.lead s) inner
    refine ⟨fun d hd => ?_, fun st' rest hstep => ?_⟩
    · rcases List.mem_append.1 hd with hd | hd
      · exact hcreated d hd
      · rw [List.mem_singleton.1 hd]
        exact ⟨hinner, trivial⟩
    cases hstep
    refine ⟨⟨h.package, h.declared, fun t hmark => ?_, fun f hf => ?_⟩, fun _ hd => hd, hrest⟩
    · simp only [Option.mem_def] at hmark
      split at hmark
      · next hm =>
        cases hmark
        refine ⟨hinner, ?_, fun hcast => ?_⟩
        · rw [hafter, Section.isMarked_eq hsection, hm]
        · rw [hafter]
          exact (Section.eq_castInsertion_iff hsection).1 (of_decide_eq_true hcast)
      · cases hmark
    · rcases List.mem_append.1 hf with hf | hf
      · cases hc : s.context? with
        | none => simp [hc] at hf
        | some c =>
          simp only [hc, List.mem_singleton] at hf
          rw [hf]
          exact ⟨hinner, inner, by simp, .header hsection hc⟩
      · rcases List.mem_cons.1 hf with rfl | hf
        · exact sound_resume ⟨hw, slot, hlast, hholds⟩ s
        · exact h.frames f (hsub hf)

/-! ## Runs -/

/-- Whatever statement a word starts keeps sound states. -/
theorem keeps_wordStep (h : st.Sound) (w : String) (line : Nat) (hts : ProperTokens ts) :
    (wordStep st w line ts).Keeps st.scope.definitions := by
  rw [wordStep]
  split
  · exact keeps_packageStep h hts
  split
  · exact keeps_noStep st _ _
  split
  · exact keeps_definitionStep h line hts
  split
  · exact keeps_classStep h hts
  split
  · exact keeps_noStep st _ _
  split
  · exact keeps_noStep st _ _
  · next hf => exact keeps_sectionStep h hf hts

/-- One statement keeps what is known sound. -/
theorem step_sound (h : st.Sound) {t : Token} (hts : ProperTokens (t :: ts)) :
    (step st t ts).Keeps st.scope.definitions := by
  obtain ⟨l, line⟩ := t
  rw [step]
  split
  · split
    · next ht =>
      split
      · exact keeps_markStep h ht line hts
      · exact keeps_noStep st _ _
    · exact keeps_noStep st _ _
  · next w hw =>
    cases hw
    split
    · next ht =>
      split
      · exact keeps_wordStep h w line hts.tail
      · next hk => exact keeps_castTypeStep h ht (by simpa using hk) line hts
    · exact keeps_wordStep h w line hts.tail
  · exact keeps_noStep st _ _

/-- **What a run deposits is sound**, wherever it ends, over the definitions that it has made, and
these are declared. -/
theorem run_sound (h : st.Sound) (hts : ProperTokens ts) :
    ∃ ds, Declarations ds ∧ st.scope.definitions ⊆ ds ∧ ∀ d ∈ (run st ts).1, d.Sound ds := by
  fun_induction run st ts with
  | case1 st => exact ⟨_, h.declared, fun _ hd => hd, by simp⟩
  | case2 st t ts e hs => exact ⟨_, h.declared, fun _ hd => hd, (step_sound h hts).deposits⟩
  | case3 st t ts st' rest hs more e hrun ih =>
    obtain ⟨hst, hsub, hrest⟩ := (step_sound h hts).next hs
    obtain ⟨ds, hds, hsub', hmore⟩ := ih hst hrest
    refine ⟨ds, hds, fun _ hd => hsub' (hsub hd), fun d hd => ?_⟩
    rcases List.mem_append.1 hd with hd | hd
    · exact ((step_sound h hts).deposits d hd).mono fun _ hd => hsub' (hsub hd)
    · exact hmore d (by rwa [hrun])

end Reader

/-- What a text deposits is sound over the definitions that it makes, also when it cannot be read
to its end. -/
theorem depositsOf_sound (text : String) :
    ∃ ds, Declarations ds ∧ ∀ d ∈ (depositsOf text).1, d.Sound ds := by
  rw [depositsOf]
  split
  · exact ⟨[], .nil, by simp⟩
  · next t ht =>
    obtain ⟨ds, hds, -, hall⟩ := Reader.run_sound Reader.sound_start (Lexer.tokens_proper ht)
    exact ⟨ds, hds, hall⟩

end AnnotationIndex
