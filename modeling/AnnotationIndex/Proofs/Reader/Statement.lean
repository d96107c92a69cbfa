import AnnotationIndex.Proofs.Reader.CastType
import AnnotationIndex.Proofs.Reader.Definition
import AnnotationIndex.Proofs.Reader.Header
import AnnotationIndex.Proofs.Said

/-!
# Statements are read back

What a run makes of the lines of a statement, when another statement or the end of the text comes
next. `Says st lines st' said` says that a run that is in the first state before the lines is in the
second one after them and that what it has deposited tells what is said; statements are put together
with `Says.append`. The main statements are one for each kind of line: `says_package`,
`says_definition`, `says_class` and `says_section`.
-/

namespace AnnotationIndex

namespace Reader

open Text

/-! ## Parts of a run -/

/-- The run comes from the first state to the second with those deposits, and then goes on with what
is left. -/
def Runs (st : State) (ts : List Token) (ds : List Deposit) (st' : State) (rest : List Token) :
    Prop :=
  run st ts = (ds ++ (run st' rest).1, (run st' rest).2)

namespace Runs

variable {st st' st'' : State} {ts rest left : List Token} {ds es : List Deposit}

/-- A run that reads nothing stays where it is. -/
theorem refl (st : State) (ts : List Token) : Runs st ts [] st ts := rfl

/-- Two parts of a run are one. -/
theorem trans (h : Runs st ts ds st' rest) (h' : Runs st' rest es st'' left) :
    Runs st ts (ds ++ es) st'' left := by
  rw [Runs] at h h' ⊢
  rw [h, h']
  simp

/-- A statement that can be read is a part of a run. -/
theorem step {t : Token} (h : (Reader.step st t ts).next = .ok (st', rest)) :
    Runs st (t :: ts) (Reader.step st t ts).deposits st' rest := by
  rw [Runs, run]
  split
  · next h' => cases h.symm.trans h'
  · next h' =>
    cases h.symm.trans h'
    rfl

end Runs

variable {st : State} {scope : Scope}

/-- Which element has been announced does not matter to a word that starts a statement. -/
theorem step_keyword {w : String} (h : isKeyword w = true) (line : Nat) (rest : List Token) :
    step st ⟨.word w, line⟩ rest = wordStep { st with target := none } w line rest := by
  have hstep : step st ⟨.word w, line⟩ rest = wordStep st w line rest := by
    obtain ⟨inPackage, scope, target, frames⟩ := st
    rcases target with _ | ⟨path, _ | _⟩
    · rfl
    · rfl
    · exact if_pos h
  rw [hstep]
  rfl

/-- Between statements it does not matter which element has been announced. -/
theorem run_boundary (st : State) {rest : List Token} (h : Boundary rest) :
    run st rest = run { st with target := none } rest := by
  cases rest with
  | nil => rw [run, run]
  | cons t ts =>
    obtain ⟨l, line⟩ := t
    obtain ⟨w, rfl, hw⟩ := h
    rw [run, run, step_keyword hw, step_keyword hw]

/-! ## After a header -/

/-- What the label says may follow a header after which the target is this one. -/
structure Sayable (scope : Scope) (path : Path) (target : Option Target) (l : Label) : Prop where
  typed : ∀ a ∈ l.annotations, a.Typed scope.definitions ∧ a.definition.isTopLevel = true
  marked : l.annotations ≠ [] → ∃ isCast, target = some ⟨path, isCast⟩
  cast : ∀ type ∈ l.castType, target = some ⟨path, true⟩ ∧ IsCastType type

/-- The lexemes of an annotation are deposited as it, where there is a place for it. -/
theorem runs_mark {a : Annotation} {M : List Lexeme} {path : Path} {isCast : Bool}
    (ha : Reads (single st.scope true) Closed (.symbol '@' :: M) a)
    (ht : st.target = some ⟨path, isCast⟩) (line : Nat) {rest : List Token} (hrest : Closed rest) :
    Runs st (tokensOn line (.symbol '@' :: M) ++ rest) [.mark path a line] st rest := by
  have hread := ha line rest hrest
  rw [tokensOn_cons, List.cons_append] at hread ⊢
  have hstep : step st ⟨.symbol '@', line⟩ (tokensOn line M ++ rest) =
      ⟨[.mark path a line], .ok (st, rest)⟩ := by
    simp only [step, ht, if_true, markStep, hread]
  have := Runs.step (congrArg Step.next hstep)
  rwa [hstep] at this

/-- Annotations after a header are deposited one by one. -/
theorem runs_marks {as : List Annotation} {L : List Lexeme} {path : Path} {isCast : Bool}
    (h : Marks st.scope as L) (ht : st.target = some ⟨path, isCast⟩) (line : Nat)
    {rest : List Token} (hrest : Closed rest) :
    Runs st (tokensOn line L ++ rest) (as.map fun a => .mark path a line) st rest := by
  induction h with
  | nil => exact .refl st rest
  | cons ha has ih =>
    rw [tokensOn_append, List.append_assoc]
    exact (runs_mark ha ht line (has.closed line hrest)).trans ih

/-- Where a type for a cast comes next, it is read and deposited. -/
theorem runs_of_castType {path : Path} {w type : String} {line : Nat} {ts rest : List Token}
    (ht : st.target = some ⟨path, true⟩) (hw : isKeyword w = false)
    (h : castType (⟨.word w, line⟩ :: ts) = .ok (type, rest)) :
    Runs st (⟨.word w, line⟩ :: ts) [.castType path type line] { st with target := none } rest := by
  have hstep : step st ⟨.word w, line⟩ ts =
      ⟨[.castType path type line], .ok ({ st with target := none }, rest)⟩ := by
    simp [step, ht, hw, castTypeStep, h]
  have := Runs.step (congrArg Step.next hstep)
  rwa [hstep] at this

/-- The type of a cast, as it is written, is read back. -/
theorem runs_castType {w type : String} {L : List Lexeme} {path : Path}
    (hw : isKeyword w = false) (hr : Reads castType Closed (.word w :: L) type)
    (ht : st.target = some ⟨path, true⟩) (line : Nat) {rest : List Token} (hrest : Closed rest) :
    Runs st (tokensOn line (.word w :: L) ++ rest) [.castType path type line]
      { st with target := none } rest :=
  runs_of_castType ht hw (hr line rest hrest)

/-- **What a label says is read back** after the header of its element. -/
theorem says_label (hds : Named st.scope.definitions) {path : Path} {l : Label}
    (h : Sayable st.scope path st.target l) :
    ∃ M, Scans (saidText l.annotations l.castType).toList M ∧ (l.notes = [] → M = []) ∧
      ∀ (line : Nat) (rest : List Token), Boundary rest →
        Runs st (tokensOn line M ++ rest) (l.deposits path line) { st with target := none }
          rest := by
  obtain ⟨as, castType⟩ := l
  obtain ⟨L, hL, hm⟩ := shows_marks hds h.typed
  have leave {rest : List Token} (hrest : Boundary rest) :
      Runs st rest [] { st with target := none } rest := run_boundary st hrest
  cases castType with
  | none =>
    refine ⟨L, by simpa using hL, fun hnil => ?_, fun line rest hrest => ?_⟩
    · obtain rfl : as = [] := by simpa [Label.notes] using hnil
      cases hm
      rfl
    · cases as with
      | nil =>
        cases hm
        exact leave hrest
      | cons a as =>
        obtain ⟨isCast, ht⟩ := h.marked (List.cons_ne_nil a as)
        exact (runs_marks hm ht line hrest.noSymbol.closed).trans (leave hrest)
  | some type =>
    obtain ⟨ht, w, hw, T, hT, hr⟩ := h.cast type rfl
    refine ⟨L ++ .word w :: T, ?_, fun hnil => ?_, fun line rest hrest => ?_⟩
    · simpa using hL.append_space hT
    · simp [Label.notes] at hnil
    · rw [tokensOn_append, List.append_assoc]
      exact (runs_marks hm ht line (closed_word w line _)).trans
        (runs_castType hw hr ht line hrest.noSymbol.closed)

/-! ## Lines -/

/-- The lines, read between statements, lead from the first state to the second, and what they
deposit tells what is said. -/
def Says (st : State) (lines : List Line) (st' : State) (said : Said) : Prop :=
  ∃ Ls, List.Forall₂ (fun l L => Scans l.text.toList L) lines Ls ∧
    (∀ line rest, Boundary rest → Boundary (tokensFrom line Ls ++ rest)) ∧
    ∀ line rest, Boundary rest →
      ∃ ds, Runs st (tokensFrom line Ls ++ rest) ds st' rest ∧ Deposit.Tell ds said

namespace Says

variable {st st' st'' : State} {lines lines' : List Line} {said said' : Said}

/-- No lines lead nowhere and say nothing. -/
theorem nil (st : State) : Says st [] st [] :=
  ⟨[], .nil, fun _ _ h => h, fun _ rest _ => ⟨[], .refl st rest, .nil⟩⟩

/-- A blank line leads nowhere and says nothing. -/
theorem blank (st : State) : Says st [.blank] st [] :=
  ⟨[[]], .cons .nil .nil, fun _ _ h => h, fun _ rest _ => ⟨[], .refl st rest, .nil⟩⟩

/-- Lines lead on from where the lines before them lead. -/
theorem append (h : Says st lines st' said) (h' : Says st' lines' st'' said') :
    Says st (lines ++ lines') st'' (said ++ said') := by
  obtain ⟨Ls, hL, hb, hr⟩ := h
  obtain ⟨Ls', hL', hb', hr'⟩ := h'
  refine ⟨Ls ++ Ls', List.rel_append hL hL', fun line rest hrest => ?_, fun line rest hrest => ?_⟩
  · rw [tokensFrom_append, List.append_assoc]
    exact hb line _ (hb' _ rest hrest)
  · rw [tokensFrom_append, List.append_assoc]
    have hrest' := hb' (line + Ls.length) rest hrest
    obtain ⟨ds, hds, ht⟩ := hr line _ hrest'
    obtain ⟨es, hes, ht'⟩ := hr' (line + Ls.length) rest hrest
    exact ⟨ds ++ es, hds.trans hes, ht.append ht'⟩

/-- A header that is read by `wordStep`, with what a label says after it. -/
theorem header (st' : State) {w header : String} {L : List Lexeme} {l : Label} {path : Path}
    (depth : Nat) (ht : st.target = none) (hw : isKeyword w = true)
    (hs : Scans header.toList (.word w :: L))
    (hstep : ∀ line rest, (l.notes = [] → Boundary rest) → ∃ ways : List Path,
      Deposit.Tell (ways.map .element ++ l.deposits path line) said ∧
      wordStep st w line (tokensOn line (L ++ [.symbol ':']) ++ rest) =
        ⟨ways.map .element, .ok (st', rest)⟩)
    (hds : Named st'.scope.definitions) (hl : Sayable st'.scope path st'.target l) :
    Says st [⟨depth, headerText header l.annotations l.castType⟩] { st' with target := none }
      said := by
  obtain ⟨M, hM, hnil, hr⟩ := says_label hds hl
  refine ⟨[.word w :: L ++ .symbol ':' :: M], .cons (scans_headerText hs hM) .nil,
    fun line rest _ => ⟨w, rfl, hw⟩, fun line rest hrest => ?_⟩
  have hruns := hr line rest hrest
  obtain ⟨ways, htell, hword⟩ := hstep line (tokensOn line M ++ rest) fun h => by
    rw [hnil h]
    exact hrest
  have hsplit : tokensFrom line [.word w :: L ++ .symbol ':' :: M] ++ rest =
      ⟨.word w, line⟩ :: (tokensOn line (L ++ [.symbol ':']) ++ (tokensOn line M ++ rest)) := by
    simp
  have hfirst : step st ⟨.word w, line⟩ (tokensOn line (L ++ [.symbol ':']) ++
      (tokensOn line M ++ rest)) = ⟨ways.map .element, .ok (st', tokensOn line M ++ rest)⟩ := by
    rw [step_keyword hw, ← hword, ← ht]
  rw [hsplit]
  have hhead := Runs.step (congrArg Step.next hfirst)
  rw [hfirst] at hhead
  exact ⟨ways.map .element ++ l.deposits path line, hhead.trans hruns, htell⟩

end Says

/-! ## Packages and classes -/

/-- The header of a package is read as its name. -/
theorem shows_packageHeader {name : String} (h : IsPackageName name) :
    ∃ L, Scans (packageHeader name).toList (.word "package" :: L) ∧
      Reads packageName Anything (L ++ [.symbol ':']) name := by
  have hw : IsWord "package" := by decide
  rcases h with rfl | h
  · exact ⟨[], by simpa [packageHeader] using hw.scans, fun line rest _ => by simp [packageName]⟩
  · obtain ⟨w, ws, hi, hws, rfl⟩ := h
    have hne : dotted w ws ≠ "" := IsName.ne_empty ⟨w, ws, hi, hws, rfl⟩
    obtain ⟨hs, hr⟩ := reads_dotted hi hws
    refine ⟨.word w :: dottedLexemes ws, ?_, fun line rest _ => ?_⟩
    · rw [packageHeader, if_neg hne]
      simpa using hw.scans.append_space hs
    · have hread := hr line (⟨.symbol ':', line⟩ :: rest) (accept_of_ne (by simp) _ _)
      rw [tokensOn_cons, List.cons_append] at hread
      simp [packageName, accept_of_ne, hread]

/-- The line of a package begins the package. Nothing is said of a package without annotations. -/
theorem says_package {inPackage : Bool} {p name : String} {ds : List Definition}
    {frames : List Frame} {l : Label} (hp : IsPackageName name) (hds : Named ds)
    (hl : Sayable ⟨name, ds⟩ [.package name] (some ⟨[.package name], false⟩) l) :
    Says ⟨inPackage, ⟨p, ds⟩, none, frames⟩
      [⟨0, headerText (packageHeader name) l.annotations l.castType⟩]
      ⟨true, ⟨name, ds⟩, none, []⟩ (if l.notes.isEmpty then [] else [([.package name], l)]) := by
  obtain ⟨L, hs, hr⟩ := shows_packageHeader hp
  refine Says.header ⟨true, ⟨name, ds⟩, some ⟨[.package name], false⟩, []⟩ 0 rfl (by decide) hs
    (fun line rest hrest => ?_) hds hl
  refine ⟨if (acceptSymbol '@' rest).isSome then [[.package name]] else [], ?_, ?_⟩
  · by_cases hnil : l.notes = []
    · rw [(hrest hnil).noSymbol '@', Deposit.deposits_eq_nil_iff.2 hnil, hnil]
      exact .nil
    · have hsaid : ¬l.notes.isEmpty = true := by simpa using hnil
      rw [if_neg hsaid]
      refine .single (fun q hq => ?_) (.inr hnil)
      split at hq
      · exact List.mem_singleton.1 hq ▸ List.prefix_rfl
      · cases hq
  · simp only [wordStep, if_true, packageStep, hr line rest trivial]
    split <;> rfl

/-- The line of a class in its package opens the class. -/
theorem says_class {p b : String} {ds : List Definition} {frames : List Frame} {l : Label}
    (hb : IsIdentifier b) (hds : Named ds)
    (hl : Sayable ⟨p, ds⟩ [.typeDecl (qualify p b)] (some ⟨[.typeDecl (qualify p b)], false⟩) l) :
    Says ⟨true, ⟨p, ds⟩, none, frames⟩
      [⟨0, headerText ("class " ++ b) l.annotations l.castType⟩]
      ⟨true, ⟨p, ds⟩, none, [⟨.typeDecl, [.typeDecl (qualify p b)]⟩]⟩
      [([.typeDecl (qualify p b)], l)] := by
  have hw : IsWord "class" := by decide
  have hs : Scans ("class " ++ b).toList [.word "class", .word b] := by
    simpa using hw.scans.append_space hb.scans
  refine Says.header ⟨true, ⟨p, ds⟩, some ⟨[.typeDecl (qualify p b)], false⟩,
    [⟨.typeDecl, [.typeDecl (qualify p b)]⟩]⟩ 0 rfl (by decide) hs (fun line rest _ => ?_) hds hl
  exact ⟨[[.typeDecl (qualify p b)]], .single (by simp) (.inl (by simp)),
    by simp [wordStep, classStep, hb]⟩

/-! ## Sections -/

/-- Behind its keyword a section is read in the open element that takes it. -/
theorem wordStep_section {s : Section} {frame : Frame} {frames outer : List Frame}
    {target : Option Target} (h : Frame.find? s frames = some (frame, outer)) (line : Nat)
    (rest : List Token) : wordStep ⟨true, scope, target, frames⟩ s.keyword line rest =
      sectionStep ⟨true, scope, target, frames⟩ s frame outer rest := by
  obtain ⟨hp, ha, hc⟩ := s.keyword_ne
  simp [wordStep, hp, ha, hc, h]

/-- The keyword of a section starts a statement. -/
theorem isKeyword_keyword (s : Section) : isKeyword s.keyword = true := by
  simp [isKeyword]

/-- The line of a section that an open element takes opens the element in the slot. -/
theorem says_section {ds : List Definition} {p header : String} {slot : Slot} {s : Section}
    {frame : Frame} {frames outer : List Frame} {path : Path} {l : Label} (depth : Nat)
    (hp : slot.Proper) (hc : slot.NoComment) (hs : slot.section? = some s)
    (hh : slot.heading = .header header) (hf : Frame.find? s frames = some (frame, outer))
    (hpath : frame.path ++ frame.context.lead s ++ [slot] = path) (hds : Named ds)
    (hl : Sayable ⟨p, ds⟩ path (if s.isMarked then some ⟨path, s = .castInsertion⟩ else none) l) :
    Says ⟨true, ⟨p, ds⟩, none, frames⟩ [⟨depth, headerText header l.annotations l.castType⟩]
      ⟨true, ⟨p, ds⟩, none, s.context?.toList.map (Frame.mk · path) ++ frame.resume s :: outer⟩
      [(path, l)] := by
  obtain ⟨text, L, ht, hL, hr⟩ := reads_header hp hc hs
  cases hh.symm.trans ht
  refine Says.header ⟨true, ⟨p, ds⟩, if s.isMarked then some ⟨path, s = .castInsertion⟩ else none,
    s.context?.toList.map (Frame.mk · path) ++ frame.resume s :: outer⟩ depth rfl
    (isKeyword_keyword s) hL (fun line rest _ => ?_) hds hl
  rw [wordStep_section hf, sectionStep]
  simp only [hr line rest trivial, hpath]
  refine ⟨(if (frame.context.lead s).isEmpty then [] else
    [frame.path ++ frame.context.lead s]) ++ [path], .single (fun q hq => ?_) (.inl (by simp)), ?_⟩
  · rcases List.mem_append.1 hq with hq | hq
    · split at hq
      · cases hq
      · rw [List.mem_singleton.1 hq, ← hpath]
        exact List.prefix_append _ _
    · exact List.mem_singleton.1 hq ▸ List.prefix_rfl
  · cases s.context? <;> split <;> rfl

/-! ## Definitions -/

/-- **The lines of a definition define it** and deposit nothing. -/
theorem says_definition {inPackage : Bool} {p : String} {ds : List Definition}
    {frames : List Frame} {d : Definition} (hds : Named ds) (hd : d.Declared ds) :
    Says ⟨inPackage, ⟨p, ds⟩, none, frames⟩ d.lines ⟨true, ⟨d.package, ds ++ [d]⟩, none, []⟩
      [] := by
  have hpackage : Says ⟨inPackage, ⟨p, ds⟩, none, frames⟩
      [⟨0, headerText (packageHeader d.package) [] none⟩] ⟨true, ⟨d.package, ds⟩, none, []⟩ [] :=
    says_package (l := .blank) hd.qualify.1 hds
      ⟨by simp [Label.blank], fun h => absurd rfl h, by simp [Label.blank]⟩
  have hds : Named (Scope.mk d.package ds).definitions := hds
  obtain ⟨L, Ls, hL, hLs, hr⟩ := definition_lines hds hd rfl
  have hlines : Says ⟨true, ⟨d.package, ds⟩, none, []⟩
      (⟨0, headerText ("annotation " ++ retentionText d.retention ++ "@" ++ d.basename) d.metas
        none⟩ :: d.fields.map fun f => ⟨1, f.2.text ++ " " ++ f.1⟩)
      ⟨true, ⟨d.package, ds ++ [d]⟩, none, []⟩ [] := by
    refine ⟨(.word "annotation" :: L) :: Ls, .cons hL (List.forall₂_map_left_iff.2 hLs),
      fun line rest _ => ⟨"annotation", rfl, by decide⟩, fun line rest hrest => ?_⟩
    have hread := hr line line rest hrest
    have hstep : step ⟨true, ⟨d.package, ds⟩, none, []⟩ ⟨.word "annotation", line⟩
        (tokensOn line L ++ (tokensFrom (line + 1) Ls ++ rest)) =
          ⟨[], .ok (⟨true, ⟨d.package, ds ++ [d]⟩, none, []⟩, rest)⟩ := by
      simp [step, wordStep, definitionStep, hread]
    have hrun := Runs.step (congrArg Step.next hstep)
    rw [hstep] at hrun
    refine ⟨[], ?_, .nil⟩
    rw [tokensFrom_cons, tokensOn_cons, List.append_assoc, List.cons_append]
    exact hrun
  have hall := (hpackage.append hlines).append (.blank _)
  exact hall

end Reader

end AnnotationIndex
