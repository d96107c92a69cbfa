import AnnotationIndex.Proofs.Printed
import AnnotationIndex.Proofs.Reached

/-!
# Everything that is read has a place in an index

Reading fills only those parts of a scene that writing visits. Sound deposits keep `Scene.Placed`,
so that it holds of every scene that is reached by reading (`Scene.Reached.placed`), and the text of
a placed scene shows all its annotations (`Scene.Placed.prints`). The main statement,
`Scene.Reached.inFormat`, spells both out: what slots, labels and definitions look like, and that
the text of the scene shows each of its annotations once, in the line of its element.
-/

namespace AnnotationIndex

open Text

/-! ## Reached scenes stay in place -/

/-- A sound deposit leaves a label in place. -/
theorem Deposit.Sound.placed_extend {ds : List Definition} {d : Deposit} (h : d.Sound ds)
    {l : Label} (hl : l.Placed (Kind.scene.after d.path)) :
    (d.extend l).Placed (Kind.scene.after d.path) := by
  obtain ⟨-, h⟩ := h
  cases d with
  | element => exact hl
  | mark => exact ⟨fun _ => h.1, hl.cast⟩
  | castType =>
    refine ⟨hl.marked, fun type ht => ?_⟩
    cases ht
    exact h

namespace Scene

variable {s : Scene} {ds : List Definition}

/-- An empty scene stays within what an index can say. -/
theorem placed_empty : empty.Placed :=
  ⟨rfl, List.nodup_nil, List.forall_mem_nil _, List.forall_mem_nil _⟩

/-- A sound deposit leaves a scene in place. -/
theorem Placed.deposit (hs : s.Placed) {d : Deposit} (hd : d.Sound ds) :
    (s.modifyAt d.path d.act).Placed := by
  obtain ⟨slot, rest, hpath, htop, hproper⟩ := hd.1.top
  have hchain := hd.1.chain
  have hlabel : ∀ x : Element, x.label.Placed (slot.kind.after rest) →
      (d.act x).label.Placed (slot.kind.after rest) := by
    intro x hx
    rw [d.label_act]
    have := hd.placed_extend (l := x.label)
    rw [hpath] at this
    exact this hx
  rw [hpath] at hchain ⊢
  have hnew : (Element.modifyAt d.act rest ((s.root.child? slot).getD (.fresh slot.kind))).Placed
      slot := by
    refine .modifyAt d.children_act hlabel hchain ?_
    cases hc : s.root.child? slot with
    | none => exact Element.placed_fresh slot
    | some child => exact hs.placed _ (Keyed.mem_of_get? hc)
  refine ⟨hs.blank, Keyed.nodup_keys_upsert hs.distinct, fun c hc => ?_, fun c hc => ?_⟩
  · rcases Keyed.mem_upsert hc with hc | rfl
    · exact hs.top c hc
    · exact ⟨htop, hproper⟩
  · rcases Keyed.mem_upsert hc with hc | rfl
    · exact hs.placed c hc
    · exact hnew

/-- What is reached by reading has a place in an index. -/
theorem Reached.placed (h : s.Reached) : s.Placed := by
  induction h with
  | empty => exact placed_empty
  | read _ text ih =>
    obtain ⟨ds, -, hall⟩ := depositsOf_sound text
    rw [fst_read]
    exact load_induction (fun _ hs d hd _ => hs.deposit (hall d hd)) ih

end Scene

/-! ## What slots look like -/

/-- The name or location in the slot as texts have it. -/
def Slot.Nameable : Slot → Prop
  | .package name => IsPackageName name
  | .typeDecl name => ∃ p b, IsPackageName p ∧ IsIdentifier b ∧ name = qualify p b
  | .supertype t => t.index.toInt = -1 ∨ 0 ≤ t.index.toInt
  | .field name => IsIdentifier name
  | .method key => key ≠ "" ∧ ∀ c ∈ key.toList, c ≠ ':' ∧ c ≠ '"' ∧ c ≠ '\'' ∧ isBlank c = false
  | .insertion p | .castInsertion p =>
    p.steps ≠ [] ∧ ∀ step ∈ p.steps, IsIdentifier step.kind ∧ IsIdentifier step.child
  | .innerType p => p.steps ≠ []
  | _ => True

/-- What method keys consist of is no colon, no quote and no white space. -/
theorem IsKeyText.plain {cs : List Char} (h : IsKeyText cs) :
    ∀ c ∈ cs, c ≠ ':' ∧ c ≠ '"' ∧ c ≠ '\'' ∧ isBlank c = false := by
  intro c hc
  obtain ⟨hword | hsymbol, hcolon⟩ := h c hc
  · refine ⟨hcolon, ?_, ?_, isBlank_eq_false_of_isWordChar hword⟩ <;> rintro rfl <;>
      exact absurd hword (by decide)
  · simp only [isSymbol, Bool.and_eq_true, Bool.not_eq_true', bne_iff_ne] at hsymbol
    obtain ⟨⟨⟨-, hblank⟩, hquote⟩, hapostrophe⟩ := hsymbol
    exact ⟨hcolon, hquote, hapostrophe, hblank⟩

/-- A number that names an interface is not negative. -/
theorem Supertype.index_of_ofInterface? {n : UInt32} {t : Supertype}
    (h : ofInterface? n = some t) : 0 ≤ t.index.toInt := by
  simp only [ofInterface?, Option.ite_none_right_eq_some, Option.some.injEq] at h
  obtain ⟨hn, rfl⟩ := h
  have hhalf : (IntegerKind.int.half : Nat) = 2147483648 := rfl
  rw [Int32.toInt_ofNat_of_lt (by omega)]
  exact Int.natCast_nonneg _

/-- What a text can name has a name, or an index that can be written. -/
theorem Slot.Proper.nameable {slot : Slot} (h : slot.Proper) : slot.Nameable := by
  cases slot with
  | supertype =>
    rcases h with rfl | ⟨n, hn⟩
    · exact .inl rfl
    · exact .inr (Supertype.index_of_ofInterface? hn)
  | method => exact ⟨h.1, h.2.plain⟩
  | package | typeDecl | field | insertion | castInsertion | innerType => exact h
  | bound | staticInit | instanceInit | returnType | receiver | parameter | thrown | body
  | localVariable | code | typecast | instanceof | creation | initializer => trivial

/-! ## What cast types look like -/

/-- The text starts with the word, which ends there. -/
def StartsWithWord (w text : String) : Prop :=
  ∃ tail, text = w ++ tail ∧ ∀ c ∈ tail.toList.head?, isWordChar c = false

namespace StartsWithWord

variable {w text : String}

/-- Behind a text that is no part of a word anything may follow. -/
theorem append (h : StartsWithWord w text) (mark more : String) {c : Char}
    (hmark : mark.toList.head? = some c) (hc : isWordChar c = false) :
    StartsWithWord w (text ++ mark ++ more) := by
  obtain ⟨tail, rfl, htail⟩ := h
  refine ⟨tail ++ mark ++ more, by simp only [String.append_assoc], fun d hd => ?_⟩
  rw [String.toList_append, String.toList_append, List.head?_append, List.head?_append, hmark] at hd
  cases ht : tail.toList.head? with
  | none =>
    obtain rfl : c = d := by simpa [ht] using hd
    exact hc
  | some e => exact htail d (by simpa [ht] using hd)

/-- A name that starts with a word starts with it when more words follow a point. -/
theorem dotted (h : StartsWithWord w text) (ws : List String) :
    StartsWithWord w (AnnotationIndex.dotted text ws) := by
  induction ws generalizing text with
  | nil => exact h
  | cons v ws ih => exact ih (h.append "." v rfl (by decide))

/-- A name that starts with a word starts with it when brackets follow. -/
theorem bracketed (h : StartsWithWord w text) (n : Nat) :
    StartsWithWord w (Reader.bracketed text n) := by
  induction n generalizing text with
  | zero => exact h
  | succ n ih => exact ih (by simpa using h.append "[]" "" rfl (by decide))

end StartsWithWord

/-- The lexemes of a line are such as texts have. -/
theorem Scans.proper {cs : List Char} {L : List Lexeme} (h : Scans cs L) : ∀ l ∈ L, l.Proper := by
  induction h with
  | nil => exact List.forall_mem_nil _
  | blank _ _ _ ih => exact ih
  | @word w _ _ hne hw _ _ ih =>
    exact List.forall_mem_cons.2 ⟨⟨by simpa using hne, by simpa using hw⟩, ih⟩
  | symbol hc _ _ ih => exact List.forall_mem_cons.2 ⟨hc, ih⟩
  | string _ _ _ ih | char _ _ _ ih => exact List.forall_mem_cons.2 ⟨trivial, ih⟩

namespace Reader

/-- A type that is read starts with the word that comes first, as a whole. -/
theorem castType_starts {ts rest : List Token} {type : String} (hts : ProperTokens ts)
    (h : castType ts = .ok (type, rest)) :
    ∃ w, word? ts = some w ∧ IsIdentifier w ∧ StartsWithWord w type := by
  rw [castType] at h
  split at h
  · cases h
  next hname =>
  obtain ⟨⟨w, ws, hfirst, hw, -, rfl⟩, hrest⟩ := qualifiedName_parts hts hname
  have hstart : StartsWithWord w (dotted w ws) :=
    StartsWithWord.dotted ⟨"", by simp, by simp⟩ ws
  refine ⟨w, hfirst, hw, ?_⟩
  split at h
  · obtain ⟨⟨n, rfl⟩, -⟩ := brackets_yields hrest h
    exact hstart.bracketed n
  next hopen =>
  split at h
  · cases h
  next arguments _ harguments =>
  obtain ⟨_, htakes, -⟩ := typeArguments_spelled (proper_of_accept hrest hopen) harguments
  have hrest := (htakes.proper (proper_of_accept hrest hopen)).2
  split at h
  · cases h
  next hclose =>
  obtain ⟨⟨n, rfl⟩, -⟩ := brackets_yields (proper_of_expectSymbol hrest hclose) h
  have hinside := hstart.append "<" (arguments ++ ">") rfl (by decide)
  rw [← String.append_assoc] at hinside
  exact hinside.bracketed n

/-- The type of a cast starts with an identifier that is no keyword. -/
theorem IsCastType.starts {type : String} (h : IsCastType type) :
    ∃ w, IsIdentifier w ∧ isKeyword w = false ∧ StartsWithWord w type := by
  obtain ⟨w, hw, L, hs, hr⟩ := h
  have hread := hr 0 [] (fun _ _ => rfl)
  have hproper : ProperTokens (tokensOn 0 (.word w :: L) ++ []) := by
    intro t ht
    rw [List.append_nil] at ht
    obtain ⟨l, hl, rfl⟩ := List.mem_map.1 ht
    exact hs.proper l hl
  obtain ⟨v, hv, hi, hstart⟩ := castType_starts hproper hread
  obtain rfl : w = v := by simpa [word?, Lexeme.word?] using hv
  exact ⟨w, hi, hw, hstart⟩

end Reader

/-! ## The format of reached scenes -/

/-- What is at the path in a scene is what an index can say: the path is made of names and locations
that texts have; there are no inner types inside inner types, and initializers of the fields of
classes only; blocks and expressions carry nothing; a cast is to a type that starts with a word
which is no keyword. -/
structure Element.InFormat (path : Path) (e : Element) : Prop where
  named : ∀ slot ∈ path, slot.Nameable
  flat : ∀ p, path.getLast? = some (.innerType p) → ∀ q, e.child? (.innerType q) = none
  initialized : (e.child? .initializer).isSome → ∃ c name, path = [.typeDecl c, .field name]
  unmarked : Kind.scene.after path = .block ∨ Kind.scene.after path = .code → e.annotations = []
  cast : ∀ type ∈ e.castType, ∃ w, IsIdentifier w ∧ isKeyword w = false ∧ StartsWithWord w type

/-- The last slot of a path that can be written is one of a scene or is written with the slot before
it. -/
theorem Path.Written.concat_cases {path : Path} {b : Slot} (h : (path ++ [b]).Written) :
    path = [] ∧ b.IsTop ∨ ∃ init a, path = init ++ [a] ∧ path.Written ∧ a.Links b := by
  obtain ⟨⟨top, rest, hpath, htop, hproper⟩, hchain⟩ := h
  obtain ⟨hleft, -, hlast⟩ := List.isChain_append.1 hchain
  rcases List.append_eq_cons_iff.1 hpath with ⟨rfl, hb⟩ | ⟨rest', rfl, -⟩
  · cases hb
    exact .inl ⟨rfl, htop⟩
  · obtain ⟨a, ha⟩ := Option.isSome_iff_exists.1
      (List.getLast?_isSome.2 (List.cons_ne_nil top rest'))
    obtain ⟨init, hinit⟩ := List.getLast?_eq_some_iff.1 ha
    exact .inr ⟨init, a, hinit, ⟨⟨top, rest', rfl, htop, hproper⟩, hleft⟩, hlast a ha b rfl⟩

/-- Only the fields of classes are fields. -/
theorem Path.Written.eq_field {path : Path} {name : String}
    (h : (path ++ [Slot.field name]).Written) : ∃ c, path = [.typeDecl c] := by
  rcases h.concat_cases with ⟨-, htop⟩ | ⟨init, a, rfl, hpath, howns, -⟩
  · cases htop
  cases a <;> cases howns
  next c =>
  rcases hpath.concat_cases with ⟨rfl, -⟩ | ⟨_, b, -, -, howns, -⟩
  · exact ⟨c, rfl⟩
  · cases b <;> cases howns

/-- The slots on a written path are such as texts have. -/
theorem Path.Written.proper {path : Path} (h : path.Written) : ∀ slot ∈ path, slot.Proper := by
  obtain ⟨⟨top, rest, rfl, -, hproper⟩, hchain⟩ := h
  induction rest generalizing top with
  | nil => exact List.forall_mem_singleton.2 hproper
  | cons next rest ih =>
    obtain ⟨⟨-, -, hnext⟩, hrest⟩ := List.isChain_cons_cons.1 hchain
    exact List.forall_mem_cons.2 ⟨hproper, ih next hrest hnext⟩

/-- The element in a slot of an element is at the path with the slot at the end. -/
theorem Element.at?_concat {e x : Element} {path : Path} (h : e.at? path = some x) (slot : Slot) :
    e.at? (path ++ [slot]) = x.child? slot := by
  induction path generalizing e with
  | nil =>
    cases h
    rw [List.nil_append, at?_cons]
    cases x.child? slot <;> rfl
  | cons first rest ih =>
    rw [at?_cons, Option.bind_eq_some_iff] at h
    obtain ⟨child, hc, hx⟩ := h
    rw [List.cons_append, at?_cons, hc]
    exact ih hx

namespace Scene.Placed

variable {s : Scene} {path : Path} {e : Element}

/-- What a placed scene has at a path below its root can be written there. -/
theorem written (h : s.Placed) (he : s.at? path = some e) (hne : path ≠ []) :
    path.Written ∧ e.label.Placed (Kind.scene.after path) := by
  obtain ⟨top, rest, rfl⟩ := List.exists_cons_of_ne_nil hne
  rw [at?, Element.at?_cons, Option.bind_eq_some_iff] at he
  obtain ⟨child, hc, he⟩ := he
  have hmem := Keyed.mem_of_get? hc
  obtain ⟨hchain, hlabel⟩ := (h.placed _ hmem).of_at? he
  obtain ⟨htop, hproper⟩ := h.top _ hmem
  exact ⟨⟨⟨top, rest, rfl, htop, hproper⟩, hchain⟩, hlabel⟩

/-- A slot of an element in a placed scene is written with the element. -/
theorem written_concat (h : s.Placed) (he : s.at? path = some e) {slot : Slot}
    (hs : (e.child? slot).isSome) : (path ++ [slot]).Written := by
  obtain ⟨child, hc⟩ := Option.isSome_iff_exists.1 hs
  exact (h.written ((Element.at?_concat he slot).trans hc) (by simp)).1

/-- What a placed scene has at a path is in the format. -/
theorem inFormat_of_at? (h : s.Placed) (he : s.at? path = some e) : e.InFormat path := by
  have hlabel : e.label.Placed (Kind.scene.after path) := by
    by_cases hne : path = []
    · subst hne
      cases he
      rw [h.blank]
      exact Label.placed_blank _
    · exact (h.written he hne).2
  refine ⟨fun slot hs => ?_, fun p hp q => ?_, fun hi => ?_, fun hk => ?_, fun type ht => ?_⟩
  · exact ((h.written he (List.ne_nil_of_mem hs)).1.proper slot hs).nameable
  · by_contra hq
    have hw := h.written_concat he (Option.isSome_iff_ne_none.2 hq)
    rcases hw.concat_cases with ⟨-, htop⟩ | ⟨init, a, rfl, -, -, hshows, -⟩
    · cases htop
    · obtain rfl : a = .innerType p := by simpa using hp
      cases hshows
  · have hwritten := h.written_concat he hi
    rcases hwritten.concat_cases with ⟨-, htop⟩ | ⟨init, a, rfl, hw, howns, hshows, -⟩
    · cases htop
    · cases a <;> cases howns <;> cases hshows
      next name =>
      obtain ⟨c, rfl⟩ := hw.eq_field
      exact ⟨c, name, rfl⟩
  · by_contra has
    have hm := hlabel.marked has
    rcases hk with hk | hk <;> rw [hk] at hm <;> cases hm
  · exact (hlabel.cast type ht).2.starts

end Scene.Placed

/-- The text of an annotation that texts can make is read as the annotation. -/
theorem Annotation.Readable.exists_single {a : Annotation} (h : a.Readable)
    (ht : a.definition.isTopLevel = true) : ∃ scope t, tokenize a.text = .ok t ∧
      Reader.single scope true t.tokens = .ok (a, []) := by
  obtain ⟨ds, hds, ha⟩ := h
  let scope : Scope := ⟨"", ds⟩
  have hnamed : Named scope.definitions := hds.named
  obtain ⟨L, hs, hr⟩ := Reader.shows_single (Scope.holds_of_named hnamed) ha
  refine ⟨scope, _, hs.tokens_line 1, ?_⟩
  have hread := hr true (fun _ => ht) 1 [] fun _ _ => rfl
  rwa [List.append_nil] at hread

namespace Scene

/-- **Everything that texts leave in a scene has a place in an index**, whether they can be read to
their end or not. Every element is in the format, the definitions have qualified names, and the text
of an annotation is read as the annotation. So the text that is written, which starts with that of
the definitions, goes on to show every annotation of the scene once, in the line of its element. -/
theorem Reached.inFormat (s : Scene) (h : s.Reached) :
    (∀ path e, s.at? path = some e → e.InFormat path) ∧ (∀ d, s.Knows d → IsName d.name) ∧
    (∀ path, ∀ a ∈ (s.root.labelAt path).annotations, ∃ scope t, tokenize a.text = .ok t ∧
      Reader.single scope true t.tokens = .ok (a, [])) ∧
    ∀ layout : Layout, s.Prints layout (layout.text s.prune.declarationLines) ∧
      s.render layout = s.definitions.map fun ds =>
        layout.text (ds.flatMap Definition.lines) ++ layout.text s.prune.declarationLines := by
  have hplaced := h.placed
  have hsound := h.sound
  refine ⟨fun path e he => hplaced.inFormat_of_at? he, fun d hd => ?_, fun path a ha => ?_,
    fun layout => ⟨hplaced.prints hsound.shaped layout, ?_⟩⟩
  · obtain ⟨ds, hds, hmem⟩ := hd.inherit inherits_readable hsound.readable
    exact hds.named.names d hmem
  · obtain ⟨-, -, hreadable, htop⟩ := hsound.marks path a ha
    exact hreadable.exists_single htop
  · rw [render]
    cases s.definitions with
    | error e => rfl
    | ok ds => exact congrArg Except.ok (layout.text_append _ _)

/-- What has been read of a text that breaks off has a place, and its text shows all of it. -/
theorem inFormat_brokenOff : brokenOff.Reached ∧
    (∀ path e, brokenOff.at? path = some e → e.InFormat path) ∧
    (∀ d, brokenOff.Knows d → IsName d.name) ∧
    (∀ path, ∀ a ∈ (brokenOff.root.labelAt path).annotations, ∃ scope t, tokenize a.text = .ok t ∧
      Reader.single scope true t.tokens = .ok (a, [])) ∧
    (∀ layout : Layout, brokenOff.Prints layout (layout.text brokenOff.prune.declarationLines) ∧
      brokenOff.render layout = brokenOff.definitions.map fun ds =>
        layout.text (ds.flatMap Definition.lines) ++
          layout.text brokenOff.prune.declarationLines) ∧
    Layout.standard.text brokenOff.prune.declarationLines =
      "package:\nclass C: @B(x=\x7b@A\x7d)\n\n" := by
  obtain ⟨hformat, hnames, hread, hprints⟩ := Reached.inFormat brokenOff reached_brokenOff
  exact ⟨reached_brokenOff, hformat, hnames, hread, hprints, by with_unfolding_all rfl⟩

end Scene

end AnnotationIndex
