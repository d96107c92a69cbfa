import AnnotationIndex.Proofs.Reader.Place
import AnnotationIndex.Reader.File
import AnnotationIndex.Writer

/-!
# Headers are read back

Which slots a header can name (`Slot.Proper`), and that the header that is written for such a slot
is read as that slot (`Reader.reads_header`), as headers read name no other slots
(`Reader.yields_header`). After the keyword of its section a header has the text of a location, or
nothing more (`Slot.locationText?`). The main statement is `Reader.header_determines_slot`: that
text alone tells the slot, and no two slots share a header.
-/

namespace AnnotationIndex

open Text

namespace Slot

/-- The slot can be named in an index. -/
def Proper : Slot → Prop
  | .package name => IsPackageName name
  | .typeDecl name => ∃ p b, IsPackageName p ∧ IsIdentifier b ∧ name = qualify p b
  | .supertype s => s = .superclass ∨ ∃ n, Supertype.ofInterface? n = some s
  | .field name => IsIdentifier name
  | .method key => key ≠ "" ∧ IsKeyText key.toList
  | .insertion p => p.Proper
  | .castInsertion p => p.Proper
  | .innerType p => p.steps ≠ []
  | _ => True

/-- The slot is not that of a method whose key holds the start of a comment. -/
def NoComment : Slot → Prop
  | .method key => AnnotationIndex.NoComment key.toList
  | _ => True

/-- The kind of the section that announces the element in the slot. -/
def section? : Slot → Option Section
  | .bound _ => some .bound
  | .supertype s => some (if s.isSuperclass then .superclass else .interface)
  | .field _ => some .field
  | .method _ => some .method
  | .staticInit _ => some .staticInit
  | .instanceInit _ => some .instanceInit
  | .insertion _ => some .insertion
  | .castInsertion _ => some .castInsertion
  | .returnType => some .returnType
  | .receiver => some .receiver
  | .parameter _ => some .parameter
  | .thrown _ => some .thrown
  | .localVariable _ => some .localVariable
  | .typecast _ => some .typecast
  | .instanceof _ => some .instanceof
  | .creation _ => some .creation
  | .innerType _ => some .innerType
  | .package _ | .typeDecl _ | .body | .code | .initializer => none

/-- The text of the location in a header; `none` where the keyword says it all, and for slots that
no section announces. -/
def locationText? : Slot → Option String
  | .bound l => some l.text
  | .supertype s => s.interface?.map numberText
  | .field name => some name
  | .method key => some key
  | .staticInit n | .instanceInit n => some ("*" ++ numberText n)
  | .insertion p | .castInsertion p => some p.text
  | .parameter n => some ("#" ++ numberText n)
  | .thrown n => some (numberText n)
  | .localVariable l => some l.text
  | .typecast p | .instanceof p | .creation p => some p.text
  | .innerType p => some p.text
  | .package _ | .typeDecl _ | .returnType | .receiver | .body | .code | .initializer => none

/-- An element in a slot that can be named has a place in an index. -/
theorem Proper.heading {slot : Slot} (h : slot.Proper) :
    slot.heading = .plain ∨ ∃ text, slot.heading = .header text := by
  cases slot
  case supertype s =>
    rcases h with rfl | ⟨n, hn⟩
    · exact .inr ⟨_, rfl⟩
    · obtain ⟨hs, hi⟩ := Supertype.interface?_of_ofInterface? hn
      exact .inr ⟨_, by rw [Slot.heading, hs, hi]; rfl⟩
  case body | code | initializer => exact .inl rfl
  all_goals exact .inr ⟨_, rfl⟩

end Slot

namespace Section

/-- The keyword of a section is a word. -/
theorem isWord_keyword (s : Section) : IsWord s.keyword := by
  cases s <;> decide

/-- The keyword of a section is that of no other section. -/
@[simp] theorem ofKeyword?_keyword (s : Section) : ofKeyword? s.keyword = some s := by
  cases s <;> decide

/-- The keyword of a section is no other keyword. -/
theorem keyword_ne (s : Section) :
    s.keyword ≠ "package" ∧ s.keyword ≠ "annotation" ∧ s.keyword ≠ "class" := by
  cases s <;> decide

end Section

namespace Reader

/-! ## Headers that are written -/

/-- What a text shows is shown as a slot. -/
theorem Shows.placed {α : Type} {r : List Token → Read α} {stop : List Token → Prop}
    {text : String} {x : α} (h : Shows r stop text x) (f : α → Slot) :
    Shows (fun ts => placed f (r ts)) stop text (f x) := by
  obtain ⟨L, hs, hr⟩ := h
  refine ⟨L, hs, fun line rest hrest => ?_⟩
  simp only [hr line rest hrest, Reader.placed]

/-- What is read whatever comes next is read before the colon of a header. -/
theorem Shows.located {α : Type} {r : List Token → Read α} {text : String} {x : α}
    (h : Shows r Anything text x) (f : α → Slot) :
    Shows (fun ts => Reader.placed f (r ts)) (Before ':') text (f x) := by
  obtain ⟨L, hs, hr⟩ := h.placed f
  exact ⟨L, hs, fun line rest _ => hr line rest trivial⟩

/-- The header starts with the keyword of the section, and the rest is read as the slot. -/
def Announces (s : Section) (text : String) (slot : Slot) : Prop :=
  ∃ L, Scans text.toList (.word s.keyword :: L) ∧ Reads (location s) (Before ':') L slot

/-- The keyword with the text of a location announces the slot. -/
theorem announces_text {s : Section} {text : String} {slot : Slot}
    (h : Shows (location s) (Before ':') text slot) :
    Announces s (s.keyword ++ " " ++ text) slot := by
  obtain ⟨L, hs, hr⟩ := h
  refine ⟨L, ?_, hr⟩
  have := s.isWord_keyword.scans.append_space hs
  simpa using this

/-- The keyword announces the slot of a section without locations. -/
theorem announces_keyword {s : Section} {slot : Slot}
    (h : ∀ ts, location s ts = .ok (slot, ts)) : Announces s s.keyword slot :=
  ⟨[], s.isWord_keyword.scans, fun _ rest _ => h rest⟩

variable {slot : Slot} {s : Section}

/-- The text of its location shows a slot. -/
theorem shows_locationText (hp : slot.Proper) (hc : slot.NoComment) (hs : slot.section? = some s)
    {text : String} (ht : slot.locationText? = some text) :
    Shows (location s) (Before ':') text slot := by
  cases slot with
  | package | typeDecl | returnType | receiver | body | code | initializer => cases ht
  | bound l =>
    cases hs
    cases ht
    exact (shows_bound l).located .bound
  | supertype t =>
    rcases hp with rfl | ⟨n, hn⟩
    · cases ht
    · obtain ⟨hclass, hi⟩ := Supertype.interface?_of_ofInterface? hn
      rw [Slot.section?, hclass] at hs
      rw [Slot.locationText?, hi] at ht
      cases hs
      cases ht
      exact (shows_interface hn).located .supertype
  | field name =>
    cases hs
    cases ht
    exact (shows_identifier hp).located .field
  | method key =>
    cases hs
    cases ht
    exact (shows_methodKey hp.2 hc).placed .method
  | staticInit n =>
    cases hs
    cases ht
    exact (shows_ordinal n).located .staticInit
  | instanceInit n =>
    cases hs
    cases ht
    exact (shows_ordinal n).located .instanceInit
  | insertion p =>
    cases hs
    cases ht
    exact (shows_sourcePath hp).placed .insertion
  | castInsertion p =>
    cases hs
    cases ht
    exact (shows_sourcePath hp).placed .castInsertion
  | parameter n =>
    cases hs
    cases ht
    exact (shows_parameter n).located .parameter
  | thrown n =>
    cases hs
    cases ht
    exact (shows_number n).located .thrown
  | localVariable l =>
    cases hs
    cases ht
    exact (shows_localVariable l).located .localVariable
  | typecast p =>
    cases hs
    cases ht
    exact (shows_codePosition p).located .typecast
  | instanceof p =>
    cases hs
    cases ht
    exact (shows_codePosition p).located .instanceof
  | creation p =>
    cases hs
    cases ht
    exact (shows_codePosition p).located .creation
  | innerType p =>
    cases hs
    cases ht
    exact (shows_innerTypePath hp).placed .innerType

/-- A header has the keyword of its section, a space and the text of the location. -/
theorem heading_of_locationText (hp : slot.Proper) (hs : slot.section? = some s) {text : String}
    (ht : slot.locationText? = some text) :
    slot.heading = .header (s.keyword ++ " " ++ text) := by
  cases slot with
  | package | typeDecl | returnType | receiver | body | code | initializer => cases ht
  | supertype t =>
    rcases hp with rfl | ⟨n, hn⟩
    · cases ht
    · obtain ⟨hclass, hi⟩ := Supertype.interface?_of_ofInterface? hn
      rw [Slot.section?, hclass] at hs
      rw [Slot.locationText?, hi] at ht
      cases hs
      cases ht
      simp [Slot.heading, hclass, hi, Section.keyword]
  | staticInit n | instanceInit n | parameter n =>
    -- here the mark before the number is written with the keyword
    cases hs
    cases ht
    simp [Slot.heading, Section.keyword, ← String.append_assoc]
  | _ =>
    cases hs
    cases ht
    rfl

/-- The header of a slot announces it. -/
theorem announces_heading (hp : slot.Proper) (hc : slot.NoComment) (hs : slot.section? = some s) :
    ∃ text, slot.heading = .header text ∧ Announces s text slot := by
  cases ht : slot.locationText? with
  | some text =>
    exact ⟨_, heading_of_locationText hp hs ht, announces_text (shows_locationText hp hc hs ht)⟩
  | none =>
    cases slot with
    | supertype t =>
      rcases hp with rfl | ⟨n, hn⟩
      · cases hs
        exact ⟨_, rfl, announces_keyword fun _ => rfl⟩
      · rw [Slot.locationText?, (Supertype.interface?_of_ofInterface? hn).2] at ht
        cases ht
    | returnType | receiver =>
      cases hs
      exact ⟨_, rfl, announces_keyword fun _ => rfl⟩
    | package | typeDecl | body | code | initializer => cases hs
    | _ => cases ht

/-- A location with a colon after it is read as a header. -/
theorem reads_colon (hp : slot.Proper) {L : List Lexeme}
    (h : Reads (location s) (Before ':') L slot) :
    Reads (header s) Anything (L ++ [.symbol ':']) slot := by
  intro line rest _
  have hlocation := h line (⟨.symbol ':', line⟩ :: rest) (before_self _ _ _)
  have hkey : slot ≠ .method "" := by
    rintro rfl
    exact hp.1 rfl
  simp [header, hlocation, hkey]

/-- **A written header is read back**: the keyword of the section comes first, and the rest with a
colon after it is read as the slot. -/
theorem reads_header (hp : slot.Proper) (hc : slot.NoComment) (hs : slot.section? = some s) :
    ∃ text L, slot.heading = .header text ∧ Scans text.toList (.word s.keyword :: L) ∧
      Reads (header s) Anything (L ++ [.symbol ':']) slot := by
  obtain ⟨text, ht, L, hL, hr⟩ := announces_heading hp hc hs
  exact ⟨text, L, ht, hL, reads_colon hp hr⟩

/-- A header announces one slot only. -/
theorem Announces.unique {s' : Section} {slot' : Slot} {text : String} (h : Announces s text slot)
    (h' : Announces s' text slot') : slot = slot' := by
  obtain ⟨L, hscan, hread⟩ := h
  obtain ⟨M, hscan', hread'⟩ := h'
  have hlexemes := hscan.unique hscan'
  simp only [List.cons.injEq, Lexeme.word.injEq] at hlexemes
  obtain ⟨hkeyword, rfl⟩ := hlexemes
  have hsection := congrArg Section.ofKeyword? hkeyword
  rw [Section.ofKeyword?_keyword, Section.ofKeyword?_keyword, Option.some.injEq] at hsection
  subst hsection
  have hsame := hread 1 _ (before_self ':' 1 [])
  rw [hread' 1 _ (before_self ':' 1 []), Except.ok.injEq, Prod.mk.injEq] at hsame
  exact hsame.1.symm

/-- **A header determines its location.** The text of a location with a colon after it is read as
the slot, to the last token and whatever comes next; the header is that text after the keyword of
the section, and every other slot has another header. Only the key of a method can stand in the way
of this, when a comment starts in it. -/
theorem header_determines_slot (hp : slot.Proper) (hc : slot.NoComment)
    (hs : slot.section? = some s) {text : String} (ht : slot.locationText? = some text) :
    (∃ ts, tokenize (text ++ ":") = .ok ⟨ts, 1⟩ ∧
      ∀ rest, header s (ts ++ rest) = .ok (slot, rest)) ∧
    slot.heading = .header (s.keyword ++ " " ++ text) ∧
    ∀ slot' : Slot, slot'.Proper → slot'.NoComment → slot'.section?.isSome → slot' ≠ slot →
      slot'.heading ≠ slot.heading := by
  refine ⟨?_, heading_of_locationText hp hs ht, fun slot' hp' hc' hs' hne heq => hne ?_⟩
  · obtain ⟨L, hscan, hread⟩ := shows_locationText hp hc hs ht
    have hcolon := hscan.append_symbol (isSymbol_of_mem (c := ':') (by decide)) .nil
    have htokens : tokenize (text ++ ":") = .ok ⟨tokensOn 1 (L ++ [.symbol ':']), 1⟩ := by
      simpa [tokenize] using hcolon.tokens_line 1
    exact ⟨_, htokens, fun rest => reads_colon hp hread 1 rest trivial⟩
  · obtain ⟨s', hs'⟩ := Option.isSome_iff_exists.1 hs'
    obtain ⟨text, htext, hannounces⟩ := announces_heading hp hc hs
    obtain ⟨text', htext', hannounces'⟩ := announces_heading hp' hc' hs'
    rw [htext, htext', Heading.header.injEq] at heq
    subst heq
    exact hannounces'.unique hannounces

/-- A node below a method whose last step has the argument `n`. -/
def castBelow (n : UInt32) : Slot :=
  .castInsertion ⟨[⟨"Method", "body", none⟩, ⟨"Block", "statement", some 4294967295⟩,
    ⟨"Block", "statement", some n⟩]⟩

/-- The path to the node is such as texts have. -/
theorem castBelow_proper (n : UInt32) : (castBelow n).Proper := by
  have hwords : ∀ w ∈ ["Method", "body", "Block", "statement"], IsIdentifier w := by decide
  refine ⟨by simp, fun step hstep => ?_⟩
  simp only [List.mem_cons, List.not_mem_nil, or_false] at hstep
  rcases hstep with rfl | rfl | rfl <;> exact ⟨hwords _ (by simp), hwords _ (by simp)⟩

/-- The nodes below a method whose numbers are 1 and 11 have different headings, and the first one
is read back. -/
theorem header_determines_slot_below :
    (castBelow 1).Proper ∧ (castBelow 1).NoComment ∧
      (castBelow 1).section? = some .castInsertion ∧
      (castBelow 1).locationText? =
        some "Method.body, Block.statement 4294967295, Block.statement 1" ∧
      (∃ ts, tokenize "Method.body, Block.statement 4294967295, Block.statement 1:" = .ok ⟨ts, 1⟩ ∧
        ∀ rest, header .castInsertion (ts ++ rest) = .ok (castBelow 1, rest)) ∧
      (castBelow 11).heading ≠ (castBelow 1).heading := by
  have htext : (castBelow 1).locationText? =
      some "Method.body, Block.statement 4294967295, Block.statement 1" := by decide +kernel
  obtain ⟨hread, -, hother⟩ := header_determines_slot (castBelow_proper 1) trivial rfl htext
  exact ⟨castBelow_proper 1, trivial, rfl, htext, hread,
    hother _ (castBelow_proper 11) trivial rfl (by decide)⟩

/-! ## Headers that are read -/

/-- What is read with a property is read as a slot with a property that follows. -/
theorem Yields.placed {α : Type} {r : List Token → Read α} {P : α → Prop} (h : Yields r P)
    {f : α → Slot} {Q : Slot → Prop} (hf : ∀ x, P x → Q (f x)) :
    Yields (fun ts => placed f (r ts)) Q := by
  intro ts slot rest hts hr
  obtain ⟨x, hx, rfl⟩ := placed_ok hr
  obtain ⟨hp, hrest⟩ := h hts hx
  exact ⟨hf x hp, hrest⟩

/-- What is read as a location is a slot of the section such as texts have, or a method without a
key. -/
theorem yields_location (s : Section) :
    Yields (location s) fun slot => (slot = .method "" ∨ slot.Proper) ∧ slot.section? = some s := by
  cases s with
  | bound => exact yields_bound.placed fun _ _ => ⟨.inr trivial, rfl⟩
  | superclass =>
    intro ts slot rest hts h
    cases h
    exact ⟨⟨.inr (.inl rfl), rfl⟩, hts⟩
  | interface =>
    refine yields_interface.placed fun t ht => ⟨.inr (.inr ht), ?_⟩
    obtain ⟨n, hn⟩ := ht
    simp [Slot.section?, (Supertype.interface?_of_ofInterface? hn).1]
  | field => exact yields_identifier.placed fun _ h => ⟨.inr h, rfl⟩
  | method =>
    have hkey : Yields (methodKey "") fun key => IsKeyText key.toList :=
      fun _ _ _ hts h => yields_methodKey hts (by simp [IsKeyText]) h
    refine hkey.placed fun key hk => ⟨?_, rfl⟩
    by_cases he : key = ""
    · exact .inl (by rw [he])
    · exact .inr ⟨he, hk⟩
  | staticInit | instanceInit => exact yields_ordinal.placed fun _ _ => ⟨.inr trivial, rfl⟩
  | returnType | receiver =>
    intro ts slot rest hts h
    cases h
    exact ⟨⟨.inr trivial, rfl⟩, hts⟩
  | parameter => exact yields_parameter.placed fun _ _ => ⟨.inr trivial, rfl⟩
  | thrown => exact yields_number.placed fun _ _ => ⟨.inr trivial, rfl⟩
  | localVariable => exact yields_localVariable.placed fun _ _ => ⟨.inr trivial, rfl⟩
  | typecast | instanceof | creation =>
    exact yields_codePosition.placed fun _ _ => ⟨.inr trivial, rfl⟩
  | innerType => exact yields_innerTypePath.placed fun _ h => ⟨.inr h, rfl⟩
  | insertion | castInsertion => exact yields_sourcePath.placed fun _ h => ⟨.inr h, rfl⟩

/-- A header that is read names a slot that can be written in a header of the same section. -/
theorem yields_header (s : Section) :
    Yields (header s) fun slot => slot.Proper ∧ slot.section? = some s := by
  intro ts slot rest hts h
  rw [header] at h
  split at h
  · cases h
  next hl =>
  obtain ⟨⟨hp, hs⟩, hrest⟩ := yields_location s hts hl
  split at h
  · cases h
  next he =>
  split at h
  · cases h
  next hne =>
  cases h
  exact ⟨⟨hp.resolve_left hne, hs⟩, proper_of_expectSymbol hrest he⟩

end Reader

end AnnotationIndex
