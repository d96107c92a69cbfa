import AnnotationIndex.Proofs.Definition.Merged
import AnnotationIndex.Proofs.Element.Map
import AnnotationIndex.Proofs.Reading

/-!
# Written scenes can be read

A scene may come from several texts, which know a type by different definitions. What is written of
it does not show which one an annotation holds, so the written text is also that of the scene with
its annotations relinked to the definitions that are written first. The main statement is
`Scene.exists_ofText_of_render`: the text can be read, unless types mention one another in a circle
or a method key holds the start of a comment. A method key shows that the second is needed
(`Scene.not_ofText_of_render`).
-/

namespace AnnotationIndex.Scene

/-! ## Scenes that texts build -/

/-- The scene comes from reading texts into the empty scene, one after the other. -/
inductive Built : Scene → Prop where
  | empty : Built empty
  | read {s : Scene} (h : Built s) {text : String} (hr : (s.read text).2 = none) :
      Built (s.read text).1

variable {s : Scene}

/-- What texts build is sound, of annotations that texts can make. -/
theorem Built.sound (h : s.Built) : s.Sound Annotation.Readable := by
  induction h with
  | empty => exact sound_empty _
  | read _ _ ih => exact ih.read (fun ds hds a ha => ⟨ds, hds, ha⟩) _

/-! ## Relinked scenes -/

section
variable {T : Annotation → Prop} {c : Collection} {final definitions : List (String × Definition)}

/-- The annotations of a sound scene hold definitions that fit the declared ones. -/
theorem Collected.fitAll (h : s.Collected c final) (hd : c.Declares final definitions)
    {a : Annotation} (ha : s.Uses a) : FitAll definitions a.parts := by
  intro p hp e he
  obtain ⟨known, hknown, hrefines⟩ := h.knows _ (.used ha hp)
  rw [hrefines.name] at he
  exact hrefines.toFits.trans (hd.fits known (h.sound.grows _ (Keyed.mem_of_get? hknown)) e he).1

/-- The type of a used annotation is among the declared ones, which are top-level where it is. -/
theorem Collected.exists_declared (h : s.Collected c final) (hd : c.Declares final definitions)
    {a : Annotation} (ha : s.Uses a) : ∃ e, Keyed.get? a.definition.name definitions = some e ∧
      (a.definition.isTopLevel = true → e.isTopLevel = true) := by
  have hname : a.definition.name ∈ Keyed.keys definitions := by
    rw [hd.keys, h.mem_keys_iff]
    exact ⟨_, .used ha a.mem_parts_self, rfl⟩
  obtain ⟨e, he⟩ := Option.isSome_iff_exists.1 (Keyed.get?_isSome_iff.2 hname)
  exact ⟨e, he, (hd.fits _ (h.has a ha a a.mem_parts_self) e he).2⟩

/-- A sound scene stays sound when its annotations are changed to others of the same types. -/
theorem Sound.map {f : Annotation → Annotation} {U : Annotation → Prop} (h : s.Sound T)
    (hname : ∀ a, (f a).name = a.name)
    (hf : ∀ a, s.Uses a → a.definition.isTopLevel = true →
      U (f a) ∧ (f a).definition.isTopLevel = true) :
    (s.map f).Sound U := by
  have hlabel : ∀ path, (s.map f).root.labelAt path =
      ⟨(s.root.labelAt path).annotations.map f, (s.root.labelAt path).castType⟩ :=
    s.root.labelAt_map
  refine ⟨Element.Shaped.map h.shaped, fun path b hb => ?_, fun path => ?_, fun path => ?_⟩
  · rw [hlabel] at hb
    obtain ⟨a, ha, rfl⟩ := List.mem_map.1 hb
    obtain ⟨hw, hmarked, -, htop⟩ := h.marks path a ha
    exact ⟨hw, hmarked, hf a (h.uses ha) htop⟩
  · have hnames := h.names path
    rw [hlabel, List.map_map]
    simpa only [Function.comp_def, hname] using hnames
  · rw [hlabel]
    exact h.casts path

/-- No method key starts a comment after annotations have been exchanged when none did before. -/
theorem NoComment.map {f : Annotation → Annotation} (h : s.NoComment) : (s.map f).NoComment := by
  intro path e he
  rw [at?, Scene.map, Element.at?_map, Option.map_eq_some_iff] at he
  obtain ⟨x, hx, -⟩ := he
  exact h path x hx

end

/-! ## Reading what is written -/

/-- **What is written can be read.** Whenever a scene that texts build can be written, the written
text can be read, provided that no type leads back to itself along mentions and no method key holds
the start of a comment. -/
theorem exists_ofText_of_render (s : Scene) (h : s.Built) (ha : s.Acyclic) (hc : s.NoComment)
    (layout : Layout) (written : String) (hr : s.render layout = .ok written) :
    ∃ t, ofText written = .ok t := by
  have hsound := h.sound
  rw [render] at hr
  cases hds : s.definitions with
  | error e => simp [hds] at hr
  | ok ds =>
    simp only [hds, Except.ok.injEq] at hr
    subst hr
    obtain ⟨c, final, rfl, hcollected⟩ :=
      exists_collected (fun a ha => (hsound.of_uses ha).distinct) ha hds
    obtain ⟨definitions, hdeclares⟩ :=
      hcollected.declares fun d hd => hd.readable fun a ha => hsound.of_uses ha
    have hlinked := hdeclares.declared.linked hdeclares.named
    let f : Annotation → Annotation := .relink definitions
    have hmapped : (s.map f).Sound <| Annotation.Typed (definitions.map (·.2)) := by
      refine hsound.map (·.name_relink hdeclares.named) fun a ha htop => ?_
      obtain ⟨ds', -, htyped⟩ := hsound.of_uses ha
      obtain ⟨e, he, hetop⟩ := hcollected.exists_declared hdeclares ha
      refine ⟨htyped.relink hlinked (hcollected.fitAll hdeclares ha) he, ?_⟩
      rw [a.definition_relink, he]
      exact hetop htop
    have hwritable : (s.map f).prune.Writable (definitions.map (·.2)) :=
      hmapped.writable_prune hc.map fun path a ha => (hmapped.marks path a ha).2.2.1
    obtain ⟨t, ht, -⟩ := ofText_text layout hdeclares.declared hwritable fun path => by
      rw [show ((s.map f).prune.root.labelAt path).annotations = _ from
        Element.annotations_labelAt_prune hmapped.shaped path]
      exact hmapped.names path
    refine ⟨t, ?_⟩
    rw [lines, ← hdeclares.lines, ← s.prune.declarationLines_map (f := f)
      (·.text_relink hdeclares.named), ← prune_map]
    exact ht

/-! ## Two texts that know an array differently -/

/-- The first class has an array of unknown element type, the second one of characters. -/
def mergedArrays : Scene :=
  let unknown : Definition := ⟨"A", some .runtime, [("xs", .unknownArray)], []⟩
  let known : Definition := ⟨"A", some .runtime, [("xs", .array (.basic .char))], []⟩
  ⟨⟨[], none, [(.typeDecl "C", ⟨[⟨unknown, [("xs", .array [])]⟩], none, []⟩),
    (.typeDecl "D", ⟨[⟨known, [("xs", .array [.char 'a'])]⟩], none, []⟩)]⟩, []⟩

set_option maxRecDepth 10000 in
/-- The scene with an array of two types is built from two texts. -/
theorem built_mergedArrays : mergedArrays.Built := by
  have h : ((empty.read
      "package: annotation visible @A: unknown[] xs class C: @A(xs=\x7b\x7d)").1.read
      "package: annotation visible @A: char[] xs class D: @A(xs='a')").1 = mergedArrays := by
    with_unfolding_all rfl
  rw [← h]
  exact .read (.read .empty (by decide +kernel)) (by decide +kernel)

/-- What the second text knows is written for both classes, and can be read. -/
theorem exists_ofText_of_render_mergedArrays :
    let written := "package:\nannotation visible @A:\n    char[] xs\n\n" ++
      "package:\nclass C: @A(xs=\x7b\x7d)\nclass D: @A(xs=\x7b'a'\x7d)\n\n"
    mergedArrays.Built ∧ mergedArrays.Acyclic ∧ mergedArrays.NoComment ∧
      mergedArrays.render .standard = .ok written ∧ ∃ t, ofText written = .ok t := by
  intro written
  have hacyclic : mergedArrays.Acyclic := by
    let unknown : Definition := ⟨"A", some .runtime, [("xs", .unknownArray)], []⟩
    let known : Definition := ⟨"A", some .runtime, [("xs", .array (.basic .char))], []⟩
    refine acyclic_of_rank (l := [unknown, known]) String.length ?_ ?_
    · rw [show mergedArrays.root.uses .scene =
        [⟨unknown, [("xs", .array [])]⟩, ⟨known, [("xs", .array [.char 'a'])]⟩] from rfl]
      simp [Value.partsNamed, Value.parts, Value.partsAll, Annotation.parts]
    · simp [Definition.mentioned, FieldType.annotationType?, unknown, known]
  have hcomment : mergedArrays.NoComment :=
    noComment_of_leaves (by simp [mergedArrays, Slot.NoComment])
  have hrender : mergedArrays.render .standard = .ok written := by decide +kernel
  exact ⟨built_mergedArrays, hacyclic, hcomment, hrender,
    exists_ofText_of_render _ built_mergedArrays hacyclic hcomment .standard written hrender⟩

/-! ## Texts that cannot be read -/

/-- A class with a method whose key starts a comment: in the text a blank divides the slashes. -/
def commentedKey : Scene :=
  ⟨⟨[], none, [(.typeDecl "C", ⟨[], none, [(.method "a//b",
    { Element.fresh .method with annotations := [⟨⟨"A", some .runtime, [], []⟩, []⟩] })]⟩)]⟩, []⟩

set_option maxRecDepth 10000 in
/-- The scene whose method key starts a comment is built from a text. -/
theorem built_commentedKey : commentedKey.Built := by
  have h : (empty.read "package: annotation visible @A: class C: method a/ /b: @A").1 =
      commentedKey := by with_unfolding_all rfl
  rw [← h]
  exact .read .empty (by decide +kernel)

/-- Two classes for which two types know each other: each text knows the array in one of them. -/
def circularArrays : Scene :=
  let a₁ : Definition := ⟨"A", some .runtime, [("b", .unknownArray)], []⟩
  let b₁ : Definition := ⟨"B", some .runtime, [("a", .array (.nested a₁))], []⟩
  let b₂ : Definition := ⟨"B", some .runtime, [("a", .unknownArray)], []⟩
  let a₂ : Definition := ⟨"A", some .runtime, [("b", .array (.nested b₂))], []⟩
  ⟨⟨[], none, [(.typeDecl "C", ⟨[⟨a₁, []⟩, ⟨b₁, []⟩], none, []⟩),
    (.typeDecl "D", ⟨[⟨a₂, []⟩, ⟨b₂, []⟩], none, []⟩)]⟩, []⟩

set_option maxRecDepth 10000 in
/-- The scene whose arrays refer to one another is built from two texts. -/
theorem built_circularArrays : circularArrays.Built := by
  have h : ((empty.read ("package: annotation visible @A: unknown[] b " ++
        "annotation visible @B: annotation-field A[] a class C: @A @B")).1.read
      ("package: annotation visible @B: unknown[] a " ++
        "annotation visible @A: annotation-field B[] b class D: @A @B")).1 = circularArrays := by
    with_unfolding_all rfl
  rw [← h]
  exact .read (.read .empty (by decide +kernel)) (by decide +kernel)

/-- Neither condition can be left out: a written comment hides what comes after it, and of two types
that mention each other the first is written before the second is defined. -/
theorem not_ofText_of_render :
    (∃ s : Scene, s.Built ∧ s.Acyclic ∧
      ∃ written, s.render .standard = .ok written ∧ ∀ t, ofText written ≠ .ok t) ∧
    ∃ s : Scene, s.Built ∧ s.NoComment ∧
      ∃ written, s.render .standard = .ok written ∧ ∀ t, ofText written ≠ .ok t := by
  have hfails : ∀ text, (empty.read text).2 ≠ none → ∀ t, ofText text ≠ .ok t := by
    intro text h t ht
    rw [ofText] at ht
    split at ht
    · cases ht
    · next hread => exact h (by rw [hread])
  have hkey : commentedKey.render .standard = .ok
      "package:\nannotation visible @A:\n\npackage:\nclass C:\n    method a//b: @A\n\n" := by
    decide +kernel
  have hcircle : circularArrays.render .standard = .ok
      ("package:\nannotation visible @B:\n    annotation-field A[] a\n\n" ++
        "package:\nannotation visible @A:\n    annotation-field B[] b\n\n" ++
        "package:\nclass C: @A @B\nclass D: @A @B\n\n") := by decide +kernel
  refine ⟨⟨commentedKey, built_commentedKey, ?_, _, hkey, hfails _ (by decide +kernel)⟩,
    circularArrays, built_circularArrays, ?_, _, hcircle, hfails _ (by decide +kernel)⟩
  · refine acyclic_of_rank (l := [⟨"A", some .runtime, [], []⟩]) String.length ?_ ?_
    · rw [show commentedKey.root.uses .scene = [⟨⟨"A", some .runtime, [], []⟩, []⟩] from rfl]
      simp [Value.partsNamed, Annotation.parts]
    · simp [Definition.mentioned]
  · exact noComment_of_leaves (by simp [circularArrays, Slot.NoComment])

end AnnotationIndex.Scene
