import AnnotationIndex.Proofs.Definition.Declared
import AnnotationIndex.Proofs.Reading

/-!
# One text agrees with itself

A text defines a type once, so that the definitions in the scene which it describes cannot differ,
and the scene can be written (`Scene.exists_render_of_ofText`). A definition may still differ from
itself: a NaN in an annotation on a type that is met twice is reported as a conflict
(`Scene.render_eq_error_of_ofText`).
-/

namespace AnnotationIndex.Scene

/-- **A text does not conflict with itself.** The scene that a text describes can be written in any
layout, when there is no NaN in the annotations on the types that it uses. -/
theorem exists_render_of_ofText (text : String) (s : Scene) (h : ofText text = .ok s)
    (hn : ∀ d, s.Reaches d → ∀ a ∈ d.metas, a.NaNFree) (layout : Layout) :
    ∃ written, s.render layout = .ok written := by
  obtain ⟨ds, hds, hsound⟩ := sound_of_ofText h
  obtain ⟨used, hused, -⟩ := declared_of_uses hds (fun _ ha => hsound.of_uses ha) hn
  exact ⟨layout.text (s.lines used), by rw [render, hused]⟩

/-- Two classes with annotations of one type, which is itself annotated. -/
def annotatedType : Scene :=
  let mark : Definition := ⟨"N", some .runtime, [("value", .basic .char)], []⟩
  let a : Annotation := ⟨⟨"A", some .runtime, [], [⟨mark, [("value", .char 'a')]⟩]⟩, []⟩
  ⟨⟨[], none, [(.typeDecl "C", ⟨[a], none, []⟩), (.typeDecl "D", ⟨[a], none, []⟩)]⟩, []⟩

set_option maxRecDepth 10000 in
/-- The text whose two annotations share a marked type. -/
theorem ofText_annotatedType :
    ofText ("package: annotation visible @N: char value " ++
      "annotation visible @A: @N(value='a') class C: @A class D: @A") = .ok annotatedType := by
  with_unfolding_all rfl

/-- A type that is met twice agrees with itself. -/
theorem exists_render_of_ofText_annotatedType :
    let text := "package: annotation visible @N: char value " ++
      "annotation visible @A: @N(value='a') class C: @A class D: @A"
    ofText text = .ok annotatedType ∧
      (∀ d, annotatedType.Reaches d → ∀ a ∈ d.metas, a.NaNFree) ∧
      ∀ layout, ∃ written, annotatedType.render layout = .ok written := by
  intro text
  let mark : Definition := ⟨"N", some .runtime, [("value", .basic .char)], []⟩
  let d : Definition := ⟨"A", some .runtime, [], [⟨mark, [("value", .char 'a')]⟩]⟩
  have hn : ∀ d, annotatedType.Reaches d → ∀ a ∈ d.metas, a.NaNFree := by
    intro e he
    have hmem : e ∈ [d, mark] := he.mem_of_closed
      (by
        rw [show annotatedType.root.uses .scene = [⟨d, []⟩, ⟨d, []⟩] from rfl]
        simp [Value.partsNamed, Annotation.parts])
      (by simp [Definition.mentioned, Annotation.parts, Value.partsNamed, Value.parts,
        FieldType.annotationType?, d, mark])
    simp only [List.mem_cons, List.not_mem_nil, or_false] at hmem
    rcases hmem with rfl | rfl
    · simp [d, Annotation.NaNFree, Value.NamedNaNFree, Value.NaNFree]
    · simp [mark]
  exact ⟨ofText_annotatedType, hn, exists_render_of_ofText text _ ofText_annotatedType hn⟩

/-- A NaN in an annotation on a type makes two uses of the type conflict, though the text defines it
once. -/
theorem render_eq_error_of_ofText :
    ∃ s, ofText ("package: annotation visible @N: float value " ++
        "annotation visible @A: @N(value=NaN) class C: @A class D: @A") = .ok s ∧
      ∀ layout, s.render layout = .error ⟨"A"⟩ := by
  let text := "package: annotation visible @N: float value " ++
    "annotation visible @A: @N(value=NaN) class C: @A class D: @A"
  have hread : (empty.read text).2 = none := by decide +kernel
  have hconflict : (empty.read text).1.render .standard = .error ⟨"A"⟩ := by decide +kernel
  refine ⟨(empty.read text).1, ?_, fun layout => ?_⟩
  · rw [ofText]
    split
    · next hfail => cases hread.symm.trans (congrArg Prod.snd hfail)
    · next hok => rw [hok]
  · rw [render] at hconflict
    split at hconflict
    · next hdefinitions =>
      cases hconflict
      rw [render, hdefinitions]
    · cases hconflict

end AnnotationIndex.Scene
