import AnnotationIndex.Proofs.Definition.Conflict
import AnnotationIndex.Proofs.Definition.NaN
import AnnotationIndex.Proofs.Definition.Order

/-!
# Collected definitions subsume all others

A collected definition says no less of its type than any definition that the scene reaches: it has
the same fields and annotations, and its fields arise from those of the other by filling in element
types that were not known (`Definition.FilledTo`). The main statement is
`Scene.definitions_subsume`, which adds that no policy of an annotation is lost and that a
conflict is one of two reachable definitions.
-/

namespace AnnotationIndex

mutual

/-- The second type arises from the first by filling in element types of arrays that are not known,
also in the definitions that the types hold. -/
inductive FieldType.FilledTo : FieldType → FieldType → Prop where
  | basic (kind : BasicKind) : FieldType.FilledTo (.basic kind) (.basic kind)
  | classToken : FieldType.FilledTo .classToken .classToken
  | enum (name : String) : FieldType.FilledTo (.enum name) (.enum name)
  | nested {d e : Definition} (h : Definition.FilledTo d e) :
    FieldType.FilledTo (.nested d) (.nested e)
  | array {x y : FieldType} (h : FieldType.FilledTo x y) : FieldType.FilledTo (.array x) (.array y)
  | unknown : FieldType.FilledTo .unknownArray .unknownArray
  | known (element : FieldType) : FieldType.FilledTo .unknownArray (.array element)

/-- The definitions have the same name and annotations, and fields of the same names, and the types
of these are filled. Neither the order of the fields nor the retention policy counts. -/
inductive Definition.FilledTo : Definition → Definition → Prop where
  | mk {d e : Definition} (name : d.name = e.name)
      (metas : AnnotationSet.beq d.metas e.metas = true)
      (names : ∀ field, field ∈ Keyed.keys d.fields ↔ field ∈ Keyed.keys e.fields)
      (fields : ∀ field type type', Keyed.get? field d.fields = some type →
        Keyed.get? field e.fields = some type' → FieldType.FilledTo type type') :
    Definition.FilledTo d e

end

/-- A type that is filled to an array of unknown elements is one. -/
theorem FieldType.FilledTo.eq_unknownArray {x : FieldType} (h : x.FilledTo .unknownArray) :
    x = .unknownArray := by
  cases h
  rfl

/-- What fits a type is filled to it once the definition in it has been replaced by one that the
other definition is filled to. -/
theorem FieldType.Fits.filledTo_relink {definitions : List (String × Definition)}
    {x y : FieldType} (h : x.Fits y)
    (hd : ∀ a b, x.annotationType? = some a → y.annotationType? = some b → a.name = b.name →
      a.FilledTo ((Keyed.get? b.name definitions).getD b)) : x.FilledTo (y.relink definitions) := by
  induction h with
  | basic kind => exact .basic kind
  | classToken => exact .classToken
  | enum name => exact .enum name
  | nested hname => exact .nested (hd _ _ rfl rfl hname)
  | array _ ih => exact .array (ih hd)
  | unknown => exact .unknown
  | known element => exact .known _

/-- A definition has the fields of those that refine it, and no others. -/
theorem Definition.Refines.mem_keys_iff {d e : Definition} (h : d.Refines e)
    (hd : (Keyed.keys d.fields).Nodup) (field : String) :
    field ∈ Keyed.keys d.fields ↔ field ∈ Keyed.keys e.fields := by
  have hsub : Keyed.keys d.fields ⊆ Keyed.keys e.fields := fun field hfield => by
    obtain ⟨type, htype⟩ := Option.isSome_iff_exists.1 (Keyed.get?_isSome_iff.2 hfield)
    obtain ⟨type', htype', -⟩ := h.fields field type htype
    exact Keyed.get?_isSome_iff.1 (by rw [htype']; rfl)
  have hperm := (List.subperm_of_subset hd hsub).perm_of_length_le (by simp [Keyed.keys, h.length])
  exact hperm.mem_iff

namespace Scene

/-- Every reachable definition is filled to the one of its name in the list: the definitions in its
fields are, and the list holds these where they are referred to. -/
theorem Collected.filledTo {s : Scene} {c : Collection} {final : List (String × Definition)}
    (h : s.Collected c final) (hs : s.Distinct)
    (hn : ∀ d, s.Reaches d → AnnotationSet.beq d.metas d.metas = true) (d : Definition) :
    s.Reaches d → ∀ e, Keyed.get? d.name final = some e → d.FilledTo e := by
  induction d using Definition.induct with
  | h d ih =>
    intro hd e he
    obtain ⟨known, hknown, hrefines⟩ := h.knows d hd
    obtain ⟨pre, post, hfinal⟩ := List.append_of_mem (Keyed.mem_of_get? he)
    obtain ⟨x, hx, hrelink, hm⟩ := h.inOrder pre _ post hfinal
    cases hknown.symm.trans hx
    simp only at hrelink
    subst hrelink
    have hkeys : Keyed.keys (known.relink pre).fields = Keyed.keys known.fields := by
      simp [Definition.relink, Keyed.keys, Function.comp_def]
    refine .mk hrefines.name (hrefines.metas _ (hn d hd)) (fun field => ?_) ?_
    · rw [hkeys]
      exact hrefines.mem_keys_iff (Definition.distinct_iff.1 (hd.distinct hs)).1 field
    · intro field type type' htype htype'
      obtain ⟨type₀, htype₀, hfits⟩ := hrefines.fields field type htype
      rw [Definition.relink, Keyed.get?_map field (fun _ => FieldType.relink pre), htype₀] at htype'
      cases htype'
      refine hfits.filledTo_relink fun a b ha hb hab => ?_
      have hmem : b.name ∈ Keyed.keys pre :=
        hm _ (Definition.mem_mentions_of_field (Keyed.mem_of_get? htype₀) hb)
      obtain ⟨y, hy⟩ := Option.isSome_iff_exists.1 (Keyed.get?_isSome_iff.2 hmem)
      have hmentioned := Definition.mem_mentioned_iff.2 (.inl ⟨_, Keyed.mem_of_get? htype, ha⟩)
      rw [hy, Option.getD_some]
      refine ih a hmentioned (hd.mentioned hmentioned) y ?_
      rw [hab, hfinal, Keyed.get?_append, hy]
      rfl

/-- **The definitions of a scene subsume all that it reaches.** A conflict is one of two reachable
definitions. Otherwise every reachable definition is filled to the one of its name, which has an
array of unknown elements only where they all have, and the policies of the annotations. -/
theorem definitions_subsume (s : Scene) (hs : s.Distinct) (ha : s.Acyclic)
    (hn : ∀ d, s.Reaches d → ∀ a ∈ d.metas, a.NaNFree) :
    (∀ c, s.definitions = .error c → Definition.Clash s.Reaches c.name) ∧
    ∀ ds, s.definitions = .ok ds →
      (∀ d, s.Reaches d → (∃ e ∈ ds, e.name = d.name) ∧ ∀ e ∈ ds, e.name = d.name →
        d.FilledTo e ∧ ∀ field, Keyed.get? field e.fields = some .unknownArray →
          Keyed.get? field d.fields = some .unknownArray) ∧
      ∀ a, s.Uses a → ∀ e ∈ ds, e.name = a.definition.name → a.definition.Retains e := by
  refine ⟨fun c hc => exists_of_conflict hc, fun ds hds => ?_⟩
  obtain ⟨c, final, rfl, hc⟩ := exists_collected hs ha hds
  have hget : ∀ e ∈ final.map (·.2), Keyed.get? e.name final = some e := by
    intro e he
    obtain ⟨entry, hentry, rfl⟩ := List.mem_map.1 he
    rw [hc.named entry hentry]
    exact Keyed.get?_of_mem hc.nodup hentry
  refine ⟨fun d hd => ⟨?_, fun e he hname => ?_⟩, fun a ha e he hname r hr => ?_⟩
  · obtain ⟨entry, hentry, hname⟩ := List.mem_map.1 ((hc.mem_keys_iff d.name).2 ⟨d, hd, rfl⟩)
    exact ⟨entry.2, List.mem_map_of_mem (f := (·.2)) hentry, (hc.named entry hentry).trans hname⟩
  · have hfilled := hc.filledTo hs (fun _ hx => hx.metas_beq_self hs hn) d hd e (hname ▸ hget e he)
    refine ⟨hfilled, fun field hunknown => ?_⟩
    cases hfilled with
    | mk _ _ names fields =>
      have hmem := (names field).2 (Keyed.get?_isSome_iff.1 (by rw [hunknown]; rfl))
      obtain ⟨type, htype⟩ := Option.isSome_iff_exists.1 (Keyed.get?_isSome_iff.2 hmem)
      rw [htype, (fields field type _ htype hunknown).eq_unknownArray]
  · obtain ⟨known, hknown, -, hretains⟩ := hc.has a ha a a.mem_parts_self
    obtain ⟨pre, post, hfinal⟩ := List.append_of_mem (Keyed.mem_of_get? (hget e he))
    obtain ⟨x, hx, hrelink, -⟩ := hc.inOrder pre _ post hfinal
    rw [hname] at hx
    cases hknown.symm.trans hx
    simp only at hrelink
    rw [hrelink]
    exact hretains r hr

/-! ## A type that is used with less and with more known -/

namespace knownParts

/-- The annotation type on the inner type. -/
def mark : Definition := ⟨"p.Mark", some .runtime, [("id", .basic .char)], []⟩

/-- The inner type where its policy and the elements of its array are not known. -/
def part : Definition :=
  ⟨"p.Part", none, [("xs", .unknownArray)], [⟨mark, [("id", .char 'a')]⟩]⟩

/-- The inner type where they are. -/
def fullPart : Definition :=
  ⟨"p.Part", some .source, [("xs", .array (.basic .char))], [⟨mark, [("id", .char 'a')]⟩]⟩

/-- The outer type, over a definition of the inner one. -/
def whole (part : Definition) : Definition :=
  ⟨"p.Whole", some .runtime, [("parts", .array (.nested part))], []⟩

end knownParts

open knownParts

/-- The first class has an annotation over the inner type where little is known of it, the second
one an annotation of that type itself. -/
def knownParts : Scene :=
  ⟨⟨[], none, [(.typeDecl "C", ⟨[⟨whole part, []⟩], none, []⟩),
    (.typeDecl "D", ⟨[⟨fullPart, []⟩], none, []⟩)]⟩, []⟩

/-- The scene uses two annotations. -/
theorem uses_knownParts :
    knownParts.root.uses .scene = [⟨whole part, []⟩, ⟨fullPart, []⟩] := rfl

/-- Nothing occurs twice in the annotations of the scene. -/
theorem distinct_knownParts : knownParts.Distinct := by
  intro a ha
  rw [← mem_uses_iff, uses_knownParts] at ha
  simp only [List.mem_cons, List.not_mem_nil, or_false] at ha
  rcases ha with rfl | rfl <;>
    simp [Definition.Distinct, Annotation.Distinct, FieldType.AllDistinct, FieldType.Distinct,
      Annotation.AllDistinct, Value.NamedDistinct, Value.Distinct, Keyed.keys, whole, part,
      fullPart, mark]

/-- No definition of the scene mentions itself, not even by way of others. -/
theorem acyclic_knownParts : knownParts.Acyclic := by
  refine acyclic_of_rank (l := [whole part, part, fullPart, mark])
    (["p.Mark", "p.Part", "p.Whole"].idxOf ·) ?_ ?_
  · rw [uses_knownParts]
    simp [Value.partsNamed, Annotation.parts]
  · simp [Definition.mentioned, FieldType.annotationType?, Annotation.parts, Value.partsNamed,
      Value.parts, whole, part, fullPart, mark, List.idxOf_cons]

/-- The scene reaches four definitions. -/
theorem mem_of_reaches_knownParts {d : Definition} (hd : knownParts.Reaches d) :
    d ∈ [whole part, part, fullPart, mark] := by
  refine hd.mem_of_closed ?_ ?_
  · rw [uses_knownParts]
    simp [Value.partsNamed, Annotation.parts]
  · simp [Definition.mentioned, FieldType.annotationType?, Annotation.parts, Value.partsNamed,
      Value.parts, whole, part, fullPart, mark]

/-- No annotation on a type of the scene holds a NaN. -/
theorem naNFree_knownParts : ∀ d, knownParts.Reaches d → ∀ a ∈ d.metas, a.NaNFree := by
  intro d hd
  have hmem := mem_of_reaches_knownParts hd
  simp only [List.mem_cons, List.not_mem_nil, or_false] at hmem
  rcases hmem with rfl | rfl | rfl | rfl <;>
    simp [whole, part, fullPart, mark, Annotation.NaNFree, Value.NamedNaNFree, Value.NaNFree]

/-- What is known of the inner type in the second class is filled in for the outer one. -/
theorem definitions_subsume_knownParts :
    knownParts.Distinct ∧ knownParts.Acyclic ∧
      (∀ d, knownParts.Reaches d → ∀ a ∈ d.metas, a.NaNFree) ∧
      knownParts.definitions = .ok [mark, fullPart, whole fullPart] ∧
      (whole part).FilledTo (whole fullPart) := by
  have hok : knownParts.definitions = .ok [mark, fullPart, whole fullPart] := rfl
  have hused : knownParts.Uses ⟨whole part, []⟩ :=
    mem_uses_iff.1 (uses_knownParts ▸ List.mem_cons_self)
  obtain ⟨hsubsumed, -⟩ := (definitions_subsume knownParts distinct_knownParts acyclic_knownParts
    naNFree_knownParts).2 _ hok
  refine ⟨distinct_knownParts, acyclic_knownParts, naNFree_knownParts, hok, ?_⟩
  have hpart := Annotation.mem_parts_self ⟨whole part, []⟩
  have hreached := Reaches.used hused hpart
  exact ((hsubsumed _ hreached).2 (whole fullPart) (by simp) rfl).1

end Scene

end AnnotationIndex
