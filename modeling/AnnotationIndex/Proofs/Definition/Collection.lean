import AnnotationIndex.Proofs.Definition.Fits
import AnnotationIndex.Proofs.Element.Label
import Mathlib.Logic.Relation

/-!
# Collecting definitions

Collecting a definition is collecting what it mentions, in order, and then unifying it with what is
known of its type (`Definition.collect_eq`). A definition that adds nothing is passed over, with all
that it mentions. What makes this right is that a collection knows everything that occurs inside its
definitions (`Collection.Sound.closed`), which equal definitions share. The main statement is
`Scene.sound_of_collectAll`: after a scene has been collected, every reachable definition is known.
-/

namespace AnnotationIndex

/-! ## Reachable definitions -/

/-- The second element, with its kind, belongs to the first or is the first. -/
inductive Element.Below (kind : Kind) (x : Element) : Kind → Element → Prop where
  | self : Below kind x kind x
  | child {kind' : Kind} {e : Element} {c : Slot × Element} (hc : c ∈ e.children)
      (h : Below kind x c.1.kind c.2) : Below kind x kind' e

namespace Scene

/-- The annotation is on an element whose annotations have a place in an index. -/
def Uses (s : Scene) (a : Annotation) : Prop :=
  ∃ kind x, Element.Below kind x .scene s.root ∧ kind.isMarked = true ∧ a ∈ x.annotations

/-- The definition belongs to an annotation that the scene uses or that is in its values, or else
is mentioned by such a definition. -/
inductive Reaches (s : Scene) : Definition → Prop where
  | used {a p : Annotation} (h : s.Uses a) (hp : p ∈ a.parts) : Reaches s p.definition
  | mentioned {d x : Definition} (h : Reaches s d) (hx : x ∈ d.mentioned) : Reaches s x

/-- Some reachable definition of the first name mentions a definition of the second. -/
def Mentions (s : Scene) (n m : String) : Prop :=
  ∃ d, s.Reaches d ∧ d.name = n ∧ ∃ x ∈ d.mentioned, x.name = m

/-- No name leads back to itself along mentions. -/
def Acyclic (s : Scene) : Prop := ∀ n, ¬ Relation.TransGen s.Mentions n n

/-- In the annotations that a scene uses no field, no value and no annotation on a type occurs
twice. -/
def Distinct (s : Scene) : Prop := ∀ a, s.Uses a → a.Distinct

end Scene

/-- Arranging keeps the entries whose families are in the order. -/
theorem mem_arrange_iff {α : Type} {order : List Family} {entries : List (Slot × α)}
    {entry : Slot × α} :
    entry ∈ arrange order entries ↔ entry ∈ entries ∧ entry.1.family ∈ order := by
  simp only [arrange, List.mem_flatMap, List.mem_filter, decide_eq_true_eq]
  grind

/-- The order of collecting has every family. -/
theorem Family.mem_collectingOrder (family : Family) : family ∈ Family.collectingOrder := by
  cases family <;> decide

/-- The annotations that are used below an element are those of each child. -/
theorem Element.mem_usesBySlot_iff {cs : List (Slot × Element)} {entry : Slot × List Annotation} :
    entry ∈ Element.usesBySlot cs ↔ ∃ c ∈ cs, entry = (c.1, c.2.uses c.1.kind) := by
  induction cs with
  | nil => simp [Element.usesBySlot]
  | cons c rest ih => rw [Element.usesBySlot, List.mem_cons, ih, List.exists_mem_cons_iff]

/-- What is used in an element is on an element that belongs to it and counts. -/
theorem Element.mem_uses_iff {a : Annotation} (e : Element) :
    ∀ {kind : Kind}, a ∈ e.uses kind ↔
      ∃ k x, Below k x kind e ∧ k.isMarked = true ∧ a ∈ x.annotations := by
  induction e using Element.induct with
  | h e ih =>
    intro kind
    obtain ⟨as, type, cs⟩ := e
    simp only [Element.uses, List.mem_append, List.mem_flatMap, mem_arrange_iff,
      Element.mem_usesBySlot_iff, Family.mem_collectingOrder, and_true]
    constructor
    · rintro (h | ⟨_, ⟨c, hc, rfl⟩, h⟩)
      · split at h
        · next hk => exact ⟨_, _, .self, hk, h⟩
        · cases h
      · obtain ⟨k, x, hb, hx⟩ := (ih c hc).1 h
        exact ⟨k, x, .child hc hb, hx⟩
    · rintro ⟨k, x, hb, hk, ha⟩
      cases hb with
      | self => exact .inl (by rwa [if_pos hk])
      | @child _ _ c hc hb => exact .inr ⟨_, ⟨c, hc, rfl⟩, (ih c hc).2 ⟨k, x, hb, hk, ha⟩⟩

/-- What is used of a scene, as a list and as a property. -/
theorem Scene.mem_uses_iff {s : Scene} {a : Annotation} :
    a ∈ s.root.uses .scene ↔ s.Uses a :=
  Element.mem_uses_iff s.root

/-! ## Nothing occurs twice in what is reached -/

mutual

/-- Nothing occurs twice in what is inside an annotation in which nothing does. -/
theorem Annotation.Distinct.part : ∀ {a p : Annotation}, a.Distinct → p ∈ a.parts → p.Distinct
  | ⟨definition, values⟩, p, h, hp => by
    rcases Annotation.mem_parts_iff.1 hp with rfl | hp
    · exact h
    · exact Value.distinct_of_mem_partsNamed h.2.2 hp

/-- Nothing occurs twice in the annotations inside a value in which nothing does. -/
theorem Value.distinct_of_mem_parts : ∀ {v : Value} {p : Annotation},
    v.Distinct → p ∈ v.parts → p.Distinct
  | .nested a, _, h, hp => Annotation.Distinct.part (a := a) h hp
  | .array elements, _, h, hp => by
    rw [Value.parts] at hp
    rw [Value.Distinct] at h
    exact Value.distinct_of_mem_partsAll h hp
  | .boolean _, _, _, hp | .integer _ _, _, _, hp | .char _, _, _, hp | .floating _ _, _, _, hp
  | .string _, _, _, hp | .classToken _, _, _, hp | .enum _, _, _, hp => by
    simp [Value.parts] at hp

/-- Nothing occurs twice in the annotations inside array elements in which nothing does. -/
theorem Value.distinct_of_mem_partsAll : ∀ {vs : List Value} {p : Annotation},
    Value.AllDistinct vs → p ∈ Value.partsAll vs → p.Distinct
  | [], _, _, hp => nomatch hp
  | v :: rest, _, h, hp => by
    rw [Value.partsAll, List.mem_append] at hp
    rcases hp with hp | hp
    · exact Value.distinct_of_mem_parts h.1 hp
    · exact Value.distinct_of_mem_partsAll h.2 hp

/-- Nothing occurs twice in the annotations inside named values in which nothing does. -/
theorem Value.distinct_of_mem_partsNamed : ∀ {vs : List (String × Value)} {p : Annotation},
    Value.NamedDistinct vs → p ∈ Value.partsNamed vs → p.Distinct
  | [], _, _, hp => nomatch hp
  | (_, v) :: rest, _, h, hp => by
    rw [Value.partsNamed, List.mem_append] at hp
    rcases hp with hp | hp
    · exact Value.distinct_of_mem_parts h.1 hp
    · exact Value.distinct_of_mem_partsNamed h.2 hp

end

/-- Nothing occurs twice in the type of an annotation in which nothing does. -/
theorem Annotation.Distinct.definition {a : Annotation} (h : a.Distinct) :
    a.definition.Distinct := by
  cases a
  exact h.1

/-- Nothing occurs twice in what a definition mentions in which nothing does. -/
theorem Definition.Distinct.mentioned {d x : Definition} (h : d.Distinct) (hx : x ∈ d.mentioned) :
    x.Distinct := by
  rcases Definition.mem_mentioned_iff.1 hx with ⟨f, hf, hx⟩ | ⟨a, ha, p, hp, rfl⟩
  · exact h.of_field hf hx
  · have ha := Annotation.allDistinct_iff.1 (Definition.distinct_iff.1 h).2.2.2 a ha
    exact (ha.part hp).definition

/-- Nothing occurs twice in the definitions that a scene reaches in which nothing does. -/
theorem Scene.Reaches.distinct {s : Scene} {d : Definition} (hs : s.Distinct) (h : s.Reaches d) :
    d.Distinct := by
  induction h with
  | used h hp => exact ((hs _ h).part hp).definition
  | mentioned _ hx ih => exact ih.mentioned hx

/-! ## Collecting as a walk over what is mentioned -/

namespace Definition

/-- Collects definitions one after the other. -/
def collectEach : List Definition → Collection → Except Conflict Collection
  | [], c => .ok c
  | d :: rest, c =>
    match d.collect c with
    | .error e => .error e
    | .ok c => collectEach rest c

/-- Collecting no definition changes nothing. -/
@[simp] theorem collectEach_nil (c : Collection) : collectEach [] c = .ok c := rfl

/-- Collecting two lists is collecting the first and then the second. -/
theorem collectEach_append (xs ys : List Definition) (c : Collection) :
    collectEach (xs ++ ys) c = match collectEach xs c with
      | .error e => .error e
      | .ok c => collectEach ys c := by
  induction xs generalizing c with
  | nil => rfl
  | cons d rest ih =>
    rw [List.cons_append, collectEach, collectEach]
    cases d.collect c with
    | error e => rfl
    | ok c => exact ih c

/-- Collecting a list of one is collecting that definition. -/
theorem collectEach_singleton (d : Definition) (c : Collection) :
    collectEach [d] c = d.collect c := by
  rw [collectEach]
  cases d.collect c <;> rfl

end Definition

open Definition (collectEach collectEach_append)

mutual

/-- Collecting an annotation is collecting the types of what is inside it, in order. -/
theorem Annotation.collect_eq : ∀ (a : Annotation) (c : Collection),
    a.collect c = collectEach (a.parts.map (·.definition)) c
  | ⟨definition, values⟩, c => by
    simp only [List.map_cons, Annotation.collect, Annotation.parts, collectEach]
    cases definition.collect c with
    | error e => rfl
    | ok c => exact Value.collectNamed_eq values c

/-- Collecting a value is collecting the types of the annotations inside it, in order. -/
theorem Value.collect_eq : ∀ (v : Value) (c : Collection),
    v.collect c = collectEach (v.parts.map (·.definition)) c
  | .nested a, c => Annotation.collect_eq a c
  | .array elements, c => Value.collectAll_eq elements c
  | .boolean _, c | .integer _ _, c | .char _, c | .floating _ _, c | .string _, c
  | .classToken _, c | .enum _, c => by simp [Value.collect, Value.parts]

/-- Collecting array elements is collecting the types of the annotations inside them, in order. -/
theorem Value.collectAll_eq : ∀ (vs : List Value) (c : Collection),
    Value.collectAll vs c = collectEach ((Value.partsAll vs).map (·.definition)) c
  | [], c => rfl
  | v :: rest, c => by
    rw [Value.collectAll, Value.partsAll, List.map_append, collectEach_append,
      ← Value.collect_eq v c]
    cases v.collect c with
    | error e => rfl
    | ok c => exact Value.collectAll_eq rest c

/-- Collecting named values is collecting the types of the annotations inside them, in order. -/
theorem Value.collectNamed_eq : ∀ (vs : List (String × Value)) (c : Collection),
    Value.collectNamed vs c = collectEach ((Value.partsNamed vs).map (·.definition)) c
  | [], c => rfl
  | (_, v) :: rest, c => by
    rw [Value.collectNamed, Value.partsNamed, List.map_append, collectEach_append,
      ← Value.collect_eq v c]
    cases v.collect c with
    | error e => rfl
    | ok c => exact Value.collectNamed_eq rest c

end

/-- Collecting annotations is collecting the types of what is inside them, in order. -/
theorem Annotation.collectAll_eq (as : List Annotation) (c : Collection) :
    Annotation.collectAll as c =
      collectEach ((as.flatMap Annotation.parts).map (·.definition)) c := by
  induction as generalizing c with
  | nil => rfl
  | cons a rest ih =>
    rw [collectAll, List.flatMap_cons, List.map_append, collectEach_append,
      ← Annotation.collect_eq a c]
    cases a.collect c with
    | error e => rfl
    | ok c => exact ih c

/-- Collecting a type is collecting the definition that it holds, if any. -/
theorem FieldType.collect_eq : ∀ (type : FieldType) (c : Collection),
    type.collect c = collectEach type.annotationType?.toList c
  | .nested d, c => (Definition.collectEach_singleton d c).symm
  | .array element, c => FieldType.collect_eq element c
  | .basic _, c | .classToken, c | .enum _, c | .unknownArray, c => by
    simp [FieldType.collect, FieldType.annotationType?]

/-- Collecting fields is collecting the definitions that their types hold, in order. -/
theorem FieldType.collectAll_eq (fields : List (String × FieldType)) (c : Collection) :
    FieldType.collectAll fields c =
      collectEach (fields.filterMap fun f => f.2.annotationType?) c := by
  induction fields generalizing c with
  | nil => rfl
  | cons f rest ih =>
    obtain ⟨name, type⟩ := f
    have happ : ((name, type) :: rest).filterMap (fun f => f.2.annotationType?) =
        type.annotationType?.toList ++ rest.filterMap fun f => f.2.annotationType? := by
      cases h : type.annotationType? <;> simp [h]
    rw [FieldType.collectAll, happ, collectEach_append, ← FieldType.collect_eq type c]
    cases type.collect c with
    | error e => rfl
    | ok c => exact ih c

/-- Collecting a definition that is not passed over is collecting what it mentions and then leaving
it. -/
theorem Definition.collect_eq (d : Definition) (c : Collection) :
    d.collect c =
      if c.covers d = true ∨ d.name ∈ c.pending then .ok c
      else match collectEach d.mentioned (c.enter d.name) with
        | .error e => .error e
        | .ok c => c.leave d := by
  obtain ⟨name, retention, fields, metas⟩ := d
  rw [Definition.collect, Definition.mentioned, collectEach_append, ← FieldType.collectAll_eq]
  simp only [Bool.or_eq_true, List.contains_iff_mem]
  split
  · rfl
  · cases FieldType.collectAll fields (c.enter name) with
    | error e => rfl
    | ok c =>
      dsimp only
      rewrite [← Annotation.collectAll_eq]
      cases Annotation.collectAll metas c <;> rfl

/-! ## Joined definitions -/

namespace Definition

/-- The definition has the property or is unified from definitions that have it. -/
inductive Joined (P : Definition → Prop) : Definition → Prop where
  | of {d : Definition} (h : P d) : Joined P d
  | unify {x y z : Definition} (hx : Joined P x) (hy : P y) (h : x.unify y = some z) : Joined P z

namespace Joined

variable {P : Definition → Prop} {d : Definition}

/-- A joined definition has the name of one with the property. -/
theorem exists_name (h : d.Joined P) : ∃ x, P x ∧ x.name = d.name := by
  induction h with
  | of h => exact ⟨_, h, rfl⟩
  | unify _ _ h ih =>
    obtain ⟨x, hx, hname⟩ := ih
    exact ⟨x, hx, hname.trans (name_unify h).symm⟩

/-- Nothing occurs twice in a joined definition when nothing does in those it is joined from. -/
theorem distinct (hP : ∀ x, P x → x.Distinct) (h : d.Joined P) : d.Distinct := by
  induction h with
  | of h => exact hP _ h
  | unify _ hy h ih => exact .unify _ h ih (hP _ hy)

/-- The names that a joined definition mentions are mentioned by definitions with the property. -/
theorem exists_mentioned (h : d.Joined P) :
    ∀ x ∈ d.mentioned, ∃ e, P e ∧ e.name = d.name ∧ ∃ y ∈ e.mentioned, y.name = x.name := by
  induction h with
  | of h => exact fun x hx => ⟨_, h, rfl, x, hx, rfl⟩
  | unify _ hy h ih =>
    intro x hx
    rcases exists_name_of_mem_mentioned_unify h hx with ⟨a, ha, he⟩ | hb
    · obtain ⟨e, hpe, hname, y, hym, hyname⟩ := ih a ha
      exact ⟨e, hpe, hname.trans (name_unify h).symm, y, hym, hyname.trans he⟩
    · exact ⟨_, hy, (unify_eq_some_iff.1 h).1.symm.trans (name_unify h).symm, hb⟩

end Joined

end Definition

/-! ## What a collection holds -/

namespace Collection

/-- The definition refines the one of its name. -/
def Knows (c : Collection) (d : Definition) : Prop :=
  ∃ e, Keyed.get? d.name c.merged = some e ∧ d.Refines e

/-- The definition refines the one of its name, which has the same retention policy if the
definition has one. -/
def Has (c : Collection) (d : Definition) : Prop :=
  ∃ e, Keyed.get? d.name c.merged = some e ∧ d.Refines e ∧ d.Retains e

/-- Every definition that the collection has, the other one has as well. -/
def Grows (c c' : Collection) : Prop := ∀ e ∈ c.merged, c'.Has e.2

/-- What holds of a collection of reachable definitions at any time. -/
structure Sound (s : Scene) (c : Collection) : Prop where
  nodup : (Keyed.keys c.merged).Nodup
  named : ∀ e ∈ c.merged, e.2.name = e.1
  joined : ∀ e ∈ c.merged, e.2.Joined s.Reaches
  /-- Nothing inside a collected definition is missing. -/
  closed : ∀ e ∈ c.merged, e.2.All c.Knows
  metas : ∀ e ∈ c.merged, ∀ a ∈ e.2.metas, c.Has a.definition

variable {s : Scene} {c c' c'' : Collection} {d : Definition}

/-- What a collection has, it knows. -/
theorem Has.knows (h : c.Has d) : c.Knows d := by
  obtain ⟨e, he, hrefines, -⟩ := h
  exact ⟨e, he, hrefines⟩

/-- A definition that a collection knows has its name in it. -/
theorem Knows.name_mem (h : c.Knows d) : d.name ∈ Keyed.keys c.merged := by
  obtain ⟨e, he, -⟩ := h
  exact Keyed.get?_isSome_iff.1 (by rw [he]; rfl)

/-- What refines a known definition is known. -/
theorem Knows.of_refines {e : Definition} (h : c.Knows e) (hrefines : d.Refines e) : c.Knows d := by
  obtain ⟨known, hknown, he⟩ := h
  exact ⟨known, by rwa [hrefines.name], hrefines.trans he⟩

/-- What unifies from known definitions is known. -/
theorem Knows.unify {x y z : Definition} (h : x.unify y = some z) (hx : c.Knows x)
    (hy : c.Knows y) : c.Knows z := by
  obtain ⟨e, he, hxe⟩ := hx
  obtain ⟨e', he', hye⟩ := hy
  rw [← (Definition.unify_eq_some_iff.1 h).1] at he'
  cases he.symm.trans he'
  exact ⟨e, by rwa [Definition.name_unify h], .of_unify h hxe hye⟩

/-- What a collection has, a larger one has. -/
theorem Has.mono (hg : c.Grows c') (h : c.Has d) : c'.Has d := by
  obtain ⟨e, he, hrefines, hretains⟩ := h
  obtain ⟨e', he', hrefines', hretains'⟩ := hg _ (Keyed.mem_of_get? he)
  exact ⟨e', by rwa [hrefines.name], hrefines.trans hrefines', hretains.trans hretains'⟩

/-- What a collection knows, a larger one knows. -/
theorem Knows.mono (hg : c.Grows c') (h : c.Knows d) : c'.Knows d := by
  obtain ⟨e, he, hrefines⟩ := h
  exact (hg _ (Keyed.mem_of_get? he)).knows.of_refines hrefines

/-- What grows twice has grown. -/
theorem Grows.trans (h : c.Grows c') (h' : c'.Grows c'') : c.Grows c'' :=
  fun e he => (h e he).mono h'

/-- An empty collection is sound. -/
theorem sound_empty (s : Scene) : empty.Sound s := by
  constructor <;> simp [empty, Keyed.keys]

namespace Sound

/-- A sound collection has its own definitions. -/
theorem grows (h : c.Sound s) : c.Grows c := fun e he =>
  ⟨e.2, by rw [h.named e he]; exact Keyed.get?_of_mem h.nodup he, .refl _, .refl _⟩

/-- Only the definitions matter, not the names that are being looked at. -/
theorem of_merged_eq (h : c.Sound s) (he : c'.merged = c.merged) : c'.Sound s := by
  obtain ⟨merged, pending⟩ := c'
  cases he
  exact ⟨h.nodup, h.named, h.joined, h.closed, h.metas⟩

/-- Nothing occurs twice in the definitions of a sound collection. -/
theorem distinct (h : c.Sound s) (hs : s.Distinct) : ∀ e ∈ c.merged, e.2.Distinct :=
  fun e he => (h.joined e he).distinct fun _ hr => hr.distinct hs

/-- Mentions in collected definitions are mentions in reachable ones. -/
theorem mentions (h : c.Sound s) : ∀ e ∈ c.merged, ∀ x ∈ e.2.mentioned, s.Mentions e.1 x.name := by
  intro e he x hx
  obtain ⟨d, hd, hname, y, hy, hyname⟩ := (h.joined e he).exists_mentioned x hx
  exact ⟨d, hd, hname.trans (h.named e he), y, hy, hyname⟩

/-- A definition that adds nothing is known, with everything inside it. -/
theorem has_of_covers (h : c.Sound s) (hs : s.Distinct) (hc : c.covers d = true) :
    c.Has d ∧ d.All c.Knows := by
  rw [covers] at hc
  cases hg : Keyed.get? d.name c.merged with
  | none => simp [hg] at hc
  | some known =>
    rw [hg] at hc
    simp only [Bool.and_eq_true, Bool.or_eq_true, decide_eq_true_eq] at hc
    obtain ⟨hb, hretention⟩ := hc
    have hm := Keyed.mem_of_get? hg
    have hb' := Definition.beq_symm (h.distinct hs _ hm) hb
    refine ⟨⟨known, hg, .of_beq hb', fun r hr => ?_⟩,
      .of_beq (fun x y hxy hy => hy.of_refines (.of_beq hxy)) d hb' (h.closed _ hm)⟩
    rcases hretention with hnone | heq
    · rw [hr] at hnone
      cases hnone
    · exact heq.trans hr

/-- A joined definition whose mentions are known can be put under its name, when what is known under
that name refines it. -/
theorem put (h : c.Sound s) {z : Definition} {name : String} (hn : z.name = name)
    (hj : z.Joined s.Reaches)
    (hup : ∀ known, Keyed.get? name c.merged = some known →
      known.Refines z ∧ known.Retains z)
    (hall : ∀ x ∈ z.mentioned, x.All c.Knows) (hmetas : ∀ a ∈ z.metas, c.Has a.definition)
    (pending : List String) :
    (Collection.mk (Keyed.put name z c.merged) pending).Sound s ∧
      c.Grows ⟨Keyed.put name z c.merged, pending⟩ ∧
      Keyed.get? name (Keyed.put name z c.merged) = some z := by
  have hself : Keyed.get? name (Keyed.put name z c.merged) = some z := by
    rw [Keyed.put, Keyed.get?_upsert_self]
  have hgrows : c.Grows ⟨Keyed.put name z c.merged, pending⟩ := by
    intro e he
    have hget : Keyed.get? e.1 c.merged = some e.2 := Keyed.get?_of_mem h.nodup he
    rw [Has, h.named e he]
    by_cases hne : name = e.1
    · subst hne
      exact ⟨z, hself, hup _ hget⟩
    · refine ⟨e.2, ?_, .refl _, .refl _⟩
      rw [Keyed.put, Keyed.get?_upsert_of_ne hne, hget]
  have hknows : ∀ {x : Definition}, x.All c.Knows →
      x.All (Knows ⟨Keyed.put name z c.merged, pending⟩) := fun hx => hx.mono fun _ => .mono hgrows
  refine ⟨⟨Keyed.nodup_keys_upsert h.nodup, fun e he => ?_, fun e he => ?_, fun e he => ?_,
    fun e he a ha => ?_⟩, hgrows, hself⟩
  · rcases Keyed.mem_upsert he with he | rfl
    · exact h.named e he
    · exact hn
  · rcases Keyed.mem_upsert he with he | rfl
    · exact h.joined e he
    · exact hj
  · rcases Keyed.mem_upsert he with he | rfl
    · exact hknows (h.closed e he)
    · exact .mk ⟨z, by rw [hn]; exact hself, .refl z⟩ fun x hx => hknows (hall x hx)
  · rcases Keyed.mem_upsert he with he | rfl
    · exact (h.metas e he a ha).mono hgrows
    · exact (hmetas a ha).mono hgrows

/-- Leaving a reachable definition all of whose mentions are known makes it known. -/
theorem leave (h : c.Sound s) (hs : s.Distinct) (hr : s.Reaches d)
    (hall : ∀ x ∈ d.mentioned, c.Has x ∧ x.All c.Knows) (hl : c.leave d = .ok c') :
    c'.Sound s ∧ c'.pending = c.pending.erase d.name ∧ c.Grows c' ∧ c'.Has d := by
  have hmetas : ∀ a ∈ d.metas, c.Has a.definition := fun a ha =>
    (hall _ (Definition.mem_mentioned_iff.2 (.inr ⟨a, ha, a, a.mem_parts_self, rfl⟩))).1
  rw [Collection.leave] at hl
  cases hg : Keyed.get? d.name c.merged with
  | none =>
    rw [hg] at hl
    cases hl
    have hput : Keyed.put d.name d c.merged = c.merged ++ [(d.name, d)] := by
      have := Keyed.upsert_append_of_not_mem d (fun _ => d) (Keyed.get?_eq_none_iff.1 hg) []
      simpa [Keyed.put, Keyed.upsert] using this
    obtain ⟨hsound, hgrows, hself⟩ := h.put rfl (.of hr) (by simp [hg]) (fun x hx => (hall x hx).2)
      hmetas (c.pending.erase d.name)
    rw [hput] at hsound hgrows hself
    exact ⟨hsound, rfl, hgrows, d, hself, .refl d, .refl d⟩
  | some known =>
    rw [hg] at hl
    have hm := Keyed.mem_of_get? hg
    cases hu : known.unify d with
    | none => simp [hu] at hl
    | some z =>
      simp only [hu, Except.ok.injEq] at hl
      subst hl
      obtain ⟨-, -, -, -, -, -, hzmetas⟩ := Definition.unify_eq_some_iff.1 hu
      have hz : z.name = d.name := (Definition.name_unify hu).trans (h.named _ hm)
      have hright : d.Refines z := .unify_right hu (h.distinct hs _ hm)
      have hretains := Definition.Retains.of_unify hu
      have hup : ∀ e, Keyed.get? z.name c.merged = some e → e.Refines z ∧ e.Retains z := by
        intro e he
        rw [hz] at he
        cases hg.symm.trans he
        exact ⟨.unify_left hu, hretains.1⟩
      have hinside : ∀ x ∈ z.mentioned, x.All c.Knows := by
        intro x hx
        rcases Definition.mem_mentioned_unify hu hx with h1 | h2 | ⟨a, ha, b, hb, hab⟩
        · exact (h.closed _ hm).inside x h1
        · exact (hall x h2).2
        · exact .unify (fun _ _ _ => .unify) a hab ((h.closed _ hm).inside a ha) (hall b hb).2
      obtain ⟨hsound, hgrows, hself⟩ := h.put rfl (.unify (h.joined _ hm) hr hu) hup hinside
        (hzmetas ▸ h.metas _ hm) (c.pending.erase d.name)
      exact ⟨hsound, rfl, hgrows, z, by rw [← hz]; exact hself, hright, hretains.2⟩

/-- Collecting several definitions keeps what collecting each of them keeps. -/
theorem collectEach (names : List String) {ds : List Definition}
    (hstep : ∀ d ∈ ds, ∀ {c c' : Collection}, c.Sound s → c.pending = names → d.collect c = .ok c' →
      c'.Sound s ∧ c'.pending = names ∧ c.Grows c' ∧ c'.Has d ∧ d.All c'.Knows)
    (h : c.Sound s) (hp : c.pending = names) (hc : Definition.collectEach ds c = .ok c') :
    c'.Sound s ∧ c'.pending = names ∧ c.Grows c' ∧ ∀ d ∈ ds, c'.Has d ∧ d.All c'.Knows := by
  induction ds generalizing c with
  | nil =>
    cases hc
    exact ⟨h, hp, h.grows, by simp⟩
  | cons d rest ih =>
    rw [Definition.collectEach] at hc
    cases hd : d.collect c with
    | error e => simp [hd] at hc
    | ok c₁ =>
      rw [hd] at hc
      obtain ⟨h1, hp1, hg1, hhas, hall⟩ := hstep d List.mem_cons_self h hp hd
      obtain ⟨h2, hp2, hg2, hrest⟩ :=
        ih (fun d hd => hstep d (List.mem_cons_of_mem _ hd)) h1 hp1 hc
      refine ⟨h2, hp2, hg1.trans hg2, ?_⟩
      rw [List.forall_mem_cons]
      exact ⟨⟨hhas.mono hg2, hall.mono fun _ => .mono hg2⟩, hrest⟩

/-- Collecting a reachable definition makes everything inside it known. The names that are being
looked at lead to it, so that under acyclic mentions it is not one of them. -/
theorem collect (hs : s.Distinct) (ha : s.Acyclic) (d : Definition) :
    ∀ {c c' : Collection}, s.Reaches d → (∀ p ∈ c.pending, Relation.TransGen s.Mentions p d.name) →
      c.Sound s → d.collect c = .ok c' →
      c'.Sound s ∧ c'.pending = c.pending ∧ c.Grows c' ∧ c'.Has d ∧ d.All c'.Knows := by
  induction d using Definition.induct with
  | h d ih =>
    intro c c' hr hp h hc
    rw [Definition.collect_eq] at hc
    split at hc
    · next hskip =>
      cases hc
      rcases hskip with hcov | hpend
      · exact ⟨h, rfl, h.grows, h.has_of_covers hs hcov⟩
      · exact absurd (hp _ hpend) (ha _)
    · cases hall : Definition.collectEach d.mentioned (c.enter d.name) with
      | error e => simp [hall] at hc
      | ok c₁ =>
        rw [hall] at hc
        have hlead : ∀ x ∈ d.mentioned, ∀ p ∈ d.name :: c.pending,
            Relation.TransGen s.Mentions p x.name := by
          intro x hx p hpm
          have hstep : s.Mentions d.name x.name := ⟨d, hr, rfl, x, hx, rfl⟩
          rcases List.mem_cons.1 hpm with rfl | hpm
          · exact .single hstep
          · exact (hp p hpm).tail hstep
        have henter : (c.enter d.name).Sound s := h.of_merged_eq rfl
        obtain ⟨h1, hp1, hg1, hinside⟩ := Sound.collectEach (d.name :: c.pending)
          (fun x hx {c₂ c₃} h2 hp2 hc2 => hp2 ▸ ih x hx (hr.mentioned hx)
            (fun p hpm => hlead x hx p (hp2 ▸ hpm)) h2 hc2)
          henter rfl hall
        obtain ⟨h2, hp2, hg2, hhas⟩ := h1.leave hs hr hinside hc
        have hgrows : c.Grows c₁ := hg1
        refine ⟨h2, by simpa [hp1] using hp2, hgrows.trans hg2, hhas, .mk hhas.knows fun x hx => ?_⟩
        exact (hinside x hx).2.mono fun _ => .mono hg2

/-- The names in a collection that knows all reachable definitions are their names. -/
theorem mem_keys_iff (h : c.Sound s) (hk : ∀ d, s.Reaches d → c.Knows d) (n : String) :
    n ∈ Keyed.keys c.merged ↔ ∃ d, s.Reaches d ∧ d.name = n := by
  constructor
  · intro hn
    obtain ⟨e, he, rfl⟩ := List.mem_map.1 hn
    obtain ⟨d, hd, hname⟩ := (h.joined e he).exists_name
    exact ⟨d, hd, hname.trans (h.named e he)⟩
  · rintro ⟨d, hd, rfl⟩
    exact (hk d hd).name_mem

end Sound

end Collection

/-- After all that a scene uses has been collected, every reachable definition is known, and no
policy that an annotation shows is lost. -/
theorem Scene.sound_of_collectAll {s : Scene} (hs : s.Distinct) (ha : s.Acyclic) {c : Collection}
    (h : Annotation.collectAll (s.root.uses .scene) .empty = .ok c) :
    c.Sound s ∧ (∀ a, s.Uses a → ∀ p ∈ a.parts, c.Has p.definition) ∧
      ∀ d, s.Reaches d → c.Knows d := by
  have hcollect := Annotation.collectAll_eq (s.root.uses .scene) .empty
  rw [hcollect] at h
  have hreach : ∀ {a p : Annotation}, a ∈ s.root.uses .scene → p ∈ a.parts →
      s.Reaches p.definition := fun ha hp => .used (Scene.mem_uses_iff.1 ha) hp
  obtain ⟨hc, -, -, hall⟩ := Collection.Sound.collectEach [] (fun d hd {c₁ c₂} h1 hp1 hc => by
      obtain ⟨p, hp, rfl⟩ := List.mem_map.1 hd
      obtain ⟨a, ha', hp⟩ := List.mem_flatMap.1 hp
      exact hp1 ▸ Collection.Sound.collect hs ha _ (hreach ha' hp) (by simp [hp1]) h1 hc)
    (Collection.sound_empty s) rfl h
  have hpart : ∀ {a p : Annotation}, s.Uses a → p ∈ a.parts →
      c.Has p.definition ∧ p.definition.All c.Knows := fun h hp =>
    hall _ (List.mem_map.2 ⟨_, List.mem_flatMap.2 ⟨_, Scene.mem_uses_iff.2 h, hp⟩, rfl⟩)
  refine ⟨hc, fun a ha p hp => (hpart ha hp).1, fun d hd => ?_⟩
  -- everything that is reached lies inside a definition that has been collected
  have hinside : d.All c.Knows := by
    induction hd with
    | used h hp => exact (hpart h hp).2
    | mentioned _ hx ih => exact ih.inside _ hx
  exact hinside.self

end AnnotationIndex
