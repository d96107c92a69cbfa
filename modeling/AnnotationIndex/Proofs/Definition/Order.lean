import AnnotationIndex.Proofs.Definition.Collection

/-!
# Definitions in order

The collected definitions are put in order by a walk along their mentions, which appends a
definition when all that it mentions is in place. While a name is visited, the names that lead to it
are visited but not yet in place; under acyclic mentions none of them is met again, and the bound on
the length of a chain is never reached (`Ordered.Sound.visit`). The main statement is
`Scene.definitions_ordered`: which definitions there are, that each comes after those that it
mentions, and that its fields hold the definitions of the list.
-/

namespace AnnotationIndex

/-! ## Relinked definitions -/

/-- A relinked type holds what is found under the name of what the type holds. -/
theorem FieldType.annotationType?_relink (definitions : List (String × Definition)) :
    ∀ type : FieldType, (type.relink definitions).annotationType? =
      type.annotationType?.map fun d => (Keyed.get? d.name definitions).getD d
  | .nested _ => rfl
  | .array element => FieldType.annotationType?_relink definitions element
  | .basic _ | .classToken | .enum _ | .unknownArray => rfl

namespace Definition

/-- The names that the fields of a definition mention are among those that it mentions. -/
theorem mem_mentions_of_field {d x : Definition} {f : String × FieldType} (hf : f ∈ d.fields)
    (hx : f.2.annotationType? = some x) : x.name ∈ d.mentions := by
  rw [mentions, List.mem_append, List.mem_filterMap]
  exact .inl ⟨f, hf, by rw [hx]; rfl⟩

/-- Relinking to definitions under their own names does not change what is mentioned. -/
theorem mentions_relink {definitions : List (String × Definition)}
    (hn : ∀ e ∈ definitions, e.2.name = e.1) (d : Definition) :
    (d.relink definitions).mentions = d.mentions := by
  have hname : ∀ x : Definition, ((Keyed.get? x.name definitions).getD x).name = x.name := by
    intro x
    cases hg : Keyed.get? x.name definitions with
    | none => rfl
    | some y => exact hn _ (Keyed.mem_of_get? hg)
  simp only [mentions, relink, List.filterMap_map]
  congr 1
  refine List.filterMap_congr fun f _ => ?_
  rw [Function.comp_apply, FieldType.annotationType?_relink]
  cases f.2.annotationType? with
  | none => rfl
  | some x => exact congrArg some (hname x)

end Definition

/-! ## The walk -/

namespace Ordered

/-- Definitions in their final order: each is the collected one of its name, relinked to those
before it, and all that it mentions is before it. -/
def InOrder (merged final : List (String × Definition)) : Prop :=
  ∀ pre e post, final = pre ++ e :: post →
    ∃ d, Keyed.get? e.1 merged = some d ∧ e.2 = d.relink pre ∧ ∀ m ∈ d.mentions, m ∈ Keyed.keys pre

/-- What holds while the names of the path are being visited. -/
structure Sound (merged : List (String × Definition)) (path : List String) (o : Ordered) :
    Prop where
  visited : ∀ n, n ∈ o.visited ↔ n ∈ Keyed.keys o.final ∨ n ∈ path
  fresh : ∀ n ∈ path, n ∉ Keyed.keys o.final
  nodup : (Keyed.keys o.final).Nodup
  subset : Keyed.keys o.final ⊆ Keyed.keys merged
  inOrder : InOrder merged o.final

variable {merged : List (String × Definition)} {path : List String} {o : Ordered}

/-- Appending a definition whose mentions are in place keeps the order. -/
theorem InOrder.append {final : List (String × Definition)} (h : InOrder merged final)
    {name : String} {d : Definition} (hd : Keyed.get? name merged = some d)
    (hm : ∀ m ∈ d.mentions, m ∈ Keyed.keys final) :
    InOrder merged (final ++ [(name, d.relink final)]) := by
  intro pre e post he
  rcases List.append_eq_append_iff.1 he with ⟨l, rfl, hl⟩ | ⟨l, rfl, hl⟩
  · cases l with
    | nil =>
      cases hl
      rw [List.append_nil]
      exact ⟨d, hd, rfl, hm⟩
    | cons x l =>
      have := congrArg List.length hl
      simp at this
  · cases l with
    | nil =>
      cases hl
      rw [List.append_nil] at hm ⊢
      exact ⟨d, hd, rfl, hm⟩
    | cons x l =>
      cases hl
      exact h pre e l rfl

/-- Some collected definition of the first name mentions the second. -/
def Step (merged : List (String × Definition)) (n m : String) : Prop :=
  ∃ d, Keyed.get? n merged = some d ∧ m ∈ d.mentions

namespace Sound

/-- A name that is new is put on the path. -/
theorem enter (h : o.Sound merged path) {name : String} (hfinal : name ∉ Keyed.keys o.final) :
    Sound merged (name :: path) { o with visited := name :: o.visited } := by
  refine ⟨fun n => ?_, fun n hn => ?_, h.nodup, h.subset, h.inOrder⟩
  · simp only [List.mem_cons, h.visited]
    grind
  · rcases List.mem_cons.1 hn with rfl | hn
    · exact hfinal
    · exact h.fresh n hn

/-- A name leaves the path for its place, once what its definition mentions is in place. -/
theorem place {name : String} {d : Definition} (h : o.Sound merged (name :: path))
    (hnew : name ∉ path) (hd : Keyed.get? name merged = some d)
    (hm : ∀ m ∈ d.mentions, m ∈ Keyed.keys o.final) :
    Sound merged path { o with final := o.final ++ [(name, d.relink o.final)] } := by
  have hname : name ∈ Keyed.keys merged := List.mem_map.2 ⟨_, Keyed.mem_of_get? hd, rfl⟩
  refine ⟨fun n => ?_, fun n hn => ?_, ?_, ?_, h.inOrder.append hd hm⟩ <;>
    simp only [Keyed.keys_snoc]
  · rw [h.visited, List.mem_cons, List.mem_append, List.mem_singleton]
    grind
  · rw [List.mem_append, List.mem_singleton, not_or]
    exact ⟨h.fresh n (List.mem_cons_of_mem _ hn), fun he => hnew (he ▸ hn)⟩
  · refine List.nodup_append.2 ⟨h.nodup, List.nodup_singleton _, fun a ha b hb hab => ?_⟩
    rw [List.mem_singleton] at hb
    exact h.fresh name List.mem_cons_self (hb ▸ hab ▸ ha)
  · exact List.append_subset.2 ⟨h.subset, by simpa using hname⟩

/-- Names that can be visited each can be visited one after the other. -/
theorem foldl {α : Type} (key : α → String) {visit : Ordered → α → Ordered} {es : List α}
    (hvisit : ∀ e ∈ es, ∀ o : Ordered, o.Sound merged path →
      (visit o e).Sound merged path ∧ key e ∈ Keyed.keys (visit o e).final ∧
        Keyed.keys o.final ⊆ Keyed.keys (visit o e).final)
    (h : o.Sound merged path) :
    (es.foldl visit o).Sound merged path ∧
      (∀ e ∈ es, key e ∈ Keyed.keys (es.foldl visit o).final) ∧
        Keyed.keys o.final ⊆ Keyed.keys (es.foldl visit o).final := by
  induction es generalizing o with
  | nil => exact ⟨h, by simp, fun _ hn => hn⟩
  | cons e rest ih =>
    obtain ⟨he, hrest⟩ := List.forall_mem_cons.1 hvisit
    obtain ⟨h₁, hm₁, hk₁⟩ := he o h
    obtain ⟨h₂, hm₂, hk₂⟩ := ih hrest h₁
    exact ⟨h₂, List.forall_mem_cons.2 ⟨hk₂ hm₁, hm₂⟩, fun n hn => hk₂ (hk₁ hn)⟩

/-- Visiting a name puts it in place and leaves the names of the path as they are. -/
theorem visit (hclosed : ∀ n m, Step merged n m → m ∈ Keyed.keys merged)
    (hacyclic : ∀ n, ¬ Relation.TransGen (Step merged) n n) :
    ∀ (bound : Nat) (name : String) {path : List String} {o : Ordered}, o.Sound merged path →
      path.Nodup → path ⊆ Keyed.keys merged → name ∈ Keyed.keys merged →
      (∀ p ∈ path, Relation.TransGen (Step merged) p name) →
      merged.length < bound + path.length →
      (Ordered.visit merged bound name o).Sound merged path ∧
        name ∈ Keyed.keys (Ordered.visit merged bound name o).final ∧
        Keyed.keys o.final ⊆ Keyed.keys (Ordered.visit merged bound name o).final
  | 0, name, path, o, _, hnodup, hsub, _, _, hbound => by
    have := (List.subperm_of_subset hnodup hsub).length_le
    simp only [Keyed.keys, List.length_map] at this
    omega
  | bound + 1, name, path, o, h, hnodup, hsub, hname, hpath, hbound => by
    have hnew : name ∉ path := fun hp => hacyclic _ (hpath _ hp)
    rw [Ordered.visit]
    split
    · next hv =>
      have hv := (h.visited name).1 (List.contains_iff_mem.1 hv)
      exact ⟨h, hv.resolve_right hnew, fun _ hn => hn⟩
    · next hv =>
      have hfinal : name ∉ Keyed.keys o.final := fun hn =>
        hv (List.contains_iff_mem.2 ((h.visited name).2 (.inl hn)))
      cases hd : Keyed.get? name merged with
      | none => exact absurd hname (Keyed.get?_eq_none_iff.1 hd)
      | some d =>
        -- the mentions are visited with `name` on the path
        have hmention : ∀ m ∈ d.mentions, ∀ o₁ : Ordered, o₁.Sound merged (name :: path) →
            (Ordered.visit merged bound m o₁).Sound merged (name :: path) ∧
              m ∈ Keyed.keys (Ordered.visit merged bound m o₁).final ∧
              Keyed.keys o₁.final ⊆ Keyed.keys (Ordered.visit merged bound m o₁).final := by
          intro m hm o₁ h₁
          have hstep : Step merged name m := ⟨d, hd, hm⟩
          refine visit hclosed hacyclic bound m h₁ (List.nodup_cons.2 ⟨hnew, hnodup⟩)
            (List.cons_subset.2 ⟨hname, hsub⟩) (hclosed _ _ hstep) (fun p hp => ?_)
            (by simp only [List.length_cons]; omega)
          rcases List.mem_cons.1 hp with rfl | hp
          · exact .single hstep
          · exact (hpath p hp).tail hstep
        obtain ⟨h₂, hm₂, hk₂⟩ := Sound.foldl id hmention (h.enter hfinal)
        refine ⟨h₂.place hnew hd hm₂, ?_, ?_⟩ <;> simp only [Keyed.keys_snoc]
        · exact List.mem_append_right _ (List.mem_singleton_self _)
        · exact fun n hn => List.mem_append_left _ (hk₂ hn)

end Sound

/-- All collected definitions are put in order. -/
theorem sound_ofMerged (hclosed : ∀ n m, Step merged n m → m ∈ Keyed.keys merged)
    (hacyclic : ∀ n, ¬ Relation.TransGen (Step merged) n n) :
    ∃ final, ofMerged merged = final.map (·.2) ∧ (Keyed.keys final).Nodup ∧
      (∀ n, n ∈ Keyed.keys final ↔ n ∈ Keyed.keys merged) ∧ InOrder merged final := by
  have hstart : Sound merged [] ⟨[], []⟩ := by
    refine ⟨by simp [Keyed.keys], by simp, by simp [Keyed.keys], by simp [Keyed.keys], ?_⟩
    intro pre e post he
    simp at he
  have hentry : ∀ e ∈ merged, ∀ o : Ordered, o.Sound merged [] →
      (Ordered.visit merged (merged.length + 1) e.1 o).Sound merged [] ∧
        e.1 ∈ Keyed.keys (Ordered.visit merged (merged.length + 1) e.1 o).final ∧
        Keyed.keys o.final ⊆ Keyed.keys (Ordered.visit merged (merged.length + 1) e.1 o).final :=
    fun e he o h => h.visit hclosed hacyclic (merged.length + 1) e.1 List.nodup_nil
      (List.nil_subset _) (List.mem_map.2 ⟨e, he, rfl⟩) (by simp) (by simp)
  obtain ⟨h, hall, -⟩ := Sound.foldl Prod.fst hentry hstart
  refine ⟨_, rfl, h.nodup, fun n => ⟨fun hn => h.subset hn, fun hn => ?_⟩, h.inOrder⟩
  obtain ⟨e, he, rfl⟩ := List.mem_map.1 hn
  exact hall e he

end Ordered

/-! ## The definitions of a scene -/

namespace Collection.Sound

variable {s : Scene} {c : Collection}

/-- What a collected definition mentions is collected. -/
theorem mem_of_step (h : c.Sound s) {n m : String} (hs : Ordered.Step c.merged n m) :
    m ∈ Keyed.keys c.merged := by
  obtain ⟨d, hd, hm⟩ := hs
  obtain ⟨x, hx, rfl⟩ := Definition.exists_of_mem_mentions hm
  exact ((h.closed _ (Keyed.mem_of_get? hd)).inside x hx).self.name_mem

/-- Mentions among collected definitions are mentions among reachable ones. -/
theorem mentions_of_step (h : c.Sound s) {n m : String} (hs : Ordered.Step c.merged n m) :
    s.Mentions n m := by
  obtain ⟨d, hd, hm⟩ := hs
  obtain ⟨x, hx, rfl⟩ := Definition.exists_of_mem_mentions hm
  exact h.mentions _ (Keyed.mem_of_get? hd) x hx

end Collection.Sound

namespace Scene

/-- Definitions hold all that is reached when they hold those of what is used, and with each what it
mentions. -/
theorem Reaches.mem_of_closed {s : Scene} {l : List Definition}
    (hused : ∀ a ∈ s.root.uses .scene, ∀ p ∈ a.parts, p.definition ∈ l)
    (hmentioned : ∀ d ∈ l, ∀ x ∈ d.mentioned, x ∈ l) {d : Definition} (h : s.Reaches d) :
    d ∈ l := by
  induction h with
  | used h hp => exact hused _ (mem_uses_iff.2 h) _ hp
  | mentioned _ hx ih => exact hmentioned _ ih _ hx

/-- A scene is acyclic when what is mentioned has a smaller rank, among definitions that hold all
that is reached. -/
theorem acyclic_of_rank {s : Scene} {l : List Definition} (rank : String → Nat)
    (hused : ∀ a ∈ s.root.uses .scene, ∀ p ∈ a.parts, p.definition ∈ l)
    (hmentioned : ∀ d ∈ l, ∀ x ∈ d.mentioned, x ∈ l ∧ rank x.name < rank d.name) : s.Acyclic := by
  have hmem : ∀ d, s.Reaches d → d ∈ l := fun d hd =>
    hd.mem_of_closed hused fun d hd x hx => (hmentioned d hd x hx).1
  have hlt : ∀ {n m}, Relation.TransGen s.Mentions n m → rank m < rank n := by
    intro n m h
    induction h with
    | single h =>
      obtain ⟨d, hd, rfl, x, hx, rfl⟩ := h
      exact (hmentioned d (hmem d hd) x hx).2
    | tail _ h ih =>
      obtain ⟨d, hd, rfl, x, hx, rfl⟩ := h
      exact Nat.lt_trans (hmentioned d (hmem d hd) x hx).2 ih
  exact fun n h => Nat.lt_irrefl _ (hlt h)

/-- All that the scene reaches has been collected and put in order. -/
structure Collected (s : Scene) (c : Collection) (final : List (String × Definition)) : Prop where
  sound : c.Sound s
  has : ∀ a, s.Uses a → ∀ p ∈ a.parts, c.Has p.definition
  knows : ∀ d, s.Reaches d → c.Knows d
  nodup : (Keyed.keys final).Nodup
  keys : ∀ n, n ∈ Keyed.keys final ↔ n ∈ Keyed.keys c.merged
  inOrder : Ordered.InOrder c.merged final

/-- Once a scene has been collected without a conflict, its definitions can be put in order. -/
theorem collected_of_collectAll {s : Scene} (hs : s.Distinct) (ha : s.Acyclic) {c : Collection}
    (h : Annotation.collectAll (s.root.uses .scene) .empty = .ok c) :
    ∃ final, s.definitions = .ok (final.map (·.2)) ∧ s.Collected c final := by
  obtain ⟨hsound, hhas, hknows⟩ := sound_of_collectAll hs ha h
  obtain ⟨final, hfinal, hnodup, hkeys, horder⟩ := Ordered.sound_ofMerged
    (fun _ _ => hsound.mem_of_step)
    (fun n hn => ha n (Relation.TransGen.mono (fun _ _ hm => hsound.mentions_of_step hm) n n hn))
  exact ⟨final, by rw [definitions, h, ← hfinal], hsound, hhas, hknows, hnodup, hkeys, horder⟩

/-- Where a scene has definitions, they come from a collection that was put in order. -/
theorem exists_collected {s : Scene} (hs : s.Distinct) (ha : s.Acyclic) {ds : List Definition}
    (h : s.definitions = .ok ds) : ∃ c final, ds = final.map (·.2) ∧ s.Collected c final := by
  cases hc : Annotation.collectAll (s.root.uses .scene) .empty with
  | error e => simp [definitions, hc] at h
  | ok c =>
    obtain ⟨final, hfinal, hcollected⟩ := collected_of_collectAll hs ha hc
    exact ⟨c, final, Except.ok.inj (h.symm.trans hfinal), hcollected⟩

namespace Collected

variable {s : Scene} {c : Collection} {final : List (String × Definition)}

/-- The names in the list are those of the reachable definitions. -/
theorem mem_keys_iff (h : s.Collected c final) (n : String) :
    n ∈ Keyed.keys final ↔ ∃ d, s.Reaches d ∧ d.name = n :=
  (h.keys n).trans (h.sound.mem_keys_iff h.knows n)

/-- An entry of the list has the name under which it stands. -/
theorem named (h : s.Collected c final) : ∀ e ∈ final, e.2.name = e.1 := by
  intro e he
  obtain ⟨pre, post, rfl⟩ := List.append_of_mem he
  obtain ⟨d, hd, hrelink, -⟩ := h.inOrder pre e post rfl
  rw [hrelink]
  exact h.sound.named _ (Keyed.mem_of_get? hd)

end Collected

/-- **The definitions of a scene.** When mentions are acyclic and the definitions can be collected,
then the list has each reachable name once and no other, everything that a definition mentions
comes before it, and the definitions in its fields are themselves in the list. -/
theorem definitions_ordered (s : Scene) (hs : s.Distinct) (ha : s.Acyclic) (ds : List Definition)
    (h : s.definitions = .ok ds) :
    (ds.map (·.name)).Nodup ∧
    (∀ n, n ∈ ds.map (·.name) ↔ ∃ d, s.Reaches d ∧ d.name = n) ∧
    (∀ pre d post, ds = pre ++ d :: post → ∀ n ∈ d.mentions, n ∈ pre.map (·.name)) ∧
    ∀ d ∈ ds, ∀ f ∈ d.fields, ∀ x, f.2.annotationType? = some x → x ∈ ds := by
  obtain ⟨c, final, rfl, hc⟩ := exists_collected hs ha h
  have hnamed := hc.named
  have hmap : (final.map (·.2)).map (·.name) = Keyed.keys final := by
    rw [List.map_map, Keyed.keys]
    exact List.map_congr_left hnamed
  refine ⟨hmap ▸ hc.nodup, fun n => ?_, fun pre d post he n hn => ?_, fun d hd f hf x hx => ?_⟩
  · rw [hmap, hc.mem_keys_iff]
  · obtain ⟨pre, rest, rfl, rfl, hrest⟩ := List.map_eq_append_iff.1 he
    obtain ⟨e, post, rfl, rfl, rfl⟩ := List.map_eq_cons_iff.1 hrest
    obtain ⟨d, hd, hrelink, hm⟩ := hc.inOrder pre e post rfl
    have hpre : ∀ e ∈ pre, e.2.name = e.1 := fun e he => hnamed e (List.mem_append_left _ he)
    rw [hrelink, Definition.mentions_relink hpre] at hn
    rw [List.map_map, show ((·.name) ∘ (·.2) : String × Definition → String) =
      fun e => e.2.name from rfl, List.map_congr_left hpre]
    exact hm n hn
  · obtain ⟨e, he, rfl⟩ := List.mem_map.1 hd
    obtain ⟨pre, post, rfl⟩ := List.append_of_mem he
    obtain ⟨d, hd, hrelink, hm⟩ := hc.inOrder pre e post rfl
    rw [hrelink] at hf
    obtain ⟨g, hg, rfl⟩ := List.mem_map.1 hf
    rw [FieldType.annotationType?_relink] at hx
    obtain ⟨y, hy, rfl⟩ := Option.map_eq_some_iff.1 hx
    have hmem := hm _ (Definition.mem_mentions_of_field hg hy)
    obtain ⟨z, hz⟩ := Option.isSome_iff_exists.1 (Keyed.get?_isSome_iff.2 hmem)
    rw [hz, Option.getD_some]
    exact List.mem_map.2 ⟨_, List.mem_append_left _ (Keyed.mem_of_get? hz), rfl⟩

/-- An annotation type whose only field holds annotations of another type, which is itself used with
more known about its field. -/
def nestedUses : Scene :=
  let part : Definition := ⟨"p.Part", none, [("xs", .unknownArray)], []⟩
  let whole : Definition := ⟨"p.Whole", some .runtime, [("parts", .array (.nested part))], []⟩
  let part' : Definition := ⟨"p.Part", some .source, [("xs", .array (.basic .char))], []⟩
  ⟨⟨[], none, [(.typeDecl "C", ⟨[⟨whole, []⟩], none, []⟩),
      (.typeDecl "D", ⟨[⟨part', []⟩], none, []⟩)]⟩, []⟩

/-- The definition of the inner type comes first, and the outer one holds what is known of it at the
end. -/
theorem definitions_ordered_nestedUses :
    let part : Definition := ⟨"p.Part", some .source, [("xs", .array (.basic .char))], []⟩
    let whole : Definition := ⟨"p.Whole", some .runtime, [("parts", .array (.nested part))], []⟩
    nestedUses.Distinct ∧ nestedUses.Acyclic ∧ nestedUses.definitions = .ok [part, whole] ∧
      ((([part, whole].map (·.name)).Nodup ∧
        (∀ n, n ∈ [part, whole].map (·.name) ↔ ∃ d, nestedUses.Reaches d ∧ d.name = n) ∧
        (∀ pre d post, [part, whole] = pre ++ d :: post → ∀ n ∈ d.mentions, n ∈ pre.map (·.name)) ∧
        ∀ d ∈ [part, whole], ∀ f ∈ d.fields, ∀ x, f.2.annotationType? = some x →
          x ∈ [part, whole])) := by
  intro part whole
  let part₀ : Definition := ⟨"p.Part", none, [("xs", .unknownArray)], []⟩
  let whole₀ : Definition := ⟨"p.Whole", some .runtime, [("parts", .array (.nested part₀))], []⟩
  have huses : nestedUses.root.uses .scene = [⟨whole₀, []⟩, ⟨part, []⟩] := rfl
  have hdistinct : nestedUses.Distinct := by
    intro a ha
    rw [← mem_uses_iff, huses] at ha
    simp only [List.mem_cons, List.not_mem_nil, or_false] at ha
    rcases ha with rfl | rfl <;>
      simp [Definition.Distinct, Annotation.Distinct, FieldType.AllDistinct, FieldType.Distinct,
        Annotation.AllDistinct, Value.NamedDistinct, Keyed.keys, part, part₀, whole₀]
  have hacyclic : nestedUses.Acyclic := by
    refine acyclic_of_rank (l := [whole₀, part, part₀]) String.length ?_ ?_
    · rw [huses]
      simp [Value.partsNamed, Annotation.parts]
    · simp [Definition.mentioned, FieldType.annotationType?, part, part₀, whole₀]
      decide
  have hok : nestedUses.definitions = .ok [part, whole] := by rfl
  exact ⟨hdistinct, hacyclic, hok, definitions_ordered nestedUses hdistinct hacyclic _ hok⟩

end Scene

end AnnotationIndex
