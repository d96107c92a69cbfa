import AnnotationIndex.Proofs.Definition.Mention

/-!
# What unification mentions

A definition that two definitions have together has the fields of both, each with the type that the
two fields have together (`Definition.field_of_unify`). So it mentions what one of the two mentions,
or what a pair of mentioned definitions has together (`Definition.mem_mentioned_unify`). By
induction, what holds of everything in the two holds of everything in it (`Definition.All.unify`),
nothing occurs twice in it (`Definition.Distinct.unify`), and a definition that unifies with itself
unifies to itself (`Definition.eq_of_unify_self`).
-/

namespace AnnotationIndex

namespace FieldType

/-- A unified type holds what the definitions of the two types have together, or else the definition
that only one of them holds. -/
theorem annotationType?_eq_of_unify : ∀ {x y z : FieldType}, x.unify y = some z →
    (∀ a b, x.annotationType? = some a → y.annotationType? = some b →
      a.unify b = z.annotationType?) ∧
    (x.annotationType? = none → z.annotationType? = y.annotationType?) ∧
    (y.annotationType? = none → z.annotationType? = x.annotationType?)
  | .nested d, y, z, h => by
    cases y <;> simp only [FieldType.unify, reduceCtorEq] at h
    obtain ⟨e, he, rfl⟩ := Option.map_eq_some_iff.1 h
    simp [annotationType?, he]
  | .array x, y, z, h => by
    cases y <;> simp only [FieldType.unify, reduceCtorEq] at h
    · next y =>
      obtain ⟨e, he, rfl⟩ := Option.map_eq_some_iff.1 h
      exact annotationType?_eq_of_unify (x := x) (y := y) (z := e) he
    · cases h
      simp [annotationType?]
  | .unknownArray, y, z, h => by
    cases y <;> simp only [FieldType.unify, reduceCtorEq] at h
    all_goals
      cases h
      simp [annotationType?]
  | .basic _, y, z, h => by
    cases y <;> simp only [FieldType.unify, reduceCtorEq, Option.ite_none_right_eq_some] at h
    cases h.2
    simp [annotationType?]
  | .classToken, y, z, h => by
    cases y <;> simp only [FieldType.unify, reduceCtorEq] at h
    cases h
    simp [annotationType?]
  | .enum _, y, z, h => by
    cases y <;> simp only [FieldType.unify, reduceCtorEq, Option.ite_none_right_eq_some] at h
    cases h.2
    simp [annotationType?]

/-- A unified type holds a definition that one of the types holds, or one that both
have together. -/
theorem annotationType?_unify {x y z : FieldType} {d : Definition} (h : x.unify y = some z)
    (hd : z.annotationType? = some d) :
    x.annotationType? = some d ∨ y.annotationType? = some d ∨
      ∃ a b, x.annotationType? = some a ∧ y.annotationType? = some b ∧ a.unify b = some d := by
  obtain ⟨hboth, hright, hleft⟩ := annotationType?_eq_of_unify h
  cases ha : x.annotationType? with
  | none => exact .inr (.inl ((hright ha).symm.trans hd))
  | some a =>
    cases hb : y.annotationType? with
    | none => exact .inl (ha.symm.trans ((hleft hb).symm.trans hd))
    | some b => exact .inr (.inr ⟨a, b, rfl, rfl, (hboth a b ha hb).trans hd⟩)

/-- Unified fields are the first ones, each with the type that it has together with the field of its
name among the second. -/
theorem unifyFields_cons_eq_some {name : String} {type : FieldType}
    {rest ys zs : List (String × FieldType)} :
    unifyFields ((name, type) :: rest) ys = some zs ↔
      ∃ other type' zs', Keyed.get? name ys = some other ∧ type.unify other = some type' ∧
        unifyFields rest ys = some zs' ∧ zs = (name, type') :: zs' := by
  rw [unifyFields]
  cases hg : Keyed.get? name ys with
  | none => simp
  | some other =>
    cases hu : type.unify other with
    | none => simp [hu]
    | some type' =>
      cases unifyFields rest ys with
      | none => simp [hu]
      | some zs' => simp [hu, eq_comm]

/-- Unified fields have the names of the first fields, in their order. -/
theorem keys_unifyFields {xs ys zs : List (String × FieldType)}
    (h : unifyFields xs ys = some zs) : Keyed.keys zs = Keyed.keys xs := by
  induction xs generalizing zs with
  | nil =>
    cases h
    rfl
  | cons x rest ih =>
    obtain ⟨other, type', zs', -, -, hz, rfl⟩ := unifyFields_cons_eq_some.1 h
    simpa [Keyed.keys] using ih hz

/-- A unified field comes from a field of each side. -/
theorem mem_unifyFields {xs ys zs : List (String × FieldType)} (h : unifyFields xs ys = some zs) :
    ∀ f ∈ zs, ∃ x, (f.1, x) ∈ xs ∧ ∃ y, Keyed.get? f.1 ys = some y ∧ x.unify y = some f.2 := by
  induction xs generalizing zs with
  | nil =>
    cases h
    simp
  | cons x rest ih =>
    obtain ⟨other, type', zs', hg, hu, hz, rfl⟩ := unifyFields_cons_eq_some.1 h
    rw [List.forall_mem_cons]
    refine ⟨⟨_, List.mem_cons_self, other, hg, hu⟩, fun f hf => ?_⟩
    obtain ⟨x', hx', y, hy, hu'⟩ := ih hz f hf
    exact ⟨x', List.mem_cons_of_mem _ hx', y, hy, hu'⟩

/-- A unified field has the type that the two fields of its name have together. -/
theorem get?_unifyFields {xs ys zs : List (String × FieldType)} (h : unifyFields xs ys = some zs)
    (name : String) : Keyed.get? name zs =
      (Keyed.get? name xs).bind fun x => (Keyed.get? name ys).bind x.unify := by
  induction xs generalizing zs with
  | nil =>
    cases h
    rfl
  | cons x rest ih =>
    obtain ⟨other, type', zs', hg, hu, hz, rfl⟩ := unifyFields_cons_eq_some.1 h
    rw [Keyed.get?, Keyed.get?]
    split
    · next hn =>
      rw [← hn, Option.bind_some, hg, Option.bind_some, hu]
    · exact ih hz

/-- Fields unify with others when each of them unifies with the other one of its name. -/
theorem isSome_unifyFields_iff {xs ys : List (String × FieldType)} :
    (unifyFields xs ys).isSome = true ↔
      ∀ f ∈ xs, ∃ type, Keyed.get? f.1 ys = some type ∧ (f.2.unify type).isSome = true := by
  induction xs with
  | nil => simp [FieldType.unifyFields]
  | cons f rest ih =>
    obtain ⟨name, type⟩ := f
    rw [List.forall_mem_cons, ← ih, FieldType.unifyFields]
    cases Keyed.get? name ys with
    | none => simp
    | some other => cases h : type.unify other <;> simp [h]

end FieldType

namespace Definition

/-- Two definitions have a definition together when they agree in name and annotations, have as many
fields and unify in each, and their retention policies unify. -/
theorem unify_eq_some_iff {x y z : Definition} :
    x.unify y = some z ↔
      x.name = y.name ∧ AnnotationSet.beq x.metas y.metas = true ∧
        x.fields.length = y.fields.length ∧
        Retention.unify x.retention y.retention = some z.retention ∧
        FieldType.unifyFields x.fields y.fields = some z.fields ∧
        z.name = x.name ∧ z.metas = x.metas := by
  obtain ⟨name, retention, fields, metas⟩ := x
  obtain ⟨name', retention', fields', metas'⟩ := z
  rw [Definition.unify]
  by_cases h1 : name ≠ y.name ∨ AnnotationSet.beq metas y.metas = false
  · rw [if_pos h1]
    grind
  · rw [if_neg h1]
    simp only [not_or, ne_eq, not_not, Bool.not_eq_false] at h1
    by_cases h2 : fields.length = y.fields.length
    · rw [if_neg (not_not.2 h2)]
      cases Retention.unify retention y.retention with
      | none => simp
      | some r => cases FieldType.unifyFields fields y.fields <;> grind
    · rw [if_pos h2]
      grind

/-- A field of the first definition is one of the second and of what both have together. -/
theorem field_of_unify_left {x y z : Definition} (h : x.unify y = some z) {field : String}
    {a : FieldType} (ha : Keyed.get? field x.fields = some a) :
    ∃ b c, Keyed.get? field y.fields = some b ∧ Keyed.get? field z.fields = some c ∧
      a.unify b = some c := by
  obtain ⟨-, -, -, -, hf, -⟩ := unify_eq_some_iff.1 h
  obtain ⟨b, hb, hab⟩ := FieldType.isSome_unifyFields_iff.1 (by rw [hf]; rfl) _
    (Keyed.mem_of_get? ha)
  obtain ⟨c, hc⟩ := Option.isSome_iff_exists.1 hab
  refine ⟨b, c, hb, ?_, hc⟩
  rw [FieldType.get?_unifyFields hf, ha, hb]
  exact hc

/-- The second definition has no field that the first has not, because they have as many. -/
theorem field_of_unify_right {x y z : Definition} (h : x.unify y = some z)
    (hn : (Keyed.keys x.fields).Nodup) {field : String} {b : FieldType}
    (hb : Keyed.get? field y.fields = some b) :
    ∃ a c, Keyed.get? field x.fields = some a ∧ Keyed.get? field z.fields = some c ∧
      a.unify b = some c := by
  obtain ⟨-, -, hlength, -, hf, -⟩ := unify_eq_some_iff.1 h
  obtain ⟨a, ha, -⟩ := Keyed.exists_partner (r := fun a b => (a.unify b).isSome = true) hn hlength
    (FieldType.isSome_unifyFields_iff.1 (by rw [hf]; rfl)) _ (Keyed.mem_of_get? hb)
  obtain ⟨_, c, hb', hc, hu⟩ := field_of_unify_left h ha
  cases hb.symm.trans hb'
  exact ⟨a, c, ha, hc, hu⟩

/-- A field of what two definitions have together is one of both. -/
theorem field_of_unify {x y z : Definition} (h : x.unify y = some z) {field : String}
    {c : FieldType} (hc : Keyed.get? field z.fields = some c) :
    ∃ a b, Keyed.get? field x.fields = some a ∧ Keyed.get? field y.fields = some b ∧
      a.unify b = some c := by
  obtain ⟨-, -, -, -, hf, -⟩ := unify_eq_some_iff.1 h
  rw [FieldType.get?_unifyFields hf, Option.bind_eq_some_iff] at hc
  obtain ⟨a, ha, hc⟩ := hc
  obtain ⟨b, hb, hu⟩ := Option.bind_eq_some_iff.1 hc
  exact ⟨a, b, ha, hb, hu⟩

/-- What a unified definition mentions, one of the two mentions, or else two mentioned ones have it
together. -/
theorem mem_mentioned_unify {x y z d : Definition} (h : x.unify y = some z)
    (hd : d ∈ z.mentioned) :
    d ∈ x.mentioned ∨ d ∈ y.mentioned ∨
      ∃ a ∈ x.mentioned, ∃ b ∈ y.mentioned, a.unify b = some d := by
  obtain ⟨-, -, -, -, hf, -, hm⟩ := unify_eq_some_iff.1 h
  rcases mem_mentioned_iff.1 hd with ⟨f, hfz, hd⟩ | ⟨a, ha, hp⟩
  · obtain ⟨_, hx, _, hy, hu⟩ := FieldType.mem_unifyFields hf f hfz
    have hy := Keyed.mem_of_get? hy
    rcases FieldType.annotationType?_unify hu hd with h1 | h2 | ⟨a, b, ha, hb, hab⟩
    · exact .inl (mem_mentioned_iff.2 (.inl ⟨_, hx, h1⟩))
    · exact .inr (.inl (mem_mentioned_iff.2 (.inl ⟨_, hy, h2⟩)))
    · exact .inr (.inr ⟨a, mem_mentioned_iff.2 (.inl ⟨_, hx, ha⟩), b,
        mem_mentioned_iff.2 (.inl ⟨_, hy, hb⟩), hab⟩)
  · exact .inl (mem_mentioned_iff.2 (.inr ⟨a, hm ▸ ha, hp⟩))

/-- A unified definition has the name of the first. -/
theorem name_unify {x y z : Definition} (h : x.unify y = some z) : z.name = x.name :=
  (unify_eq_some_iff.1 h).2.2.2.2.2.1

/-- A unified definition has the annotations of the first. -/
theorem metas_unify {x y z : Definition} (h : x.unify y = some z) : z.metas = x.metas :=
  (unify_eq_some_iff.1 h).2.2.2.2.2.2

/-- The names that a unified definition mentions are mentioned by one of the two. -/
theorem exists_name_of_mem_mentioned_unify {x y z d : Definition} (h : x.unify y = some z)
    (hd : d ∈ z.mentioned) :
    (∃ a ∈ x.mentioned, a.name = d.name) ∨ ∃ b ∈ y.mentioned, b.name = d.name := by
  rcases mem_mentioned_unify h hd with h1 | h2 | ⟨a, ha, b, -, hab⟩
  · exact .inl ⟨d, h1, rfl⟩
  · exact .inr ⟨d, h2, rfl⟩
  · exact .inl ⟨a, ha, (name_unify hab).symm⟩

/-- What holds of everything in two definitions, and of what unifies from two such definitions,
holds of everything in what unifies from them. -/
theorem All.unify {P : Definition → Prop}
    (hP : ∀ x y z : Definition, x.unify y = some z → P x → P y → P z) (x : Definition) :
    ∀ {y z : Definition}, x.unify y = some z → x.All P → y.All P → z.All P := by
  induction x using Definition.induct with
  | h x ih =>
    intro y z h hx hy
    refine .mk (hP x y z h hx.self hy.self) fun d hd => ?_
    rcases mem_mentioned_unify h hd with h1 | h2 | ⟨a, ha, b, hb, hab⟩
    · exact hx.inside d h1
    · exact hy.inside d h2
    · exact ih a ha hab (hx.inside a ha) (hy.inside b hb)

end Definition

/-! ## Nothing occurs twice in what is unified -/

/-- Nothing occurs twice in a type when nothing does in the definition that it holds. -/
theorem FieldType.distinct_iff : ∀ {type : FieldType},
    type.Distinct ↔ ∀ d, type.annotationType? = some d → d.Distinct
  | .nested d => by simp [FieldType.Distinct, FieldType.annotationType?]
  | .array element => by
    rw [FieldType.Distinct, FieldType.annotationType?]
    exact FieldType.distinct_iff
  | .basic _ | .classToken | .enum _ | .unknownArray => by
    simp [FieldType.Distinct, FieldType.annotationType?]

namespace Definition

/-- Nothing occurs twice in a definition when nothing does in its fields and in its annotations. -/
theorem distinct_iff {d : Definition} :
    d.Distinct ↔ (Keyed.keys d.fields).Nodup ∧ FieldType.AllDistinct d.fields ∧
      (d.metas.Pairwise fun a b => a.beq b = false) ∧ Annotation.AllDistinct d.metas := by
  cases d
  exact Iff.rfl

/-- Nothing occurs twice in what a field holds of a definition in which nothing does. -/
theorem Distinct.of_field {d x : Definition} {f : String × FieldType} (h : d.Distinct)
    (hf : f ∈ d.fields) (hx : f.2.annotationType? = some x) : x.Distinct :=
  FieldType.distinct_iff.1 (FieldType.allDistinct_iff.1 (distinct_iff.1 h).2.1 f hf) x hx

/-- Nothing occurs twice in a unified definition. -/
theorem Distinct.unify (x : Definition) :
    ∀ {y z : Definition}, x.unify y = some z → x.Distinct → y.Distinct → z.Distinct := by
  induction x using Definition.induct with
  | h x ih =>
    intro y z h hx hy
    obtain ⟨-, -, -, -, hf, -, hm⟩ := unify_eq_some_iff.1 h
    obtain ⟨hkeys, -, hpair, hmetas⟩ := distinct_iff.1 hx
    refine distinct_iff.2 ⟨?_, ?_, hm ▸ hpair, hm ▸ hmetas⟩
    · rwa [FieldType.keys_unifyFields hf]
    · refine FieldType.allDistinct_iff.2 fun f hfz => FieldType.distinct_iff.2 fun d hd => ?_
      obtain ⟨_, hf1, _, hf2, hu⟩ := FieldType.mem_unifyFields hf f hfz
      have hf2 := Keyed.mem_of_get? hf2
      rcases FieldType.annotationType?_unify hu hd with h1 | h2 | ⟨a, b, ha, hb, hab⟩
      · exact hx.of_field hf1 h1
      · exact hy.of_field hf2 h2
      · exact ih a (mem_mentioned_iff.2 (.inl ⟨_, hf1, ha⟩)) hab (hx.of_field hf1 ha)
          (hy.of_field hf2 hb)

end Definition

/-! ## What unifies with itself -/

/-- A policy unifies with itself to itself. -/
theorem Retention.unify_self (r : Option Retention) : Retention.unify r r = some r := by
  cases r <;> simp [unify]

/-- A type that unifies with itself stays as it is when the definition that it holds does. -/
theorem FieldType.eq_of_unify_self : ∀ {type z : FieldType},
    (∀ d e, type.annotationType? = some d → d.unify d = some e → e = d) →
      type.unify type = some z → z = type
  | .nested d, z, hd, h => by
    rw [FieldType.unify] at h
    obtain ⟨e, he, rfl⟩ := Option.map_eq_some_iff.1 h
    rw [hd d e rfl he]
  | .array element, z, hd, h => by
    rw [FieldType.unify] at h
    obtain ⟨e, he, rfl⟩ := Option.map_eq_some_iff.1 h
    rw [show e = element from FieldType.eq_of_unify_self hd he]
  | .basic _, z, _, h | .classToken, z, _, h | .enum _, z, _, h | .unknownArray, z, _, h => by
    simp only [FieldType.unify, if_true, Option.some.injEq] at h
    exact h.symm

/-- Fields that unify with others to themselves are what all of them unify to. -/
theorem FieldType.eq_of_unifyFields {xs ys zs : List (String × FieldType)}
    (hx : ∀ f ∈ xs, ∀ y type, Keyed.get? f.1 ys = some y → f.2.unify y = some type → type = f.2)
    (h : unifyFields xs ys = some zs) : zs = xs := by
  induction xs generalizing zs with
  | nil =>
    cases h
    rfl
  | cons x rest ih =>
    obtain ⟨hfirst, hrest⟩ := List.forall_mem_cons.1 hx
    obtain ⟨other, type, zs', hg, hu, hz, rfl⟩ := unifyFields_cons_eq_some.1 h
    rw [hfirst other type hg hu, ih hrest hz]

/-- What a definition unifies to with itself, if it does, is the definition. -/
theorem Definition.eq_of_unify_self {d : Definition} :
    ∀ {z : Definition}, d.Distinct → d.unify d = some z → z = d := by
  induction d using Definition.induct with
  | h d ih =>
    intro z hd h
    obtain ⟨-, -, -, hretention, hfields, hname, hmetas⟩ := unify_eq_some_iff.1 h
    have hfields : z.fields = d.fields := by
      refine FieldType.eq_of_unifyFields (fun f hf y type hy hu => ?_) hfields
      cases (Keyed.get?_of_mem (distinct_iff.1 hd).1 hf).symm.trans hy
      refine FieldType.eq_of_unify_self (fun x e hx he => ?_) hu
      exact ih x (mem_mentioned_iff.2 (.inl ⟨f, hf, hx⟩)) (hd.of_field hf hx) he
    rw [Retention.unify_self, Option.some.injEq] at hretention
    obtain ⟨_, _, _, _⟩ := d
    obtain ⟨_, _, _, _⟩ := z
    cases hname
    cases hmetas
    cases hretention
    cases hfields
    rfl

end AnnotationIndex
