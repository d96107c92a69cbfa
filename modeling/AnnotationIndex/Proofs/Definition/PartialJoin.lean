import AnnotationIndex.Proofs.Definition.Below
import AnnotationIndex.Proofs.Definition.Conflict

/-!
# Unification is a partial join

What two definitions have together is the least that both are below (`Definition.below_unify`,
`Definition.unify_below`), and it exists as soon as both are below anything
(`Definition.exists_unify_of_below`). From that alone follow the laws of a partial join
(`LeastJoin.joinLaws`): neither the order nor the grouping matters, for whether there is a result
and for what it says (`unify_partialJoin`).

A definition unifies with itself to itself. To look first whether two types hold the very same
definition, and then to take it as it is, would therefore make no difference.
-/

namespace AnnotationIndex

/-! ## Unified definitions can be compared -/

namespace Definition

/-- There is no NaN in what is unified from definitions without NaN. -/
theorem NaNFree.unify (x : Definition) :
    ∀ {y z : Definition}, x.unify y = some z → x.NaNFree → y.NaNFree → z.NaNFree := by
  induction x using Definition.induct with
  | h x ih =>
    intro y z h hx hy
    refine .mk (metas_unify h ▸ hx.metas) fun d hd => ?_
    rcases mem_mentioned_unify h hd with h1 | h2 | ⟨a, ha, b, hb, hab⟩
    · exact hx.inside d h1
    · exact hy.inside d h2
    · exact ih a ha hab (hx.inside a ha) (hy.inside b hb)

/-- What two definitions that can be compared unify to can be compared. -/
theorem Comparable.unify {x y z : Definition} (hx : x.Comparable) (hy : y.Comparable)
    (h : x.unify y = some z) : z.Comparable :=
  ⟨.unify x h hx.distinct hy.distinct, .unify x h hx.naNFree hy.naNFree⟩

end Definition

/-- What two types that can be compared unify to can be compared. -/
theorem FieldType.Comparable.unify {x y z : FieldType} (hx : x.Comparable) (hy : y.Comparable)
    (h : x.unify y = some z) : z.Comparable := fun d hd => by
  rcases FieldType.annotationType?_unify h hd with h1 | h2 | ⟨a, b, ha, hb, hab⟩
  · exact hx d h1
  · exact hy d h2
  · exact (hx a ha).unify (hy b hb) hab

/-! ## What two definitions have together -/

/-- Two types are below what they have together, if the definitions that they hold are. -/
theorem FieldType.below_unify {x y z : FieldType} (h : x.unify y = some z) (hx : x.Comparable)
    (hy : y.Comparable) (hd : ∀ a b c, x.annotationType? = some a → y.annotationType? = some b →
      a.unify b = some c → a.Below c ∧ b.Below c) : x.Below z ∧ y.Below z := by
  obtain ⟨hxz, hyz, -⟩ := FieldType.Fits.of_unify h
  obtain ⟨hboth, hright, hleft⟩ := FieldType.annotationType?_eq_of_unify h
  refine ⟨⟨hxz, fun a c ha hc => ?_⟩, hyz, fun b c hb hc => ?_⟩
  · cases hb : y.annotationType? with
    | none =>
      cases ((hleft hb).symm.trans hc).symm.trans ha
      exact Definition.below_refl (hx a ha)
    | some b => exact (hd a b c ha hb ((hboth a b ha hb).trans hc)).1
  · cases ha : x.annotationType? with
    | none =>
      cases ((hright ha).symm.trans hc).symm.trans hb
      exact Definition.below_refl (hy b hb)
    | some a => exact (hd a b c ha hb ((hboth a b ha hb).trans hc)).2

/-- What two types have together is below whatever both are below, if that is so of the definitions
that they hold. -/
theorem FieldType.unify_below {x y z w : FieldType} (h : x.unify y = some z) (hx : x.Below w)
    (hy : y.Below w) (hd : ∀ a b c e, x.annotationType? = some a → y.annotationType? = some b →
      a.unify b = some c → a.Below e → b.Below e → c.Below e) : z.Below w := by
  obtain ⟨hboth, hright, hleft⟩ := FieldType.annotationType?_eq_of_unify h
  refine ⟨(FieldType.Fits.of_unify h).2.2 w hx.fits hy.fits, fun c e hc he => ?_⟩
  cases ha : x.annotationType? with
  | none => exact hy.inside c e ((hright ha).symm.trans hc) he
  | some a =>
    cases hb : y.annotationType? with
    | none => exact hx.inside c e ((hleft hb).symm.trans hc) he
    | some b =>
      exact hd a b c e ha hb ((hboth a b ha hb).trans hc) (hx.inside a e ha he)
        (hy.inside b e hb he)

/-- Types below a third one have a type together, if that is so of the definitions that
they hold. -/
theorem FieldType.exists_unify_of_below {x y w : FieldType} (hx : x.Below w) (hy : y.Below w)
    (hd : ∀ a b e, x.annotationType? = some a → y.annotationType? = some b → a.Below e →
      b.Below e → ∃ c, a.unify b = some c) : ∃ z, x.unify y = some z := by
  refine Option.isSome_iff_exists.1 (hx.fits.isSome_unify hy.fits fun a b ha hb _ => ?_)
  obtain ⟨e, he⟩ := hx.fits.exists_annotationType? ha
  exact Option.isSome_iff_exists.2
    (hd a b e ha hb (hx.inside a e ha he) (hy.inside b e hb he))

namespace Definition

variable {x y z : Definition}

/-- **Two definitions are below what they have together.** -/
theorem below_unify (x : Definition) : ∀ {y z : Definition}, x.unify y = some z →
    x.Comparable → y.Comparable → x.Below z ∧ y.Below z := by
  -- over what the first definition mentions, so that the types of its fields are settled
  induction x using Definition.induct with
  | h x ih =>
    intro y z h hx hy
    obtain ⟨hname, hmetas, hlength, -, -, hz, -⟩ := unify_eq_some_iff.1 h
    obtain ⟨hrx, hry⟩ := Retains.of_unify h
    have hlen : x.fields.length = z.fields.length := (Refines.unify_left h).length
    have htypes : ∀ field a b c, Keyed.get? field x.fields = some a →
        Keyed.get? field y.fields = some b → a.unify b = some c → a.Below c ∧ b.Below c :=
      fun field a b c ha hb hc =>
        FieldType.below_unify hc (hx.field ha) (hy.field hb) fun a' b' c' ha' hb' hc' =>
          ih a' (mem_mentioned_of_field ha ha') hc' (hx.field ha a' ha') (hy.field hb b' hb')
    refine ⟨below_iff.2 ⟨hz.symm, hrx, ?_, hlen, fun field a ha => ?_⟩,
      below_iff.2 ⟨hname.symm.trans hz.symm, hry, ?_, hlength.symm.trans hlen,
        fun field b hb => ?_⟩⟩
    · rw [metas_unify h]
      exact hx.metas_beq_self
    · obtain ⟨b, c, hb, hc, hu⟩ := field_of_unify_left h ha
      exact ⟨c, hc, (htypes field a b c ha hb hu).1⟩
    · rw [metas_unify h]
      exact hx.metas_symm hmetas
    · obtain ⟨a, c, ha, hc, hu⟩ := field_of_unify_right h hx.nodup hb
      exact ⟨c, hc, (htypes field a b c ha hb hu).2⟩

/-- A policy that a unified definition has is that of one of the two. -/
theorem retention_of_unify (h : x.unify y = some z) {r : Retention} (hr : z.retention = some r) :
    x.retention = some r ∨ y.retention = some r := by
  obtain ⟨-, -, -, h, -⟩ := unify_eq_some_iff.1 h
  rw [hr] at h
  cases hx : x.retention <;> cases hy : y.retention <;> simp_all [Retention.unify]

/-- **What two definitions have together is below whatever both are below.** -/
theorem unify_below (x : Definition) : ∀ {y z w : Definition}, x.unify y = some z →
    x.Below w → y.Below w → z.Below w := by
  induction x using Definition.induct with
  | h x ih =>
    intro y z w h hxw hyw
    obtain ⟨hname, hrx, hmetas, hlength, hfx⟩ := below_iff.1 hxw
    obtain ⟨-, hry, -⟩ := below_iff.1 hyw
    refine below_iff.2 ⟨(name_unify h).trans hname, fun r hr => ?_, metas_unify h ▸ hmetas,
      (Refines.unify_left h).length.symm.trans hlength, fun field c hc => ?_⟩
    · exact (retention_of_unify h hr).elim (hrx r) (hry r)
    · obtain ⟨a, b, ha, hb, hu⟩ := field_of_unify h hc
      obtain ⟨t, ht, haw⟩ := hfx field a ha
      obtain ⟨_, ht', hbw⟩ := hyw.fields hb
      cases ht.symm.trans ht'
      refine ⟨t, ht, FieldType.unify_below hu haw hbw fun a' b' c' e ha' _ hc' => ?_⟩
      exact ih a' (mem_mentioned_of_field ha ha') hc'

/-- **Definitions below a third one have a definition together.** -/
theorem exists_unify_of_below (x : Definition) : ∀ {y w : Definition}, x.Comparable → y.Comparable →
    x.Below w → y.Below w → ∃ z, x.unify y = some z := by
  induction x using Definition.induct with
  | h x ih =>
    intro y w hx hy hxw hyw
    obtain ⟨hname, hrx, hmetas, hlength, hfx⟩ := below_iff.1 hxw
    obtain ⟨hname', hry, hmetas', hlength', -⟩ := below_iff.1 hyw
    refine Option.isSome_iff_exists.1 (isSome_unify_iff.2 ⟨hname.trans hname'.symm,
      AnnotationSet.beq_trans hmetas (hy.metas_symm hmetas'), hlength.trans hlength'.symm, ?_,
      fun f hf => ?_⟩)
    · cases hr : x.retention <;> cases hr' : y.retention <;>
        simp only [Retention.unify, Option.isSome_some]
      have := (hrx _ hr).symm.trans (hry _ hr')
      simp_all
    · have ha := Keyed.get?_of_mem hx.nodup hf
      obtain ⟨t, ht, haw⟩ := hfx f.1 f.2 ha
      -- the other definition has the field as well, because it has as many as the third
      obtain ⟨b, hb, hbw⟩ := Keyed.exists_partner hy.nodup hlength'
        (fun g hg => hyw.fields (Keyed.get?_of_mem hy.nodup hg)) _ (Keyed.mem_of_get? ht)
      refine ⟨b, hb, Option.isSome_iff_exists.2 ?_⟩
      refine FieldType.exists_unify_of_below haw hbw fun a' b' e ha' hb' hae hbe => ?_
      exact ih a' (mem_mentioned_of_field ha ha') (hx.field ha a' ha')
        (hy.field hb b' hb') hae hbe

end Definition

/-! ## Partial joins -/

/-- The laws of a partial join of what can be joined; results are compared by `R`. -/
structure JoinLaws {α : Type} (C : α → Prop) (R : α → α → Prop) (join : α → α → Option α) :
    Prop where
  self (x : α) (hx : C x) : join x x = some x
  /-- Both orders have a result or neither has, and results are related. -/
  comm (x y : α) (hx : C x) (hy : C y) : Option.Rel R (join x y) (join y x)
  /-- Both groupings have a result or neither has, and results are related. -/
  assoc (x y z : α) (hx : C x) (hy : C y) (hz : C z) :
    Option.Rel R ((join x y).bind fun xy => join xy z) ((join y z).bind fun yz => join x yz)

/-- Joining gives the least of all upper bounds, if there are any. -/
structure LeastJoin {α : Type} (C : α → Prop) (le : α → α → Prop) (join : α → α → Option α) :
    Prop where
  trans {x y z : α} (h : le x y) (h' : le y z) : le x z
  closed {x y z : α} (hx : C x) (hy : C y) (h : join x y = some z) : C z
  upper {x y z : α} (hx : C x) (hy : C y) (h : join x y = some z) : le x z ∧ le y z
  least {x y z w : α} (h : join x y = some z) (hxw : le x w) (hyw : le y w) : le z w
  exists_join {x y w : α} (hx : C x) (hy : C y) (hxw : le x w) (hyw : le y w) :
    ∃ z, join x y = some z

namespace LeastJoin

variable {α : Type} {C : α → Prop} {le R : α → α → Prop} {join : α → α → Option α} {x y z w : α}

/-- What can be joined can be joined the other way round, and the result is no higher. -/
theorem exists_comm (h : LeastJoin C le join) (hx : C x) (hy : C y) (hz : join x y = some z) :
    ∃ z', join y x = some z' ∧ le z' z := by
  obtain ⟨hxz, hyz⟩ := h.upper hx hy hz
  obtain ⟨z', hz'⟩ := h.exists_join hy hx hyz hxz
  exact ⟨z', hz', h.least hz' hyz hxz⟩

/-- Three elements with an upper bound can be joined from the left. -/
theorem exists_left (h : LeastJoin C le join) (hx : C x) (hy : C y) (hz : C z) (hxw : le x w)
    (hyw : le y w) (hzw : le z w) :
    ∃ q, ((join x y).bind fun xy => join xy z) = some q ∧ le q w := by
  obtain ⟨p, hp⟩ := h.exists_join hx hy hxw hyw
  have hpw := h.least hp hxw hyw
  have hpC := h.closed hx hy hp
  obtain ⟨q, hq⟩ := h.exists_join hpC hz hpw hzw
  exact ⟨q, by rw [hp, Option.bind_some, hq], h.least hq hpw hzw⟩

/-- Three elements with an upper bound can be joined from the right. -/
theorem exists_right (h : LeastJoin C le join) (hx : C x) (hy : C y) (hz : C z) (hxw : le x w)
    (hyw : le y w) (hzw : le z w) :
    ∃ q, ((join y z).bind fun yz => join x yz) = some q ∧ le q w := by
  obtain ⟨p, hp⟩ := h.exists_join hy hz hyw hzw
  have hpw := h.least hp hyw hzw
  obtain ⟨q, hq⟩ := h.exists_join hx (h.closed hy hz hp) hxw hpw
  exact ⟨q, by rw [hp, Option.bind_some, hq], h.least hq hxw hpw⟩

/-- What three elements are joined to from the left is above each of them. -/
theorem upper_left (h : LeastJoin C le join) (hx : C x) (hy : C y) (hz : C z) {q : α}
    (hq : ((join x y).bind fun xy => join xy z) = some q) : C q ∧ le x q ∧ le y q ∧ le z q := by
  obtain ⟨p, hp, hq⟩ := Option.bind_eq_some_iff.1 hq
  have hpC := h.closed hx hy hp
  obtain ⟨hxp, hyp⟩ := h.upper hx hy hp
  obtain ⟨hpq, hzq⟩ := h.upper hpC hz hq
  exact ⟨h.closed hpC hz hq, h.trans hxp hpq, h.trans hyp hpq, hzq⟩

/-- What three elements are joined to from the right is above each of them. -/
theorem upper_right (h : LeastJoin C le join) (hx : C x) (hy : C y) (hz : C z) {q : α}
    (hq : ((join y z).bind fun yz => join x yz) = some q) : le x q ∧ le y q ∧ le z q := by
  obtain ⟨p, hp, hq⟩ := Option.bind_eq_some_iff.1 hq
  obtain ⟨hyp, hzp⟩ := h.upper hy hz hp
  obtain ⟨hxq, hpq⟩ := h.upper hx (h.closed hy hz hp) hq
  exact ⟨hxq, h.trans hyp hpq, h.trans hzp hpq⟩

/-- Results are related when there is a result below each one of the other side. -/
theorem rel_of_le {o o' : Option α} (hR : ∀ a b, C a → le a b → le b a → R a b)
    (ho : ∀ a, o = some a → C a ∧ ∃ b, o' = some b ∧ le b a)
    (ho' : ∀ b, o' = some b → ∃ a, o = some a ∧ le a b) : Option.Rel R o o' := by
  cases o with
  | none =>
    cases o' with
    | none => exact .none
    | some b =>
      obtain ⟨a, ha, -⟩ := ho' b rfl
      cases ha
  | some a =>
    obtain ⟨ha, b, rfl, hba⟩ := ho a rfl
    obtain ⟨_, ha', hab⟩ := ho' b rfl
    cases ha'
    exact .some (hR a b ha hab hba)

/-- **Least upper bounds satisfy the laws**, up to what is below one another. -/
theorem joinLaws (h : LeastJoin C le join) (hself : ∀ x, C x → join x x = some x)
    (hR : ∀ a b, C a → le a b → le b a → R a b) : JoinLaws C R join where
  self := hself
  comm x y hx hy :=
    rel_of_le hR (fun _ ha => ⟨h.closed hx hy ha, h.exists_comm hx hy ha⟩) fun _ hb =>
      h.exists_comm hy hx hb
  assoc x y z hx hy hz := by
    refine rel_of_le hR (fun a ha => ?_) fun b hb => ?_
    · obtain ⟨haC, hxa, hya, hza⟩ := h.upper_left hx hy hz ha
      exact ⟨haC, h.exists_right hx hy hz hxa hya hza⟩
    · obtain ⟨hxb, hyb, hzb⟩ := h.upper_right hx hy hz hb
      exact h.exists_left hx hy hz hxb hyb hzb

end LeastJoin

/-! ## Unification -/

/-- Unification of definitions gives least upper bounds. -/
theorem Definition.leastJoin : LeastJoin Comparable Below unify where
  trans h h' := h.trans h'
  closed hx hy h := hx.unify hy h
  upper hx hy h := below_unify _ h hx hy
  least h := unify_below _ h
  exists_join hx hy := exists_unify_of_below _ hx hy

/-- Unification of types gives least upper bounds. -/
theorem FieldType.leastJoin : LeastJoin Comparable Below unify where
  trans h h' := h.trans h'
  closed hx hy h := hx.unify hy h
  upper hx hy h := below_unify h hx hy fun a b _ ha hb hc =>
    Definition.below_unify a hc (hx a ha) (hy b hb)
  least h hxw hyw := unify_below h hxw hyw fun a _ _ _ _ _ hc => Definition.unify_below a hc
  exists_join hx hy hxw hyw := exists_unify_of_below hxw hyw fun a b _ ha hb =>
    Definition.exists_unify_of_below a (hx a ha) (hy b hb)

/-- A type accepts what is accepted by a type that fits it. -/
theorem FieldType.Fits.accepts {x y : FieldType} (h : x.Fits y) {v : Value}
    (hv : x.accepts v = true) : y.accepts v = true := by
  induction h generalizing v with
  | basic | classToken | enum | unknown => exact hv
  | nested hname => cases v <;> simp_all [FieldType.accepts]
  | array _ ih =>
    cases v with
    | array elements =>
      simp only [FieldType.accepts, List.all_eq_true] at hv ⊢
      exact fun v hmem => ih (hv v hmem)
    | _ => simp [FieldType.accepts] at hv
  | known => cases v <;> simp_all [FieldType.accepts]

/-- **Unification is a partial join** of field types and of definitions, up to equality of all that
they say, policies at any depth included. A unified type accepts what either of the two accepts. -/
theorem unify_partialJoin :
    JoinLaws FieldType.Comparable FieldType.Agrees FieldType.unify ∧
      JoinLaws Definition.Comparable Definition.Agrees Definition.unify ∧
      ∀ x y z : FieldType, x.unify y = some z →
        ∀ v, x.accepts v = true ∨ y.accepts v = true → z.accepts v = true := by
  refine ⟨FieldType.leastJoin.joinLaws (fun x hx => ?_) fun x y hx h h' => h.agrees hx h',
    Definition.leastJoin.joinLaws (fun d hd => Definition.unify_self hd.distinct hd.naNFree)
      fun x y hx h h' => h.agrees hx h', fun x y z h v hv => ?_⟩
  · exact FieldType.unify_self fun d hd =>
      Definition.unify_self (hx d hd).distinct (hx d hd).naNFree
  · obtain ⟨hxz, hyz, -⟩ := FieldType.Fits.of_unify h
    exact hv.elim hxz.accepts hyz.accepts

/-! ## Arrays of arrays of annotations -/

namespace layered

/-- An annotation with a number. -/
def note : Annotation :=
  ⟨⟨"N", some .runtime, [("value", .basic (.floating .double))], []⟩,
    [("value", .floating .double (.infinite false))]⟩

/-- A definition of an annotated type. -/
def annotated (name : String) (retention : Option Retention) (fields : List (String × FieldType)) :
    Definition := ⟨name, retention, fields, [note]⟩

/-- An array of arrays of annotations that have an array. -/
def parts (retention : Option Retention) (values : FieldType) : FieldType :=
  .array (.array (.nested (annotated "P" retention [("values", values)])))

/-- Nothing is known of the inner definition. -/
def first : Definition :=
  annotated "W" (some .runtime) [("parts", parts none .unknownArray), ("name", .basic .string)]

/-- The policy of the inner definition is known, and the fields are the other way round. -/
def second : Definition :=
  annotated "W" none [("name", .basic .string), ("parts", parts (some .source) .unknownArray)]

/-- The array of the inner definition is known. -/
def third : Definition :=
  annotated "W" none [("parts", parts none (.array .classToken)), ("name", .basic .string)]

/-- A definition with one annotation can be compared when the types of its fields can. -/
theorem comparable_annotated {name : String} {retention : Option Retention}
    {fields : List (String × FieldType)} (hkeys : (Keyed.keys fields).Nodup)
    (hfields : ∀ f ∈ fields, f.2.Comparable) : (annotated name retention fields).Comparable := by
  have hnote : note.Distinct ∧ note.NaNFree ∧ note.definition.NaNFree := by
    refine ⟨?_, ?_, .mk ?_ ?_⟩ <;>
      simp [note, Annotation.Distinct, Definition.Distinct, Keyed.keys, FieldType.AllDistinct,
        FieldType.Distinct, Annotation.AllDistinct, Value.NamedDistinct, Value.Distinct,
        Annotation.NaNFree, Value.NamedNaNFree, Value.NaNFree, Definition.mentioned,
        FieldType.annotationType?]
  refine ⟨Definition.distinct_iff.2 ⟨hkeys, ?_, by simp [annotated], hnote.1, trivial⟩, .mk ?_ ?_⟩
  · exact FieldType.allDistinct_iff.2 fun f hf =>
      FieldType.distinct_iff.2 fun d hd => (hfields f hf d hd).distinct
  · simpa [annotated] using hnote.2.1
  · intro x hx
    rcases Definition.mem_mentioned_iff.1 hx with ⟨f, hf, hx⟩ | ⟨a, ha, p, hp, rfl⟩
    · exact (hfields f hf x hx).naNFree
    · cases List.mem_singleton.1 ha
      have hp : p = note := by
        simpa [note, Annotation.parts, Value.parts, Value.partsNamed] using hp
      exact hp ▸ hnote.2.2

/-- The type with the parts can be compared when the type of its values holds no definition. -/
theorem comparable_parts {retention : Option Retention} {values : FieldType}
    (h : values.annotationType? = none) : (parts retention values).Comparable := fun d hd => by
  cases hd
  exact comparable_annotated (by simp [Keyed.keys]) (by simp [FieldType.Comparable, h])

/-- The three definitions can be compared. -/
theorem comparable : first.Comparable ∧ second.Comparable ∧ third.Comparable := by
  have hbasic : (FieldType.basic .string).Comparable := fun d hd => by cases hd
  refine ⟨?_, ?_, ?_⟩
  all_goals
    refine comparable_annotated (by simp [Keyed.keys]) ?_
    simpa [hbasic] using comparable_parts rfl

end layered

/-- Three definitions, of which two know a part each of what the third knows nothing of. -/
theorem unify_partialJoin_layered :
    layered.first.unify layered.first = some layered.first ∧
      (layered.first.unify layered.second).isSome = true ∧
      Option.Rel Definition.Agrees (layered.first.unify layered.second)
        (layered.second.unify layered.first) ∧
      ((layered.first.unify layered.second).bind fun d => d.unify layered.third).isSome = true ∧
      Option.Rel Definition.Agrees
        ((layered.first.unify layered.second).bind fun d => d.unify layered.third)
        ((layered.second.unify layered.third).bind fun d => layered.first.unify d) ∧
      Option.Rel FieldType.Agrees
        ((layered.parts none .unknownArray).unify (layered.parts (some .source) .unknownArray))
        ((layered.parts (some .source) .unknownArray).unify (layered.parts none .unknownArray)) ∧
      (FieldType.array .classToken).accepts (.array []) = true := by
  obtain ⟨hfirst, hsecond, hthird⟩ := layered.comparable
  have hparts : ∀ retention, (layered.parts retention .unknownArray).Comparable :=
    fun _ => layered.comparable_parts rfl
  obtain ⟨htypes, hdefinitions, haccepts⟩ := unify_partialJoin
  exact ⟨hdefinitions.self _ hfirst, by decide, hdefinitions.comm _ _ hfirst hsecond, by decide,
    hdefinitions.assoc _ _ _ hfirst hsecond hthird, htypes.comm _ _ (hparts none) (hparts _),
    haccepts .unknownArray (.array .classToken) _ rfl _ (.inl rfl)⟩

end AnnotationIndex
