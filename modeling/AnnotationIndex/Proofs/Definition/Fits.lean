import AnnotationIndex.Proofs.Definition.Unify

/-!
# Definitions that fit

A definition fits another one of its name when whatever is said with it can be said with the other:
at most less is known of its arrays. Equal definitions fit, and a unified definition is the least
that both definitions fit (`Definition.Fits.unify_left`, `Definition.Fits.unify_right`,
`Definition.Fits.of_unify`).
-/

namespace AnnotationIndex

namespace FieldType

/-- Every value of the first type is a value of the second, when annotation types go by their
names. -/
inductive Fits : FieldType → FieldType → Prop where
  | basic (kind : BasicKind) : Fits (.basic kind) (.basic kind)
  | classToken : Fits .classToken .classToken
  | enum (name : String) : Fits (.enum name) (.enum name)
  | nested {d e : Definition} (h : d.name = e.name) : Fits (.nested d) (.nested e)
  | array {x y : FieldType} (h : Fits x y) : Fits (.array x) (.array y)
  | unknown : Fits .unknownArray .unknownArray
  | known (element : FieldType) : Fits .unknownArray (.array element)

namespace Fits

/-- A type fits itself. -/
theorem refl : ∀ type : FieldType, type.Fits type
  | .basic kind => .basic kind
  | .classToken => .classToken
  | .enum name => .enum name
  | .nested _ => .nested rfl
  | .array element => .array (refl element)
  | .unknownArray => .unknown

/-- What fits a type that fits another one fits that one. -/
theorem trans {x y z : FieldType} (h : x.Fits y) (h' : y.Fits z) : x.Fits z := by
  induction h generalizing z with
  | basic | classToken | enum | unknown => exact h'
  | nested hxy =>
    cases h' with
    | nested hyz => exact .nested (hxy.trans hyz)
  | array _ ih =>
    cases h' with
    | array h' => exact .array (ih h')
  | known element =>
    cases h' with
    | array => exact .known _

/-- Equal types fit one another. -/
theorem of_beq : ∀ {x y : FieldType}, x.beq y = true → x.Fits y
  | .basic _, y, h => by
    cases y <;> simp only [FieldType.beq, Bool.false_eq_true, decide_eq_true_eq] at h
    exact h ▸ .basic _
  | .classToken, y, h => by
    cases y <;> simp only [FieldType.beq, Bool.false_eq_true] at h
    exact .classToken
  | .enum _, y, h => by
    cases y <;> simp only [FieldType.beq, Bool.false_eq_true, decide_eq_true_eq] at h
    exact h ▸ .enum _
  | .nested _, y, h => by
    cases y <;> simp only [FieldType.beq, Bool.false_eq_true] at h
    exact .nested (Definition.name_eq_of_beq h)
  | .array _, y, h => by
    cases y <;> simp only [FieldType.beq, Bool.false_eq_true] at h
    exact .array (of_beq h)
  | .unknownArray, y, h => by
    cases y <;> simp only [FieldType.beq, Bool.false_eq_true] at h
    exact .unknown

/-- Two types fit what they have together, which fits every type that both of them fit. -/
theorem of_unify : ∀ {x y z : FieldType}, x.unify y = some z →
    x.Fits z ∧ y.Fits z ∧ ∀ w : FieldType, x.Fits w → y.Fits w → z.Fits w
  | .basic _, y, z, h => by
    cases y <;> simp only [FieldType.unify, reduceCtorEq, Option.ite_none_right_eq_some] at h
    obtain ⟨rfl, h⟩ := h
    cases h
    exact ⟨refl _, refl _, fun _ hw _ => hw⟩
  | .classToken, y, z, h => by
    cases y <;> simp only [FieldType.unify, reduceCtorEq] at h
    cases h
    exact ⟨refl _, refl _, fun _ hw _ => hw⟩
  | .enum _, y, z, h => by
    cases y <;> simp only [FieldType.unify, reduceCtorEq, Option.ite_none_right_eq_some] at h
    obtain ⟨rfl, h⟩ := h
    cases h
    exact ⟨refl _, refl _, fun _ hw _ => hw⟩
  | .nested d, y, z, h => by
    cases y <;> simp only [FieldType.unify, reduceCtorEq] at h
    obtain ⟨e, he, rfl⟩ := Option.map_eq_some_iff.1 h
    have hname := Definition.name_unify he
    refine ⟨.nested hname.symm, .nested ?_, fun w hw _ => ?_⟩
    · exact (Definition.unify_eq_some_iff.1 he).1.symm.trans hname.symm
    · cases hw with
      | nested hw => exact .nested (hname.trans hw)
  | .array x, y, z, h => by
    cases y <;> simp only [FieldType.unify, reduceCtorEq] at h
    · next y =>
      obtain ⟨e, he, rfl⟩ := Option.map_eq_some_iff.1 h
      obtain ⟨hx, hy, hleast⟩ := of_unify he
      refine ⟨.array hx, .array hy, fun w hw hw' => ?_⟩
      cases hw with
      | array hw =>
        cases hw' with
        | array hw' => exact .array (hleast _ hw hw')
    · cases h
      exact ⟨refl _, .known x, fun _ hw _ => hw⟩
  | .unknownArray, y, z, h => by
    cases y <;> simp only [FieldType.unify, reduceCtorEq] at h <;> cases h
    · exact ⟨.known _, refl _, fun _ _ hw => hw⟩
    · exact ⟨refl _, refl _, fun _ hw _ => hw⟩

/-- Types that fit one type unify, if the definitions that they hold do. -/
theorem isSome_unify {x y w : FieldType} (hx : x.Fits w) (hy : y.Fits w)
    (hd : ∀ a b, x.annotationType? = some a → y.annotationType? = some b → a.name = b.name →
      (a.unify b).isSome = true) : (x.unify y).isSome = true := by
  induction hx generalizing y with
  | basic | classToken | enum =>
    cases hy
    simp [FieldType.unify]
  | nested hname =>
    cases hy with
    | nested hname' =>
      rw [FieldType.unify, Option.isSome_map]
      exact hd _ _ rfl rfl (hname.trans hname'.symm)
  | array _ ih =>
    cases hy with
    | array hy =>
      rw [FieldType.unify, Option.isSome_map]
      exact ih hy hd
    | known => rfl
  | unknown =>
    cases hy
    rfl
  | known => cases hy <;> rfl

end Fits

end FieldType

namespace Definition

/-- Every field of the first definition is one of the second, with a type that fits. -/
structure Fits (d e : Definition) : Prop where
  name : d.name = e.name
  fields : ∀ field type, Keyed.get? field d.fields = some type →
    ∃ type', Keyed.get? field e.fields = some type' ∧ type.Fits type'

namespace Fits

/-- A definition fits itself. -/
theorem refl (d : Definition) : d.Fits d := ⟨rfl, fun _ type h => ⟨type, h, .refl type⟩⟩

/-- What fits a definition that fits another one fits that one. -/
theorem trans {d e g : Definition} (h : d.Fits e) (h' : e.Fits g) : d.Fits g := by
  refine ⟨h.name.trans h'.name, fun field type hd => ?_⟩
  obtain ⟨type', he, hfits⟩ := h.fields field type hd
  obtain ⟨type'', hg, hfits'⟩ := h'.fields field type' he
  exact ⟨type'', hg, hfits.trans hfits'⟩

/-- Equal definitions fit one another. -/
theorem of_beq {d e : Definition} (h : d.beq e = true) : d.Fits e := by
  refine ⟨name_eq_of_beq h, fun field type hd => ?_⟩
  obtain ⟨name, retention, fields, metas⟩ := d
  simp only [beq, Bool.and_eq_true] at h
  obtain ⟨type', he, hb⟩ := FieldType.within_iff.1 h.1.2.2 _ (Keyed.mem_of_get? hd)
  exact ⟨type', he, .of_beq hb⟩

variable {x y z : Definition}

/-- The first of two definitions fits what they unify to. -/
theorem unify_left (h : x.unify y = some z) : x.Fits z := by
  refine ⟨(name_unify h).symm, fun field a ha => ?_⟩
  obtain ⟨b, c, -, hc, hu⟩ := field_of_unify_left h ha
  exact ⟨c, hc, (FieldType.Fits.of_unify hu).1⟩

/-- The second of two definitions fits what they unify to. -/
theorem unify_right (h : x.unify y = some z) (hn : (Keyed.keys x.fields).Nodup) : y.Fits z := by
  refine ⟨(unify_eq_some_iff.1 h).1.symm.trans (name_unify h).symm, fun field b hb => ?_⟩
  obtain ⟨a, c, -, hc, hu⟩ := field_of_unify_right h hn hb
  exact ⟨c, hc, (FieldType.Fits.of_unify hu).2.1⟩

/-- A unified definition fits what both definitions fit. -/
theorem of_unify (h : x.unify y = some z) {w : Definition} (hx : x.Fits w) (hy : y.Fits w) :
    z.Fits w := by
  refine ⟨(name_unify h).trans hx.name, fun field c hc => ?_⟩
  obtain ⟨a, b, ha, hb, hu⟩ := field_of_unify h hc
  obtain ⟨type, hw, hfits⟩ := hx.fields field a ha
  obtain ⟨type', hw', hfits'⟩ := hy.fields field b hb
  cases hw.symm.trans hw'
  exact ⟨type, hw, (FieldType.Fits.of_unify hu).2.2 _ hfits hfits'⟩

end Fits

/-! ## Definitions that refine others -/

/-- The first definition fits the second, and has the same fields and annotations. Annotations count
as the same when whatever equals those of the first equals those of the second, because a NaN does
not equal itself. -/
structure Refines (d e : Definition) : Prop extends d.Fits e where
  length : d.fields.length = e.fields.length
  metas : ∀ as, AnnotationSet.beq as d.metas = true → AnnotationSet.beq as e.metas = true

namespace Refines

/-- A definition refines itself. -/
theorem refl (d : Definition) : d.Refines d := ⟨.refl d, rfl, fun _ h => h⟩

/-- What refines a definition that refines another one refines that one. -/
theorem trans {d e g : Definition} (h : d.Refines e) (h' : e.Refines g) : d.Refines g :=
  ⟨h.toFits.trans h'.toFits, h.length.trans h'.length, fun as has => h'.metas as (h.metas as has)⟩

/-- Equal definitions refine one another. -/
theorem of_beq {d e : Definition} (h : d.beq e = true) : d.Refines e := by
  refine ⟨.of_beq h, ?_, fun as has => AnnotationSet.beq_trans has ?_⟩
  all_goals
    obtain ⟨name, retention, fields, metas⟩ := d
    simp only [beq, Bool.and_eq_true, beq_iff_eq] at h
  · exact h.1.2.1
  · simpa [AnnotationSet.beq] using h.2

variable {x y z : Definition}

/-- The first of two definitions refines what they unify to. -/
theorem unify_left (h : x.unify y = some z) : x.Refines z := by
  obtain ⟨-, -, -, -, hf, -, hmetas⟩ := unify_eq_some_iff.1 h
  refine ⟨.unify_left h, ?_, fun as has => hmetas ▸ has⟩
  simpa [Keyed.keys] using (congrArg List.length (FieldType.keys_unifyFields hf)).symm

/-- The second of two definitions refines what they unify to. -/
theorem unify_right (h : x.unify y = some z) (hx : x.Distinct) : y.Refines z := by
  obtain ⟨-, hbeq, hlength, -⟩ := unify_eq_some_iff.1 h
  obtain ⟨hkeys, -, hpair, hmetas⟩ := distinct_iff.1 hx
  refine ⟨.unify_right h hkeys, hlength.symm.trans (unify_left h).length, fun as has => ?_⟩
  rw [metas_unify h]
  exact AnnotationSet.beq_trans has (AnnotationSet.beq_symm hpair hmetas hbeq)

/-- A unified definition refines what both definitions refine. -/
theorem of_unify (h : x.unify y = some z) {w : Definition} (hx : x.Refines w) (hy : y.Refines w) :
    z.Refines w :=
  ⟨.of_unify h hx.toFits hy.toFits, (unify_left h).length.symm.trans hx.length,
    fun as has => hx.metas as (metas_unify h ▸ has)⟩

end Refines

/-! ## Retention policies -/

/-- The second definition has the policy of the first, if that has one. -/
def Retains (d e : Definition) : Prop := ∀ r, d.retention = some r → e.retention = some r

namespace Retains

/-- A definition has its own policy. -/
theorem refl (d : Definition) : d.Retains d := fun _ h => h

/-- A policy that is retained twice is retained. -/
theorem trans {d e g : Definition} (h : d.Retains e) (h' : e.Retains g) : d.Retains g :=
  fun r hr => h' r (h r hr)

/-- What retains the policy of a top-level definition is one as well. -/
theorem isTopLevel {d e : Definition} (h : d.Retains e) (hd : d.isTopLevel = true) :
    e.isTopLevel = true := by
  obtain ⟨r, hr⟩ := Option.isSome_iff_exists.1 hd
  rw [Definition.isTopLevel, h r hr]
  rfl

/-- Two definitions have the policies of what they have together. -/
theorem of_unify {x y z : Definition} (h : x.unify y = some z) : x.Retains z ∧ y.Retains z := by
  obtain ⟨-, -, -, h, -⟩ := unify_eq_some_iff.1 h
  simp only [Retains]
  cases hx : x.retention <;> cases hy : y.retention <;> rw [hx, hy, Retention.unify] at h
  · simp
  · simp [← Option.some_inj.1 h]
  · simp [← Option.some_inj.1 h]
  · split at h
    · next heq => simp [← Option.some_inj.1 h, heq]
    · cases h

end Retains

end Definition

end AnnotationIndex
