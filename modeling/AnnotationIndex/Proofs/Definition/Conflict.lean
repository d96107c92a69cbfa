import AnnotationIndex.Proofs.Definition.Collection

/-!
# Conflicts are genuine

When collecting fails, two definitions that the scene reaches do not unify
(`Scene.exists_of_conflict`). What is known of a type has been unified from several definitions, so
that a conflict with it is first of all none with any single one of them; but a definition which
unifies with each of two definitions unifies with what they have together
(`Definition.isSome_unify_of_unify`).
-/

namespace AnnotationIndex

/-! ## When definitions unify -/

/-- Two definitions unify when their names, annotations, policies and fields do. -/
theorem Definition.isSome_unify_iff {x y : Definition} :
    (x.unify y).isSome = true ↔
      x.name = y.name ∧ AnnotationSet.beq x.metas y.metas = true ∧
        x.fields.length = y.fields.length ∧
        (Retention.unify x.retention y.retention).isSome = true ∧
        ∀ f ∈ x.fields, ∃ type, Keyed.get? f.1 y.fields = some type ∧
          (f.2.unify type).isSome = true := by
  rw [← FieldType.isSome_unifyFields_iff]
  constructor
  · intro h
    obtain ⟨z, hz⟩ := Option.isSome_iff_exists.1 h
    obtain ⟨hname, hmetas, hlength, hretention, hfields, -⟩ := unify_eq_some_iff.1 hz
    simp [hname, hmetas, hlength, hretention, hfields]
  · rintro ⟨hname, hmetas, hlength, hretention, hfields⟩
    obtain ⟨retention, hretention⟩ := Option.isSome_iff_exists.1 hretention
    obtain ⟨fields, hfields⟩ := Option.isSome_iff_exists.1 hfields
    have hz : x.unify y = some ⟨x.name, retention, fields, x.metas⟩ :=
      unify_eq_some_iff.2 ⟨hname, hmetas, hlength, hretention, hfields, rfl, rfl⟩
    rw [hz]
    rfl

/-! ## Three definitions -/

/-- A policy that agrees with each of two that agree agrees with what these unify to. -/
theorem Retention.isSome_unify_of_unify {a b c d : Option Retention}
    (h : Retention.unify a b = some c) (ha : (Retention.unify a d).isSome = true)
    (hb : (Retention.unify b d).isSome = true) : (Retention.unify c d).isSome = true := by
  cases a <;> cases b <;> cases d <;> simp_all [unify] <;> grind

/-- A type that unifies with each of two types unifies with what they have together, if that is so
of the definitions that they hold. -/
theorem FieldType.isSome_unify_of_unify : ∀ {x y z w : FieldType}, x.unify y = some z →
    (x.unify w).isSome = true → (y.unify w).isSome = true →
    (∀ a b c e : Definition, x.annotationType? = some a → a.unify b = some c →
      (a.unify e).isSome = true → (b.unify e).isSome = true → (c.unify e).isSome = true) →
    (z.unify w).isSome = true
  | .nested a, y, z, w, h, hx, hy, hd => by
    cases y <;> simp only [FieldType.unify, reduceCtorEq] at h
    next b =>
    obtain ⟨c, hc, rfl⟩ := Option.map_eq_some_iff.1 h
    cases w <;> simp only [FieldType.unify, Option.isSome_map, Option.isSome_none,
      Bool.false_eq_true] at hx hy ⊢
    exact hd a b c _ rfl hc hx hy
  | .array x, y, z, w, h, hx, hy, hd => by
    cases y <;> simp only [FieldType.unify, reduceCtorEq] at h
    · next y =>
      obtain ⟨c, hc, rfl⟩ := Option.map_eq_some_iff.1 h
      cases w <;> simp only [FieldType.unify, Option.isSome_map, Option.isSome_none,
        Option.isSome_some, Bool.false_eq_true] at hx hy ⊢
      exact FieldType.isSome_unify_of_unify (x := x) (y := y) hc hx hy hd
    · cases h
      exact hx
  | .unknownArray, y, z, w, h, hx, hy, hd => by
    cases y <;> simp only [FieldType.unify, reduceCtorEq] at h <;> cases h
    · exact hy
    · exact hx
  | .basic _, y, z, w, h, hx, _, _ => by
    cases y <;> simp only [FieldType.unify, reduceCtorEq, Option.ite_none_right_eq_some] at h
    cases h.2
    exact hx
  | .classToken, y, z, w, h, hx, _, _ => by
    cases y <;> simp only [FieldType.unify, reduceCtorEq] at h
    cases h
    exact hx
  | .enum _, y, z, w, h, hx, _, _ => by
    cases y <;> simp only [FieldType.unify, reduceCtorEq, Option.ite_none_right_eq_some] at h
    cases h.2
    exact hx

/-- **A definition that unifies with each of two definitions unifies with what they
have together.** -/
theorem Definition.isSome_unify_of_unify (x : Definition) :
    ∀ {y z w : Definition}, x.unify y = some z → (x.unify w).isSome = true →
      (y.unify w).isSome = true → (z.unify w).isSome = true := by
  induction x using Definition.induct with
  | h x ih =>
    intro y z w h hx hy
    obtain ⟨-, -, -, hretention, hfields, hname, hmetas⟩ := unify_eq_some_iff.1 h
    obtain ⟨hxw, hmetas', hlength, hr, hf⟩ := isSome_unify_iff.1 hx
    obtain ⟨-, -, -, hr', hf'⟩ := isSome_unify_iff.1 hy
    refine isSome_unify_iff.2 ⟨hname.trans hxw, hmetas ▸ hmetas', ?_,
      Retention.isSome_unify_of_unify hretention hr hr', fun f hfz => ?_⟩
    · rw [← hlength]
      simpa [Keyed.keys] using congrArg List.length (FieldType.keys_unifyFields hfields)
    · obtain ⟨tx, htx, ty, hty, hu⟩ := FieldType.mem_unifyFields hfields f hfz
      obtain ⟨type, hget, hxt⟩ := hf _ htx
      obtain ⟨type', hget', hyt⟩ := hf' _ (Keyed.mem_of_get? hty)
      cases hget.symm.trans hget'
      exact ⟨type, hget, FieldType.isSome_unify_of_unify hu hxt hyt fun a b c e ha hc hae hbe =>
        ih a (mem_mentioned_iff.2 (.inl ⟨_, htx, ha⟩)) hc hae hbe⟩

/-! ## Where a conflict comes from -/

/-- Two definitions of the name have the property and do not unify. -/
def Definition.Clash (P : Definition → Prop) (name : String) : Prop :=
  ∃ d e, P d ∧ P e ∧ d.name = name ∧ e.name = name ∧ d.unify e = none

/-- The collection holds only definitions with the property, each under its name. -/
def Collection.Holds (P : Definition → Prop) (c : Collection) : Prop :=
  ∀ e ∈ c.merged, P e.2 ∧ e.2.name = e.1

/-- Collecting definitions with the property has led to definitions joined from such, or to a name
of which two such definitions clash. -/
def Collection.Accounted (P : Definition → Prop) : Except Conflict Collection → Prop
  | .ok c => c.Holds (Definition.Joined P)
  | .error conflict => Definition.Clash P conflict.name

variable {P : Definition → Prop}

/-- When no two definitions of the name clash, one that is joined from such unifies with each. -/
theorem Definition.Joined.isSome_unify {known : Definition} (h : known.Joined P)
    (hclash : ¬ Definition.Clash P known.name) {d : Definition} (hd : P d)
    (hname : d.name = known.name) : (known.unify d).isSome = true := by
  have hpair : ∀ x, P x → x.name = known.name → (x.unify d).isSome = true := fun x hx hxn =>
    Option.isSome_iff_ne_none.2 fun hnone => hclash ⟨x, d, hx, hd, hxn, hname, hnone⟩
  clear hclash hname
  induction h with
  | of h => exact hpair _ h rfl
  | unify hx hy h ih =>
    have hz := Definition.name_unify h
    have hyz := (Definition.unify_eq_some_iff.1 h).1.symm.trans hz.symm
    exact Definition.isSome_unify_of_unify _ h (ih fun x hx hxn => hpair x hx (hxn.trans hz.symm))
      (hpair _ hy hyz)

namespace Collection

/-- Leaving a definition joins it to the one of its name, or the two clash. -/
theorem Accounted.leave {c : Collection} (h : c.Holds (Definition.Joined P)) {d : Definition}
    (hd : P d) : Accounted P (c.leave d) := by
  rw [Collection.leave]
  cases hg : Keyed.get? d.name c.merged with
  | none => exact List.forall_mem_append.2 ⟨h, by simpa using .of hd⟩
  | some known =>
    obtain ⟨hk, hname⟩ := h _ (Keyed.mem_of_get? hg)
    simp only at hk hname
    cases hu : known.unify d with
    | none =>
      simp only [hu]
      refine Classical.byContradiction fun hclash => ?_
      have hsome := hk.isSome_unify (hname ▸ hclash) hd hname.symm
      rw [hu] at hsome
      cases hsome
    | some z =>
      simp only [hu]
      intro e he
      rcases Keyed.mem_upsert he with he | rfl
      · exact h e he
      · exact ⟨.unify hk hd hu, rfl⟩

/-- Collecting a list is accounted for when collecting each of its definitions is. -/
theorem Accounted.collectEach {ds : List Definition}
    (hstep : ∀ d ∈ ds, ∀ c : Collection, c.Holds (Definition.Joined P) → Accounted P (d.collect c))
    {c : Collection} (h : c.Holds (Definition.Joined P)) :
    Accounted P (Definition.collectEach ds c) := by
  induction ds generalizing c with
  | nil => exact h
  | cons d ds ih =>
    have hd := hstep d List.mem_cons_self c h
    rw [Definition.collectEach]
    cases hc : d.collect c with
    | error e => rwa [hc] at hd
    | ok c₁ =>
      rw [hc] at hd
      exact ih (fun e he => hstep e (List.mem_cons_of_mem _ he)) hd

/-- Whatever a definition with the property mentions has it; then collecting such definitions leads
nowhere else. -/
theorem Accounted.collect (hP : ∀ d, P d → ∀ x ∈ d.mentioned, P x) (d : Definition) :
    P d → ∀ c : Collection, c.Holds (Definition.Joined P) → Accounted P (d.collect c) := by
  induction d using Definition.induct with
  | h d ih =>
    intro hd c h
    rw [Definition.collect_eq]
    split
    · exact h
    · have hmentioned : Accounted P (Definition.collectEach d.mentioned (c.enter d.name)) :=
        .collectEach (fun x hx => ih x hx (hP d hd x hx)) h
      cases hc : Definition.collectEach d.mentioned (c.enter d.name) with
      | error e => rwa [hc] at hmentioned
      | ok c₁ =>
        rw [hc] at hmentioned
        exact .leave hmentioned hd

end Collection

namespace Scene

/-- Collecting all that a scene uses leads to definitions joined from reachable ones, or to a name
of which two reachable definitions clash. -/
theorem accounted_collectAll (s : Scene) :
    Collection.Accounted s.Reaches <| Annotation.collectAll (s.root.uses .scene) .empty := by
  have hcollect := Annotation.collectAll_eq (s.root.uses .scene) .empty
  rw [hcollect]
  refine .collectEach (fun d hd => .collect (fun _ hd _ hx => hd.mentioned hx) d ?_)
    fun e he => by cases he
  obtain ⟨p, hp, rfl⟩ := List.mem_map.1 hd
  obtain ⟨a, ha, hp⟩ := List.mem_flatMap.1 hp
  exact .used (mem_uses_iff.1 ha) hp

/-- **A conflict is genuine**: two reachable definitions of the reported name do not unify. -/
theorem exists_of_conflict {s : Scene} {c : Conflict} (h : s.definitions = .error c) :
    Definition.Clash s.Reaches c.name := by
  have haccounted := s.accounted_collectAll
  rw [definitions] at h
  split at h
  · next e he =>
    cases h
    rwa [he] at haccounted
  · cases h

end Scene

end AnnotationIndex
