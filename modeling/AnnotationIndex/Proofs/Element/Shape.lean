import AnnotationIndex.Proofs.Element.Label
import AnnotationIndex.Scene

/-!
# The shape of elements

Which slots an element of each kind has. `Shaped` says of a whole tree that every element fills
slots of its own kind only, each once, that the slots which are always filled are filled, and that
only casts have a type that is cast to. Elements are created in that shape (`shaped_fresh`) and keep
it under changes along paths that exist for their kind (`Shaped.modifyAt`).
-/

namespace AnnotationIndex

/-- An element of this kind may have an element in the slot. -/
def Kind.owns : Kind → Slot → Bool
  | .scene, .package _ => true
  | .scene, .typeDecl _ => true
  | .typeUse, .innerType _ => true
  | .cast, .innerType _ => true
  | .code, .typecast _ => true
  | .code, .instanceof _ => true
  | .code, .creation _ => true
  | .block, .localVariable _ => true
  | .block, .code => true
  | .variable, .innerType _ => true
  | .variable, .insertion _ => true
  | .variable, .castInsertion _ => true
  | .variable, .initializer => true
  | .method, .insertion _ => true
  | .method, .castInsertion _ => true
  | .method, .bound _ => true
  | .method, .returnType => true
  | .method, .receiver => true
  | .method, .parameter _ => true
  | .method, .thrown _ => true
  | .method, .body => true
  | .typeDecl, .insertion _ => true
  | .typeDecl, .castInsertion _ => true
  | .typeDecl, .bound _ => true
  | .typeDecl, .supertype _ => true
  | .typeDecl, .field _ => true
  | .typeDecl, .method _ => true
  | .typeDecl, .staticInit _ => true
  | .typeDecl, .instanceInit _ => true
  | _, _ => false

/-- The slots that an element of this kind fills from the start. -/
def Kind.filled : Kind → List Slot
  | .method => [.returnType, .receiver, .body]
  | .block => [.code]
  | _ => []

/-- The slots that are always filled are those that an element of the kind has and that are owned
outright. -/
theorem Kind.mem_filled_iff {kind : Kind} {slot : Slot} :
    slot ∈ kind.filled ↔ kind.owns slot = true ∧ slot.isOwned = true := by
  -- `owns` is evaluated and not rewritten: it has too many alternatives for its equations
  cases kind <;> cases slot <;>
    first
    | exact iff_of_true (by simp [filled]) ⟨rfl, rfl⟩
    | exact iff_of_false (by simp [filled]) fun h => Bool.false_ne_true h.1
    | exact iff_of_false (by simp [filled]) fun h => Bool.false_ne_true h.2

/-- The path exists below an element of this kind. -/
def Kind.hasPath : Kind → Path → Bool
  | _, [] => true
  | kind, slot :: rest => kind.owns slot && slot.kind.hasPath rest

/-- The kind of the element that a path leads to from an element of this kind. -/
def Kind.after : Kind → Path → Kind
  | kind, [] => kind
  | _, slot :: rest => slot.kind.after rest

namespace Element

/-- The tree has the shape of an element of the kind. -/
inductive Shaped : Kind → Element → Prop where
  | mk {kind : Kind} {annotations : List Annotation} {castType : Option String}
      {children : List (Slot × Element)}
      (unmarked : kind = .scene → annotations = [])
      (cast : castType.isSome → kind = .cast)
      (distinct : (Keyed.keys children).Nodup)
      (filled : ∀ slot ∈ kind.filled, slot ∈ Keyed.keys children)
      (owned : ∀ c ∈ children, kind.owns c.1 = true)
      (shaped : ∀ c ∈ children, Shaped c.1.kind c.2) : Shaped kind ⟨annotations, castType, children⟩

namespace Shaped

variable {kind : Kind} {e : Element}

/-- No two children of an element are in one slot. -/
theorem distinct (h : e.Shaped kind) : (Keyed.keys e.children).Nodup := by
  cases h with | mk _ _ h => exact h

/-- The slots that are always there are there. -/
theorem filled (h : e.Shaped kind) : ∀ slot ∈ kind.filled, slot ∈ Keyed.keys e.children := by
  cases h with | mk _ _ _ h => exact h

/-- Every child is in a slot that the element may have. -/
theorem owned (h : e.Shaped kind) : ∀ c ∈ e.children, kind.owns c.1 = true := by
  cases h with | mk _ _ _ _ h => exact h

/-- Every child has the shape of its slot. -/
theorem children (h : e.Shaped kind) : ∀ c ∈ e.children, c.2.Shaped c.1.kind := by
  cases h with | mk _ _ _ _ _ h => exact h

/-- Only a cast has a type. -/
theorem castType_eq_none (h : e.Shaped kind) (hk : kind ≠ .cast) : e.castType = none := by
  cases h with
  | mk _ h => exact Option.not_isSome_iff_eq_none.1 fun hc => hk (h hc)

/-- A child that is found has the shape of its slot. -/
theorem child (h : e.Shaped kind) {slot : Slot} {child : Element}
    (hc : e.child? slot = some child) : child.Shaped slot.kind :=
  h.children _ (Keyed.mem_of_get? hc)

/-- A child that is found is in a slot that the element may have. -/
theorem owns (h : e.Shaped kind) {slot : Slot} {child : Element}
    (hc : e.child? slot = some child) : kind.owns slot = true :=
  h.owned _ (Keyed.mem_of_get? hc)

end Shaped

/-- An element without content has the shape of any kind without slots that are always there. -/
theorem shaped_bare {kind : Kind} (h : kind.filled = []) : bare.Shaped kind :=
  .mk (fun _ => rfl) (by simp) (by simp [Keyed.keys]) (by simp [h]) (by simp) (by simp)

/-- A new block has the shape of blocks. -/
theorem shaped_freshBlock : freshBlock.Shaped .block :=
  .mk (fun h => by cases h) (by simp) (by simp [Keyed.keys]) (by simp [Kind.filled, Keyed.keys])
    (by simp only [List.mem_singleton, forall_eq]; rfl) (by simpa using shaped_bare rfl)

/-- Elements are created in the shape of their kind. -/
theorem shaped_fresh : ∀ kind : Kind, (fresh kind).Shaped kind
  | .block => shaped_freshBlock
  | .method => by
    refine .mk (fun h => by cases h) (by simp) (by simp [Keyed.keys])
      (by simp [Kind.filled, Keyed.keys])
      (by simp only [List.forall_mem_cons]; exact ⟨rfl, rfl, rfl, by simp⟩) fun c hc => ?_
    simp only [List.mem_cons, List.not_mem_nil, or_false] at hc
    rcases hc with rfl | rfl | rfl
    · exact shaped_bare rfl
    · exact shaped_bare rfl
    · exact shaped_freshBlock
  | .scene | .package | .typeUse | .cast | .code | .variable | .typeDecl => shaped_bare rfl

/-- A tree keeps its shape when the element that a path leads to does. -/
theorem Shaped.modifyAt {f : Element → Element} {kind : Kind} {path : Path}
    (hf : ∀ e : Element, e.Shaped (kind.after path) → (f e).Shaped (kind.after path))
    (hp : kind.hasPath path = true) {e : Element} (h : e.Shaped kind) :
    (modifyAt f path e).Shaped kind := by
  induction path generalizing kind e with
  | nil => exact hf e h
  | cons slot rest ih =>
    rw [Kind.hasPath, Bool.and_eq_true] at hp
    have hnew : (Element.modifyAt f rest ((e.child? slot).getD (fresh slot.kind))).Shaped
        slot.kind := by
      refine ih hf hp.2 ?_
      cases hc : e.child? slot with
      | none => exact shaped_fresh slot.kind
      | some child => exact h.child hc
    cases h with
    | mk unmarked cast distinct filled owned shaped =>
      refine .mk unmarked cast (Keyed.nodup_keys_upsert distinct) (fun s hs => ?_)
        (fun c hc => ?_) fun c hc => ?_
      · rw [Keyed.keys_upsert]
        split
        · exact filled s hs
        · exact List.mem_append_left _ (filled s hs)
      · rcases Keyed.mem_upsert hc with hc | rfl
        · exact owned c hc
        · exact hp.1
      · rcases Keyed.mem_upsert hc with hc | rfl
        · exact shaped c hc
        · exact hnew

end Element

/-- Only the root is a scene. -/
theorem Kind.after_slot_ne_scene (slot : Slot) (rest : Path) : slot.kind.after rest ≠ .scene := by
  induction rest generalizing slot with
  | nil => cases slot <;> simp [after, Slot.kind]
  | cons next rest ih => exact ih next

/-- The tree below the root has the shape of a scene. -/
def Scene.Shaped (s : Scene) : Prop := s.root.Shaped .scene

/-- The root of a scene carries nothing. -/
theorem Scene.Shaped.label_root {s : Scene} (h : s.Shaped) : s.root.label = .blank := by
  have hs : s.root.Shaped .scene := h
  have htype := hs.castType_eq_none (by decide)
  cases hr : s.root with
  | mk as type cs =>
    rw [hr] at hs htype
    cases hs with
    | mk unmarked => rw [Element.label, unmarked rfl, htype, Label.blank]

/-- A scene keeps its shape when an annotation is added to an element. -/
theorem Scene.Shaped.annotate {s : Scene} (h : s.Shaped) {path : Path}
    (hp : Kind.scene.hasPath path = true) (hne : path ≠ []) (a : Annotation) :
    (s.modifyAt path (Element.annotate a)).Shaped := by
  have hk : Kind.scene.after path ≠ .scene := by
    obtain ⟨slot, rest, rfl⟩ := List.exists_cons_of_ne_nil hne
    exact Kind.after_slot_ne_scene slot rest
  refine Element.Shaped.modifyAt (fun e he => ?_) hp h
  cases he with
  | mk _ cast distinct filled owned shaped =>
    exact .mk (fun h => absurd h hk) cast distinct filled owned shaped

end AnnotationIndex
