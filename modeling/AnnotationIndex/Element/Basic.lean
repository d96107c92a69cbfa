import AnnotationIndex.Annotation.Equality
import AnnotationIndex.Element.Slot

/-!
# Elements

An element carries annotations and owns the elements in its slots. Elements are reached by paths,
which are lists of slots. `at?` looks a path up; `modifyAt` changes what a path leads to and creates
on the way what is absent.
-/

namespace AnnotationIndex

/-- Something that can be annotated, with everything that belongs to it. The children are a keyed
list. Only a cast has a type that is cast to. -/
structure Element where
  annotations : List Annotation
  castType : Option String
  children : List (Slot × Element)

namespace Element

/-- An element that holds nothing. -/
def bare : Element := ⟨[], none, []⟩

/-- A block whose expressions hold nothing. -/
def freshBlock : Element := ⟨[], none, [(.code, bare)]⟩

/-- An element of the given kind as it is created: only the slots that are always filled are. -/
def fresh : Kind → Element
  | .method => ⟨[], none, [(.returnType, bare), (.receiver, bare), (.body, freshBlock)]⟩
  | .block => freshBlock
  | _ => bare

instance : Inhabited Element := ⟨bare⟩

/-- The element in a slot. -/
def child? (e : Element) (slot : Slot) : Option Element := Keyed.get? slot e.children

/-- The element that a path leads to. -/
def at? (e : Element) : Path → Option Element
  | [] => some e
  | slot :: rest =>
    match e.child? slot with
    | some child => child.at? rest
    | none => none

/-- Changes the element that a path leads to. What is absent on the way is created. -/
def modifyAt (f : Element → Element) : Path → Element → Element
  | [], e => f e
  | slot :: rest, e =>
    { e with children := Keyed.upsert slot (fresh slot.kind) (modifyAt f rest) e.children }

/-- The element that a path leads to once what is absent on the way has been created. -/
def reach (e : Element) : Path → Element
  | [] => e
  | slot :: rest => ((e.child? slot).getD (fresh slot.kind)).reach rest

/-- Takes the element out of a slot. -/
def remove (e : Element) (slot : Slot) : Element :=
  { e with children := Keyed.erase slot e.children }

/-- Adds an annotation, unless an equal one is present. -/
def annotate (a : Annotation) (e : Element) : Element :=
  { e with annotations := AnnotationSet.insert e.annotations a }

/-- The initializers of the fields that have one. -/
def initializers (e : Element) : List (String × Element) :=
  e.children.filterMap fun
    | (.field name, field) => (field.child? .initializer).map fun init => (name, init)
    | _ => none

/-! ## Equality -/

mutual

/-- Equality of elements; the order of annotations and of slots does not count. -/
def beq : Element → Element → Bool
  | ⟨annotations, castType, children⟩, e =>
    AnnotationSet.beq annotations e.annotations && castType = e.castType &&
      (children.length == e.children.length && within children e.children)

/-- Each slot is among the others, with an equal element. -/
def within : List (Slot × Element) → List (Slot × Element) → Bool
  | [], _ => true
  | (slot, child) :: rest, others =>
    (match Keyed.get? slot others with
      | some other => child.beq other
      | none => false) && within rest others

end

/-! ## Pruning -/

mutual

/-- The element or something that belongs to it carries an annotation. -/
def isAnnotated : Element → Bool
  | ⟨annotations, _, children⟩ => !annotations.isEmpty || anyAnnotated children

/-- Some of the elements is annotated. -/
def anyAnnotated : List (Slot × Element) → Bool
  | [] => false
  | (_, child) :: rest => child.isAnnotated || anyAnnotated rest

end

mutual

/-- The element without what is not annotated. Slots that are always filled stay. -/
def prune : Element → Element
  | ⟨annotations, castType, children⟩ => ⟨annotations, castType, pruneAll children⟩

/-- The annotated ones of the elements, each pruned. -/
def pruneAll : List (Slot × Element) → List (Slot × Element)
  | [] => []
  | (slot, child) :: rest =>
    if slot.isOwned || child.isAnnotated then (slot, child.prune) :: pruneAll rest
    else pruneAll rest

end

mutual

/-- The pruned element, and whether it is empty: nothing in it was annotated. The answers of the
children decide which of them stay, so that every element is looked at once. -/
def sweep : Element → Element × Bool
  | ⟨annotations, castType, children⟩ =>
    let (kept, empty) := sweepAll children
    (⟨annotations, castType, kept⟩, empty && annotations.isEmpty)

/-- Those of the elements that stay, each pruned, and whether all of them are empty. -/
def sweepAll : List (Slot × Element) → List (Slot × Element) × Bool
  | [] => ([], true)
  | (slot, child) :: rest =>
    let (child, empty) := child.sweep
    let (kept, restEmpty) := sweepAll rest
    (if empty && !slot.isOwned then kept else (slot, child) :: kept, empty && restEmpty)

end

end Element

end AnnotationIndex
