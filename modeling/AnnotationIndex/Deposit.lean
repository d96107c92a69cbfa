import AnnotationIndex.Error
import AnnotationIndex.Scene

/-!
# Deposits

What an index text puts into a scene, piece by piece. A deposit says where and what; the scene may
refuse it, when the element has an annotation of the same type or a cast to another type.
-/

namespace AnnotationIndex

/-- One piece that is put into a scene. An annotation and a cast type come with the line on which
they stand in the text. -/
inductive Deposit where
  /-- The path leads to an element. -/
  | element (path : Path)
  /-- The element carries the annotation. -/
  | mark (path : Path) (a : Annotation) (line : Nat)
  /-- The element is a cast to the type. -/
  | castType (path : Path) (type : String) (line : Nat)

namespace Deposit

/-- The element with an annotation more, unless it has one of that type. -/
def addMark (a : Annotation) (line : Nat) (e : Element) : Except ReadError Element :=
  if (AnnotationSet.find? e.annotations a.name).isSome then
    .error ⟨line, .annotationTwice a.name⟩
  else .ok { e with annotations := e.annotations ++ [a] }

/-- The element as a cast to a type, unless it is a cast to another one. -/
def setCastType (type : String) (line : Nat) (e : Element) : Except ReadError Element :=
  match e.castType with
  | none => .ok { e with castType := some type }
  | some existing =>
    if existing = type then .ok e else .error ⟨line, .conflictingCastTypes existing type⟩

/-- The scene after a deposit. -/
def apply (s : Scene) : Deposit → Except ReadError Scene
  | .element path => .ok (s.modifyAt path id)
  | .mark path a line =>
    (addMark a line (s.root.reach path)).map fun e => s.modifyAt path fun _ => e
  | .castType path type line =>
    (setCastType type line (s.root.reach path)).map fun e => s.modifyAt path fun _ => e

end Deposit

/-- The scene after the deposits up to the first that is refused, and why that one is. -/
def Scene.load (s : Scene) : List Deposit → Scene × Option ReadError
  | [] => (s, none)
  | d :: rest =>
    match d.apply s with
    | .ok s => s.load rest
    | .error e => (s, some e)

end AnnotationIndex
