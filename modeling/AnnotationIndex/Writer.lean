import AnnotationIndex.Annotation.Printer
import AnnotationIndex.Definitions
import AnnotationIndex.Layout

/-!
# Writing an index

`Scene.render` writes a scene as an index text: the definitions that the scene uses, each after
those that it mentions, then the packages with their classes. What is not annotated is left out.

Sections are written in an order in which each is read as part of the element that it belongs to:
inner types before insertions, and both before the sections of any element around them.
-/

namespace AnnotationIndex

/-- The order in which the elements that belong to one element are written. -/
def Family.writingOrder : List Family :=
  [innerType, insertion, castInsertion, bound, supertype, field, staticInit, instanceInit, method,
   returnType, receiver, parameter, thrown, body, localVariable, code, typecast, instanceof,
   creation, initializer]

/-- How the element in a slot is announced. -/
inductive Heading where
  /-- By a header, before what belongs to the element. -/
  | header (text : String)
  /-- Not at all: what belongs to the element follows directly. -/
  | plain
  /-- The slot has no place in an index. -/
  | hidden

/-- The header of a package. -/
def packageHeader (name : String) : String :=
  if name = "" then "package" else "package " ++ name

/-- How the element in a slot is announced. -/
def Slot.heading : Slot → Heading
  | .package name => .header (packageHeader name)
  | .typeDecl name => .header ("class " ++ (splitQualified name).2)
  | .bound l => .header ("bound " ++ l.text)
  | .supertype s =>
    if s.isSuperclass then .header "extends"
    else
      match s.interface? with
      | some n => .header ("implements " ++ numberText n)
      | none => .hidden
  | .field name => .header ("field " ++ name)
  | .method key => .header ("method " ++ key)
  | .staticInit n => .header ("staticinit *" ++ numberText n)
  | .instanceInit n => .header ("instanceinit *" ++ numberText n)
  | .insertion p => .header ("insert-annotation " ++ p.text)
  | .castInsertion p => .header ("insert-typecast " ++ p.text)
  | .returnType => .header "return"
  | .receiver => .header "receiver"
  | .parameter n => .header ("parameter #" ++ numberText n)
  | .thrown n => .header ("throws " ++ numberText n)
  | .localVariable l => .header ("local " ++ l.text)
  | .typecast p => .header ("typecast " ++ p.text)
  | .instanceof p => .header ("instanceof " ++ p.text)
  | .creation p => .header ("new " ++ p.text)
  | .innerType p => .header ("inner-type " ++ p.text)
  | .body | .code | .initializer => .plain

/-- What sits in the second slot is written with the element in the first. Inner types are written
with the outermost type only, and only fields are written with an initializer. -/
def Slot.shows : Slot → Slot → Bool
  | .innerType _, .innerType _ => false
  | .field _, .initializer => true
  | _, .initializer => false
  | _, _ => true

/-- The element in this slot is left out when nothing would be written about it. -/
def Slot.isOptional : Slot → Bool
  | .returnType | .receiver => true
  | _ => false

/-- A header, followed by annotations and by the type that is cast to. -/
def headerText (header : String) (annotations : List Annotation) (castType : Option String) :
    String :=
  header ++ ":" ++ String.join (annotations.map fun a => " " ++ a.text) ++
    match castType with
    | some type => " " ++ type
    | none => ""

/-- The lines in each slot, family by family. -/
def Line.assemble (blocks : List (Slot × List Line)) : List Line :=
  (arrange Family.writingOrder blocks).flatMap (·.2)

mutual

/-- The lines about the element in a slot, of which the first is indented to the given depth. -/
def Element.lines (slot : Slot) (depth : Nat) : Element → List Line
  | ⟨annotations, castType, children⟩ =>
    match slot.heading with
    | .hidden => []
    | .plain => Line.assemble (Element.linesBySlot slot depth children)
    | .header text =>
      let shown := if slot.kind.isMarked then annotations else []
      let contents := Line.assemble (Element.linesBySlot slot (depth + 1) children)
      if slot.isOptional && shown.isEmpty && contents.isEmpty then []
      else ⟨depth, headerText text shown castType⟩ :: contents

/-- The lines about each of the elements that are written with the element in a slot. -/
def Element.linesBySlot (slot : Slot) (depth : Nat) :
    List (Slot × Element) → List (Slot × List Line)
  | [] => []
  | (inner, child) :: rest =>
    if slot.shows inner then
      (inner, child.lines inner depth) :: Element.linesBySlot slot depth rest
    else Element.linesBySlot slot depth rest

end

/-- An empty line. -/
def Line.blank : Line := ⟨0, ""⟩

/-- The lines of a definition. -/
def Definition.lines (d : Definition) : List Line :=
  let retention := match d.retention with
    | some r => r.keyword ++ " "
    | none => ""
  [⟨0, headerText (packageHeader d.package) [] none⟩,
   ⟨0, headerText ("annotation " ++ retention ++ "@" ++ d.basename) d.metas none⟩] ++
    d.fields.map (fun f => ⟨1, f.2.text ++ " " ++ f.1⟩) ++ [.blank]

namespace Scene

/-- The packages that are written: those that are annotated, then those of the classes. -/
def packageNames (s : Scene) : List String :=
  (s.packages.map (·.1) ++ s.classes.map fun c => (splitQualified c.1).1).eraseDups

/-- The lines of a package and its classes. -/
def packageLines (s : Scene) (name : String) : List Line :=
  let annotations := match s.at? [.package name] with
    | some e => e.annotations
    | none => []
  let classes := s.classes.filter fun c => (splitQualified c.1).1 = name
  ⟨0, headerText (packageHeader name) annotations none⟩ ::
    classes.flatMap (fun c => c.2.lines (.typeDecl c.1) 0) ++ [.blank]

/-- The lines of the packages and classes of a scene. -/
def declarationLines (s : Scene) : List Line := s.packageNames.flatMap s.packageLines

/-- The lines of an index with the given definitions. -/
def lines (s : Scene) (definitions : List Definition) : List Line :=
  definitions.flatMap Definition.lines ++ s.prune.declarationLines

/-- The index text of a scene. -/
def render (s : Scene) (layout : Layout) : Except Conflict String :=
  match s.definitions with
  | .error e => .error e
  | .ok definitions => .ok (layout.text (s.lines definitions))

end Scene

end AnnotationIndex
