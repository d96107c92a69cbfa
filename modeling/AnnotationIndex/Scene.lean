import AnnotationIndex.Element.Basic

/-!
# Scenes

A scene holds every annotated package and class. Its elements form one tree below a root. Beside the
tree a scene records from which packages annotation types are to be imported; equality leaves that
out.
-/

namespace AnnotationIndex

/-- All packages and classes, and what is to be imported. The imports are a keyed list in the order
of its keys, and so are the packages of each. -/
structure Scene where
  root : Element
  imports : List (String × List String)

namespace Scene

/-- The scene that holds nothing. -/
def empty : Scene := ⟨.fresh .scene, []⟩

instance : Inhabited Scene := ⟨empty⟩

/-- The packages in order. -/
def packages (s : Scene) : List (String × Element) :=
  s.root.children.filterMap fun
    | (.package name, e) => some (name, e)
    | _ => none

/-- The classes in order. -/
def classes (s : Scene) : List (String × Element) :=
  s.root.children.filterMap fun
    | (.typeDecl name, e) => some (name, e)
    | _ => none

/-- The scene has neither packages nor classes. -/
def isEmpty (s : Scene) : Bool := s.root.children.isEmpty

/-- The element that a path leads to. -/
def at? (s : Scene) (path : Path) : Option Element := s.root.at? path

/-- Changes the element that a path leads to, creating what is absent on the way. -/
def modifyAt (s : Scene) (path : Path) (f : Element → Element) : Scene :=
  { s with root := s.root.modifyAt f path }

/-- Removes everything that is not annotated. -/
def prune (s : Scene) : Scene := { s with root := s.root.prune }

/-- Removes everything that is not annotated, and tells whether nothing is. -/
def sweep (s : Scene) : Scene × Bool :=
  let (root, empty) := s.root.sweep
  ({ s with root := root }, empty)

/-- Something in the scene is annotated. -/
def isAnnotated (s : Scene) : Bool := s.root.isAnnotated

/-- Equality of scenes. -/
def beq (s t : Scene) : Bool := s.root.beq t.root

/-- Adds a copy of a class, unless the scene has a class of that name. -/
def graft (s : Scene) (name : String) (copy : Element) : Scene :=
  { s with root.children := Keyed.upsert (.typeDecl name) copy id s.root.children }

/-- Adds an annotation to every class that has no equal one. -/
def annotateClasses (s : Scene) (a : Annotation) : Scene :=
  let add : Slot × Element → Slot × Element
    | (.typeDecl name, e) => (.typeDecl name, e.annotate a)
    | entry => entry
  { s with root.children := s.root.children.map add }

/-! ## Imports -/

/-- Adds a text to a list in increasing order, unless it is there. -/
def insertText (t : String) : List String → List String
  | [] => [t]
  | s :: rest =>
    match compareTexts t s with
    | .lt => t :: s :: rest
    | .eq => s :: rest
    | .gt => s :: insertText t rest

/-- Adds a package to the entry of a name in a list in increasing order of names. -/
def insertImport (name package : String) : List (String × List String) → List (String × List String)
  | [] => [(name, [package])]
  | (n, packages) :: rest =>
    match compareTexts name n with
    | .lt => (name, [package]) :: (n, packages) :: rest
    | .eq => (n, insertText package packages) :: rest
    | .gt => (n, packages) :: insertImport name package rest

/-- The package is among those that the name is to be imported from. -/
def imports? (s : Scene) (name package : String) : Bool :=
  match Keyed.get? name s.imports with
  | some packages => packages.contains package
  | none => false

/-- Records that an annotation type is to be imported from a package. -/
def addImport (s : Scene) (name package : String) : Scene :=
  { s with imports := insertImport name package s.imports }

end Scene

end AnnotationIndex
