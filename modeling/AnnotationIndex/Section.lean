import AnnotationIndex.Element.Slot

/-!
# Sections

What is said about the inside of a class stands in sections. A section starts with a keyword and a
location, and nothing closes it: which element a section belongs to follows from the elements that
are open before it. `Context.takes` says which sections belong to an open element of each kind.
-/

namespace AnnotationIndex

/-- The kinds of sections inside a class. -/
inductive Section where
  | bound | superclass | interface | field | method | staticInit | instanceInit | returnType
  | receiver | parameter | thrown | localVariable | typecast | instanceof | creation | innerType
  | insertion | castInsertion
  deriving DecidableEq, Repr

namespace Section

/-- The keyword that starts a section. -/
def keyword : Section → String
  | .bound => "bound"
  | .superclass => "extends"
  | .interface => "implements"
  | .field => "field"
  | .method => "method"
  | .staticInit => "staticinit"
  | .instanceInit => "instanceinit"
  | .returnType => "return"
  | .receiver => "receiver"
  | .parameter => "parameter"
  | .thrown => "throws"
  | .localVariable => "local"
  | .typecast => "typecast"
  | .instanceof => "instanceof"
  | .creation => "new"
  | .innerType => "inner-type"
  | .insertion => "insert-annotation"
  | .castInsertion => "insert-typecast"

/-- Every kind of section. -/
def all : List Section :=
  [bound, superclass, interface, field, method, staticInit, instanceInit, returnType, receiver,
   parameter, thrown, localVariable, typecast, instanceof, creation, innerType, insertion,
   castInsertion]

/-- The kind of section that a word starts. -/
def ofKeyword? (word : String) : Option Section := all.find? fun s => s.keyword = word

end Section

/-- The words that end whatever stands before them: those that start a section, a package, a
definition or a class. -/
def isKeyword (word : String) : Bool :=
  word = "package" || word = "annotation" || word = "class" || (Section.ofKeyword? word).isSome

/-- How an open element takes sections. -/
inductive Context where
  | typeDecl
  | method
  | block
  /-- The expressions of an initializer. -/
  | code
  /-- A field of a class, up to its first expression. -/
  | field
  /-- A parameter, a receiver or a local variable. -/
  | variable
  | typeUse
  deriving DecidableEq, Repr

namespace Section

/-- The section is about an expression. -/
def isExpression : Section → Bool
  | .typecast | .instanceof | .creation => true
  | _ => false

/-- The section is about an insertion into source code. -/
def isInsertion : Section → Bool
  | .insertion | .castInsertion => true
  | _ => false

/-- Annotations may follow the header of the section. -/
def isMarked : Section → Bool
  | .staticInit | .instanceInit => false
  | _ => true

/-- How the element of a section takes further sections. An inner type takes none. -/
def context? : Section → Option Context
  | .field => some .field
  | .method => some .method
  | .staticInit | .instanceInit => some .block
  | .receiver | .parameter | .localVariable => some .variable
  | .innerType => none
  | _ => some .typeUse

end Section

namespace Context

/-- The section belongs to an open element of this kind. -/
def takes : Context → Section → Bool
  | .typeDecl, s =>
    s.isInsertion || s = .bound || s = .superclass || s = .interface || s = .field ||
      s = .method || s = .staticInit || s = .instanceInit
  | .method, s =>
    s.isInsertion || s.isExpression || s = .bound || s = .returnType || s = .receiver ||
      s = .parameter || s = .thrown || s = .localVariable
  | .block, s => s.isExpression || s = .localVariable
  | .code, s => s.isExpression
  | .field, s => s.isInsertion || s.isExpression || s = .innerType
  | .variable, s => s.isInsertion || s = .innerType
  | .typeUse, s => s = .innerType

/-- The slots between an open element and the slot of a section that belongs to it. -/
def lead : Context → Section → Path
  | .method, s =>
    if s.isExpression then [.body, .code] else if s = .localVariable then [.body] else []
  | .block, s => if s.isExpression then [.code] else []
  | .field, s => if s.isExpression then [.initializer] else []
  | _, _ => []

end Context

/-- An open element. -/
structure Frame where
  context : Context
  path : Path

namespace Frame

/-- The open element after a section that belongs to it. Once a field has an expression, only
further expressions belong to it. -/
def resume (frame : Frame) (s : Section) : Frame :=
  if frame.context = .field ∧ s.isExpression then ⟨.code, frame.path ++ [.initializer]⟩ else frame

/-- The innermost open element that a section belongs to, and those around it. -/
def find? (s : Section) : List Frame → Option (Frame × List Frame)
  | [] => none
  | frame :: rest => if frame.context.takes s then some (frame, rest) else find? s rest

end Frame

end AnnotationIndex
