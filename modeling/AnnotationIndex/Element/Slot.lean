import AnnotationIndex.Location

/-!
# Slots

An element of a scene sits in a slot of the element that it belongs to. The slot says what the
element is (`Slot.kind`) and where it belongs, by a name or a location. Slots of one family differ
in that name or location only; a few families have a single slot, which is always filled
(`Slot.isOwned`).
-/

namespace AnnotationIndex

/-- What an element is. -/
inductive Kind where
  /-- All packages and classes together. -/
  | scene
  | package
  /-- A type in use. -/
  | typeUse
  /-- A cast that is put into source code, with the type that is cast to. -/
  | cast
  /-- The expressions of a piece of code. -/
  | code
  /-- A method body or an initializer block. -/
  | block
  /-- A field, a parameter, a receiver or a local variable. -/
  | variable
  | method
  | typeDecl
  deriving DecidableEq, Repr

/-- Where an element sits. -/
inductive Slot where
  | package (name : String)
  /-- A class, an interface, an enumeration or an annotation type, by its qualified name. -/
  | typeDecl (name : String)
  | bound (location : Bound)
  | supertype (location : Supertype)
  | field (name : String)
  /-- A method, by its name and descriptor. -/
  | method (key : String)
  | staticInit (n : UInt32)
  | instanceInit (n : UInt32)
  /-- An annotation that is put into source code. -/
  | insertion (path : SourcePath)
  /-- A cast that is put into source code. -/
  | castInsertion (path : SourcePath)
  | returnType
  | receiver
  | parameter (n : UInt32)
  /-- The type of an exception in a `throws` clause. -/
  | thrown (n : UInt32)
  | body
  | localVariable (location : LocalVariable)
  /-- The expressions of a block. -/
  | code
  | typecast (position : CodePosition)
  | instanceof (position : CodePosition)
  | creation (position : CodePosition)
  /-- The expressions that initialize a variable. -/
  | initializer
  | innerType (path : InnerTypePath)
  deriving DecidableEq

/-- A way from an element to one that belongs to it. -/
abbrev Path := List Slot

/-- The families of slots. -/
inductive Family where
  | package | typeDecl | bound | supertype | field | method | staticInit | instanceInit
  | insertion | castInsertion | returnType | receiver | parameter | thrown | body
  | localVariable | code | typecast | instanceof | creation | initializer | innerType
  deriving DecidableEq, Repr

namespace Slot

/-- What sits in a slot. -/
def kind : Slot → Kind
  | .package _ => .package
  | .typeDecl _ => .typeDecl
  | .field _ | .receiver | .parameter _ | .localVariable _ => .variable
  | .method _ => .method
  | .staticInit _ | .instanceInit _ | .body => .block
  | .castInsertion _ => .cast
  | .code | .initializer => .code
  | .bound _ | .supertype _ | .insertion _ | .returnType | .thrown _ | .typecast _ | .instanceof _
  | .creation _ | .innerType _ => .typeUse

/-- The family of a slot. -/
def family : Slot → Family
  | .package _ => .package
  | .typeDecl _ => .typeDecl
  | .bound _ => .bound
  | .supertype _ => .supertype
  | .field _ => .field
  | .method _ => .method
  | .staticInit _ => .staticInit
  | .instanceInit _ => .instanceInit
  | .insertion _ => .insertion
  | .castInsertion _ => .castInsertion
  | .returnType => .returnType
  | .receiver => .receiver
  | .parameter _ => .parameter
  | .thrown _ => .thrown
  | .body => .body
  | .localVariable _ => .localVariable
  | .code => .code
  | .typecast _ => .typecast
  | .instanceof _ => .instanceof
  | .creation _ => .creation
  | .initializer => .initializer
  | .innerType _ => .innerType

/-- The slots that every element of their owner's kind fills from the start: the return type, the
receiver and the body of a method, and the expressions of a block. -/
def isOwned : Slot → Bool
  | .returnType | .receiver | .body | .code => true
  | _ => false

end Slot

/-- The entries of the given families, family by family; entries of one family keep their order. -/
def arrange {α : Type} (order : List Family) (entries : List (Slot × α)) : List (Slot × α) :=
  order.flatMap fun family => entries.filter fun entry => entry.1.family = family

end AnnotationIndex
