import AnnotationIndex.Annotation.Unify
import AnnotationIndex.Scene

/-!
# The definitions that a scene uses

`Scene.definitions` lists the definitions of all annotations in a scene, each type once and after
the types that it mentions. Definitions of one type are unified on the way; two that do not unify
are a conflict. The annotations of blocks and of expressions themselves do not count, because an
index has no place for them.
-/

namespace AnnotationIndex

/-- Two definitions of an annotation type that do not unify. -/
structure Conflict where
  name : String
  deriving DecidableEq, Repr

/-- The wording of a conflict. -/
def Conflict.message (c : Conflict) : String :=
  "conflicting definitions of annotation type " ++ c.name

/-! ## Uses -/

/-- The order in which the elements that belong to one element are looked at. -/
def Family.collectingOrder : List Family :=
  [package, typeDecl, innerType, initializer, bound, supertype, field, staticInit, instanceInit,
   method, returnType, receiver, parameter, thrown, body, localVariable, code, typecast, instanceof,
   creation, insertion, castInsertion]

/-- The annotations of an element of this kind have a place in an index. -/
def Kind.isMarked : Kind → Bool
  | .block | .code => false
  | _ => true

mutual

/-- The annotations of an element of the given kind and of everything that belongs to it. -/
def Element.uses (kind : Kind) : Element → List Annotation
  | ⟨annotations, _, children⟩ =>
    (if kind.isMarked then annotations else []) ++
      (arrange Family.collectingOrder (Element.usesBySlot children)).flatMap (·.2)

/-- The annotations in each slot. -/
def Element.usesBySlot : List (Slot × Element) → List (Slot × List Annotation)
  | [] => []
  | (slot, child) :: rest => (slot, child.uses slot.kind) :: Element.usesBySlot rest

end

/-! ## Collecting -/

/-- The definitions that have been met: one for each type, by its name, and the names of the types
that are being looked at. -/
structure Collection where
  merged : List (String × Definition)
  pending : List String

namespace Collection

/-- No definition has been met. -/
def empty : Collection := ⟨[], []⟩

/-- The definition adds nothing to what is known of its type. -/
def covers (c : Collection) (d : Definition) : Bool :=
  match Keyed.get? d.name c.merged with
  | some known => known.beq d && (d.retention.isNone || known.retention = d.retention)
  | none => false

/-- Begins to look at the type of the given name. -/
def enter (c : Collection) (name : String) : Collection := { c with pending := name :: c.pending }

/-- Ends looking at a type and unifies its definition with what is known. -/
def leave (c : Collection) (d : Definition) : Except Conflict Collection :=
  let pending := c.pending.erase d.name
  match Keyed.get? d.name c.merged with
  | none => .ok ⟨c.merged ++ [(d.name, d)], pending⟩
  | some known =>
    match known.unify d with
    | some d => .ok ⟨Keyed.put d.name d c.merged, pending⟩
    | none => .error ⟨d.name⟩

end Collection

mutual

/-- Collects a definition, after those that it mentions. -/
def Definition.collect : Definition → Collection → Except Conflict Collection
  | ⟨name, retention, fields, metas⟩, c =>
    let d : Definition := ⟨name, retention, fields, metas⟩
    if c.covers d || c.pending.contains name then .ok c
    else
      match FieldType.collectAll fields (c.enter name) with
      | .error e => .error e
      | .ok c =>
        match Annotation.collectAll metas c with
        | .error e => .error e
        | .ok c => c.leave d

/-- Collects the definition that a field type mentions. -/
def FieldType.collect : FieldType → Collection → Except Conflict Collection
  | .nested d, c => d.collect c
  | .array element, c => element.collect c
  | _, c => .ok c

/-- Collects the definitions that the fields mention. -/
def FieldType.collectAll : List (String × FieldType) → Collection → Except Conflict Collection
  | [], c => .ok c
  | (_, type) :: rest, c =>
    match type.collect c with
    | .error e => .error e
    | .ok c => FieldType.collectAll rest c

/-- Collects the definition of an annotation and those of the annotations in its values. -/
def Annotation.collect : Annotation → Collection → Except Conflict Collection
  | ⟨definition, values⟩, c =>
    match definition.collect c with
    | .error e => .error e
    | .ok c => Value.collectNamed values c

/-- Collects the definitions of several annotations. -/
def Annotation.collectAll : List Annotation → Collection → Except Conflict Collection
  | [], c => .ok c
  | a :: rest, c =>
    match a.collect c with
    | .error e => .error e
    | .ok c => Annotation.collectAll rest c

/-- Collects the definitions of the annotations in a value. -/
def Value.collect : Value → Collection → Except Conflict Collection
  | .nested a, c => a.collect c
  | .array elements, c => Value.collectAll elements c
  | _, c => .ok c

/-- Collects the definitions of the annotations in several values. -/
def Value.collectAll : List Value → Collection → Except Conflict Collection
  | [], c => .ok c
  | v :: rest, c =>
    match v.collect c with
    | .error e => .error e
    | .ok c => Value.collectAll rest c

/-- Collects the definitions of the annotations in named values. -/
def Value.collectNamed : List (String × Value) → Collection → Except Conflict Collection
  | [], c => .ok c
  | (_, v) :: rest, c =>
    match v.collect c with
    | .error e => .error e
    | .ok c => Value.collectNamed rest c

end

/-! ## Ordering -/

/-- The names of the types that a definition mentions: first in its fields, then in the annotations
on the type. -/
def Definition.mentions (d : Definition) : List String :=
  d.fields.filterMap (fun f => (f.2.annotationType?).map (·.name)) ++ d.metas.map (·.name)

/-- The type, with the definition of that name among those given in place of the one it holds. -/
def FieldType.relink (definitions : List (String × Definition)) : FieldType → FieldType
  | .nested d => .nested ((Keyed.get? d.name definitions).getD d)
  | .array element => .array (element.relink definitions)
  | type => type

/-- The definition with its fields relinked. -/
def Definition.relink (definitions : List (String × Definition)) (d : Definition) : Definition :=
  { d with fields := d.fields.map fun f => (f.1, f.2.relink definitions) }

/-- The types that have been visited, and the definitions that are in their final order. -/
structure Ordered where
  visited : List String
  final : List (String × Definition)

namespace Ordered

/-- Puts the definition of a name in order, after those that it mentions. The first argument bounds
the length of a chain of mentions, in which no name occurs twice. -/
def visit (merged : List (String × Definition)) : Nat → String → Ordered → Ordered
  | 0, _, o => o
  | bound + 1, name, o =>
    if o.visited.contains name then o
    else
      let o := { o with visited := name :: o.visited }
      match Keyed.get? name merged with
      | none => o
      | some d =>
        let o := d.mentions.foldl (fun o mention => visit merged bound mention o) o
        { o with final := o.final ++ [(name, d.relink o.final)] }

/-- The definitions, each after those that it mentions. -/
def ofMerged (merged : List (String × Definition)) : List Definition :=
  let o := merged.foldl (fun o entry => visit merged (merged.length + 1) entry.1 o) ⟨[], []⟩
  o.final.map (·.2)

end Ordered

/-- The definitions that a scene uses, each after those that it mentions. -/
def Scene.definitions (s : Scene) : Except Conflict (List Definition) :=
  match Annotation.collectAll (s.root.uses .scene) .empty with
  | .error e => .error e
  | .ok c => .ok (Ordered.ofMerged c.merged)

end AnnotationIndex
