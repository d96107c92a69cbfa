import AnnotationIndex.Keyed
import AnnotationIndex.Layout
import AnnotationIndex.Location

/-!
# Interchange forms

Locations and layouts as trees of the data that JSON knows. A structure is an object with a member
for each field, and may also be read from an array of its fields in order; members that are no
fields do not count. A case of an inductive type is an object whose one member bears the name of the
case.
-/

namespace AnnotationIndex

/-- A tree of data. -/
inductive Data where
  | null
  | bool (b : Bool)
  | integer (n : Int)
  /-- A number with a point or an exponent. -/
  | fraction
  | string (s : String)
  | array (elements : List Data)
  | object (members : List (String × Data))
  deriving Inhabited

namespace Data

/-- A number of 32 bits without a sign. -/
def number? : Data → Option UInt32
  | .integer n => if 0 ≤ n ∧ n < (UInt32.size : Int) then some (UInt32.ofNat n.toNat) else none
  | _ => none

/-- A text. -/
def string? : Data → Option String
  | .string s => some s
  | _ => none

/-- The elements of an array, each read by `f`. -/
def array? {α : Type} (f : Data → Option α) : Data → Option (List α)
  | .array elements => elements.mapM f
  | _ => none

/-- The fields of a structure, from an object by their names or from an array in order. A missing
member is `none`; an array may be short by as many fields as `optional` says. -/
def fields? (names : List String) (optional : Nat) : Data → Option (List (Option Data))
  | .object members => some (names.map fun name => Keyed.get? name members)
  | .array elements =>
    if elements.length ≤ names.length ∧ names.length ≤ elements.length + optional then
      some (elements.map some ++ List.replicate (names.length - elements.length) none)
    else none
  | _ => none

/-- A number as data. -/
def ofNumber (n : UInt32) : Data := .integer n.toNat

end Data

/-- Types with an interchange form. -/
class Interchange (α : Type) where
  ofData? : Data → Option α
  toData : α → Data

/-- A location of an inner type is the list of its steps. -/
instance : Interchange InnerTypePath where
  ofData? d := (d.array? Data.number?).map InnerTypePath.mk
  toData p := .array (p.steps.map .ofNumber)

/-- A bound is an object of two numbers. -/
instance : Interchange Bound where
  ofData? d :=
    match d.fields? ["param_index", "bound_index"] 0 with
    | some [some parameter, some bound] => do some ⟨← parameter.number?, ← bound.number?⟩
    | _ => none
  toData b := .object [("param_index", .ofNumber b.parameter), ("bound_index", .ofNumber b.bound)]

/-- A local variable is an object of three numbers. -/
instance : Interchange LocalVariable where
  ofData? d :=
    match d.fields? ["index", "scope_start", "scope_length"] 0 with
    | some [some index, some start, some length] =>
      do some ⟨← index.number?, ← start.number?, ← length.number?⟩
    | _ => none
  toData l :=
    .object [("index", .ofNumber l.index), ("scope_start", .ofNumber l.start),
      ("scope_length", .ofNumber l.length)]

/-- A position in code is an object that names its case. -/
instance : Interchange CodePosition where
  ofData?
    | .object [("Offset", n)] => n.number?.map .offset
    | .object [("Index", n)] => n.number?.map .index
    | _ => none
  toData
    | .offset n => .object [("Offset", .ofNumber n)]
    | .index n => .object [("Index", .ofNumber n)]

/-- A supertype is its number, which has a sign. -/
instance : Interchange Supertype where
  ofData?
    | .integer n => if IntegerKind.int.Admits n then some ⟨Int32.ofInt n⟩ else none
    | _ => none
  toData s := .integer s.index.toInt

/-- The argument of a step: a missing one is the same as `null` in an object. -/
def SourceStep.argumentOfData? : Option Data → Option (Option UInt32)
  | none => some none
  | some .null => some none
  | some d => d.number?.map some

/-- A step is an object of its kind, the child that it selects and its argument. -/
instance : Interchange SourceStep where
  ofData? d :=
    match d.fields? ["kind", "child_selector", "argument"] 0 with
    | some [some kind, some child, argument] =>
      do some ⟨← kind.string?, ← child.string?, ← SourceStep.argumentOfData? argument⟩
    | _ => none
  toData s :=
    .object [("kind", .string s.kind), ("child_selector", .string s.child),
      ("argument", (s.argument.map .ofNumber).getD .null)]

/-- A path in a source is the list of its steps. -/
instance : Interchange SourcePath where
  ofData? d := (d.array? Interchange.ofData?).map SourcePath.mk
  toData p := .array (p.steps.map Interchange.toData)

/-- The name of an indentation style. -/
def IndentStyle.name : IndentStyle → String
  | .spaces => "spaces"
  | .tabs => "tabs"

/-- The indentation style of the given name. -/
def IndentStyle.ofName? (name : String) : Option IndentStyle :=
  [spaces, tabs].find? fun style => style.name = name

/-- A case without fields may also be an object, whose one member holds nothing. -/
def IndentStyle.ofData? : Data → Option IndentStyle
  | .string name => ofName? name
  | .object [(name, .null)] => ofName? name
  | _ => none

/-- A width: a number of 64 bits without a sign. -/
def Layout.widthOfData? : Data → Option Nat
  | .integer n => if 0 ≤ n ∧ n < (UInt64.size : Int) then some n.toNat else none
  | _ => none

/-- What is missing is as in the standard layout. -/
instance : Interchange Layout where
  ofData? d :=
    match d.fields? ["indent_width", "indent_style"] 2 with
    | some [width, style] => do
      let width ← match width with
        | some d => Layout.widthOfData? d
        | none => some Layout.standard.width
      let style ← match style with
        | some d => IndentStyle.ofData? d
        | none => some Layout.standard.style
      some ⟨width, style⟩
    | _ => none
  toData l := .object [("indent_width", .integer l.width), ("indent_style", .string l.style.name)]

end AnnotationIndex
