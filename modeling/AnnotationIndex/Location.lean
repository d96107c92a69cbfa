import AnnotationIndex.Numeral.Digits

/-!
# Locations

Where inside a type, a class or a method body something is annotated. Each kind of location has a
text, which section headers show, and a total order.
-/

namespace AnnotationIndex

/-- A 32-bit number in decimal. -/
def numberText (n : UInt32) : String := String.ofList (Numeral.decimal n.toNat)

/-- The texts one after the other, with `separator` between neighbours. -/
def joinWith (separator : String) : List String → String
  | [] => ""
  | [s] => s
  | s :: rest => s ++ separator ++ joinWith separator rest

/-- The way from a type down to an array component or a type argument: at each step the index of the
type argument, or 0 for an array component. The empty way leads to the type itself. -/
structure InnerTypePath where
  steps : List UInt32
  deriving DecidableEq, Repr

/-- A bound of a type parameter. -/
structure Bound where
  parameter : UInt32
  bound : UInt32
  deriving DecidableEq, Repr

/-- A local variable: its slot, and the range of bytecode over which it lives. -/
structure LocalVariable where
  index : UInt32
  start : UInt32
  length : UInt32
  deriving DecidableEq, Repr

/-- The position of a cast, an `instanceof` or a creation in a code block: an offset into the
bytecode, or the number of the expression among those of its kind in source order. -/
inductive CodePosition where
  | offset (n : UInt32)
  | index (n : UInt32)
  deriving DecidableEq, Repr

/-- A supertype of a class: -1 is the superclass and `n ≥ 0` the interface number `n`. Other
negative numbers name no supertype. -/
structure Supertype where
  index : Int32
  deriving DecidableEq

/-- One step down a syntax tree: the kind of the node, which child is meant, and which of several
such children. -/
structure SourceStep where
  kind : String
  child : String
  argument : Option UInt32 := none
  deriving DecidableEq, Repr

/-- A node of a syntax tree, as the way to it from a declaration. -/
structure SourcePath where
  steps : List SourceStep
  deriving DecidableEq, Repr

/-! ## Text -/

/-- The steps, with commas between them. -/
def InnerTypePath.text (p : InnerTypePath) : String :=
  joinWith "," (p.steps.map numberText)

/-- The parameter and its bound, joined by `&`. -/
def Bound.text (b : Bound) : String :=
  numberText b.parameter ++ "&" ++ numberText b.bound

/-- The slot, then the start after `#` and the length after `+`. -/
def LocalVariable.text (l : LocalVariable) : String :=
  numberText l.index ++ " #" ++ numberText l.start ++ "+" ++ numberText l.length

/-- An offset after `#`, an index after `*`. -/
def CodePosition.text : CodePosition → String
  | .offset n => "#" ++ numberText n
  | .index n => "*" ++ numberText n

/-- The kind and the child, joined by a point, then the argument. -/
def SourceStep.text (s : SourceStep) : String :=
  s.kind ++ "." ++ s.child ++
    match s.argument with
    | some n => " " ++ numberText n
    | none => ""

/-- The steps, with commas and spaces between them. -/
def SourcePath.text (p : SourcePath) : String :=
  joinWith ", " (p.steps.map SourceStep.text)

/-! ## Properties -/

/-- The position is an offset into the bytecode. -/
def CodePosition.isOffset : CodePosition → Bool
  | .offset _ => true
  | .index _ => false

namespace Supertype

/-- The superclass. -/
def superclass : Supertype := ⟨-1⟩

/-- The interface number `n`; `none` when the number is too great. -/
def ofInterface? (n : UInt32) : Option Supertype :=
  if n.toNat < IntegerKind.int.half then some ⟨Int32.ofNat n.toNat⟩ else none

/-- This is the superclass. -/
def isSuperclass (s : Supertype) : Bool := s = superclass

/-- The number of the interface; `none` for negative numbers. -/
def interface? (s : Supertype) : Option UInt32 :=
  if 0 ≤ s.index.toInt then some (UInt32.ofNat s.index.toInt.toNat) else none

end Supertype

/-! ## Order -/

/-- The lexicographic extension of a comparison to lists; a proper beginning comes first. -/
def compareLists {α : Type} (cmp : α → α → Ordering) : List α → List α → Ordering
  | [], [] => .eq
  | [], _ :: _ => .lt
  | _ :: _, [] => .gt
  | a :: as, b :: bs => (cmp a b).then (compareLists cmp as bs)

/-- Missing arguments come first. -/
def compareArguments : Option UInt32 → Option UInt32 → Ordering
  | none, none => .eq
  | none, some _ => .lt
  | some _, none => .gt
  | some a, some b => compare a b

/-- The order of texts by code points, which is that of their UTF-8 bytes. -/
def compareTexts (a b : String) : Ordering :=
  compareLists (fun c d => compare c.toNat d.toNat) a.toList b.toList

/-- Step by step. -/
def InnerTypePath.order (p q : InnerTypePath) : Ordering := compareLists compare p.steps q.steps

/-- By the parameter, then by the bound. -/
def Bound.order (a b : Bound) : Ordering :=
  (compare a.parameter b.parameter).then (compare a.bound b.bound)

/-- By the slot, then by the start, then by the length. -/
def LocalVariable.order (a b : LocalVariable) : Ordering :=
  ((compare a.index b.index).then (compare a.start b.start)).then (compare a.length b.length)

/-- Every offset before every index. -/
def CodePosition.order : CodePosition → CodePosition → Ordering
  | .offset a, .offset b => compare a b
  | .offset _, .index _ => .lt
  | .index _, .offset _ => .gt
  | .index a, .index b => compare a b

/-- By the number. -/
def Supertype.order (a b : Supertype) : Ordering := compare a.index.toInt b.index.toInt

/-- By the kind, then by the child, then by the argument. -/
def SourceStep.order (a b : SourceStep) : Ordering :=
  ((compareTexts a.kind b.kind).then (compareTexts a.child b.child)).then
    (compareArguments a.argument b.argument)

/-- Step by step. -/
def SourcePath.order (p q : SourcePath) : Ordering := compareLists SourceStep.order p.steps q.steps

end AnnotationIndex
