/-!
# Kinds of numbers

The integer types and the floating-point types of the Java language, with the keywords that name
them and the bounds of their values.
-/

namespace AnnotationIndex

/-- The integer types. -/
inductive IntegerKind where
  | byte | short | int | long
  deriving DecidableEq, Repr

namespace IntegerKind

/-- The keyword of an integer type. -/
def keyword : IntegerKind → String
  | .byte => "byte"
  | .short => "short"
  | .int => "int"
  | .long => "long"

/-- The number of negative values, which is half of all. -/
def half : IntegerKind → Nat
  | .byte => 0x80
  | .short => 0x8000
  | .int => 0x80000000
  | .long => 0x8000000000000000

/-- The integer lies in the two's-complement range of the type. -/
def Admits (kind : IntegerKind) (n : Int) : Prop :=
  -(kind.half : Int) ≤ n ∧ n < (kind.half : Int)

instance (kind : IntegerKind) (n : Int) : Decidable (kind.Admits n) :=
  inferInstanceAs (Decidable (_ ∧ _))

/-- The values of an integer type. -/
abbrev Range (kind : IntegerKind) : Type := { n : Int // kind.Admits n }

end IntegerKind

/-- The floating-point types: the IEEE binary formats of 32 and 64 bits. -/
inductive Width where
  | single | double
  deriving DecidableEq, Repr

namespace Width

/-- The keyword of a floating-point type. -/
def keyword : Width → String
  | .single => "float"
  | .double => "double"

/-- The number of significant bits. -/
def precision : Width → Nat
  | .single => 24
  | .double => 53

/-- The exponent of the least positive value. -/
def minExponent : Width → Int
  | .single => -149
  | .double => -1074

/-- The exponent of the last significant bit of the greatest finite value. -/
def maxExponent : Width → Int
  | .single => 104
  | .double => 971

/-- The number of decimal digits that always suffice to tell two values apart. -/
def decimalDigits : Width → Nat
  | .single => 9
  | .double => 17

end Width

end AnnotationIndex
