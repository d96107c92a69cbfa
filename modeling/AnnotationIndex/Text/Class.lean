import AnnotationIndex.Text.Letters
import AnnotationIndex.Text.Numerals

/-!
# Character classes

The classes of characters that the text format tells apart. Letters and numerals follow the tables
of Unicode; below U+0080 the rule is written out, so that the tables are consulted for other
characters only.
-/

namespace AnnotationIndex.Text

/-- Some range of the table holds the code point. -/
def inRanges (table : List (Nat × Nat)) (n : Nat) : Bool :=
  table.any fun r => r.1 ≤ n && n ≤ r.2

/-- A letter: the property Alphabetic. -/
def isLetter (c : Char) : Bool :=
  if c.toNat < 0x80 then c.isAlpha
  else if c.toNat < 0x2000 then inRanges lettersLow c.toNat
  else if c.toNat < 0x10000 then inRanges lettersMiddle c.toNat
  else inRanges lettersHigh c.toNat

/-- A numeral: a decimal digit, a letter number or another number, of any script. -/
def isNumeral (c : Char) : Bool :=
  if c.toNat < 0x80 then c.isDigit else inRanges numerals c.toNat

/-- White space: the property White_Space. -/
def isBlank (c : Char) : Bool :=
  let n := c.toNat
  (9 ≤ n && n ≤ 13) || n = 0x20 || n = 0x85 || n = 0xa0 || n = 0x1680 ||
    (0x2000 ≤ n && n ≤ 0x200a) || n = 0x2028 || n = 0x2029 || n = 0x202f || n = 0x205f || n = 0x3000

/-- A control character: the general category Cc. -/
def isControl (c : Char) : Bool :=
  c.toNat < 0x20 || (0x7f ≤ c.toNat && c.toNat < 0xa0)

/-- The characters that words are made of: letters, numerals, `_`, `$` and `-`. -/
def isWordChar (c : Char) : Bool :=
  isLetter c || isNumeral c || c = '_' || c = '$' || c = '-'

/-- The characters that an identifier may start with. -/
def startsIdentifier (c : Char) : Bool :=
  isLetter c || c = '_' || c = '$'

/-- A word whose first character may start an identifier. -/
def isIdentifier (word : String) : Bool :=
  match word.toList with
  | [] => false
  | c :: _ => startsIdentifier c

end AnnotationIndex.Text
