import AnnotationIndex.Text.Class
import AnnotationIndex.Error

/-!
# Escape sequences

The spellings of characters inside string and character literals. `encodeChar` is the one spelling
that is written. `decodeEscape` reads every spelling that starts with a backslash.
-/

namespace AnnotationIndex.Text

/-- The character of a hexadecimal digit, in lower case. -/
def hexDigit (n : Nat) : Char :=
  if n < 10 then Char.ofNat (48 + n) else Char.ofNat (87 + n)

/-- A number below 65536 as four hexadecimal digits. -/
def fourHexDigits (n : Nat) : List Char :=
  [hexDigit (n / 4096 % 16), hexDigit (n / 256 % 16), hexDigit (n / 16 % 16), hexDigit (n % 16)]

/-- The letter that stands for a character after a backslash, for the characters that are written
so. -/
def escapeLetter? (c : Char) : Option Char :=
  if c = '\\' then some '\\'
  else if c = '\n' then some 'n'
  else if c = '\t' then some 't'
  else if c = '\r' then some 'r'
  else if c = '\x08' then some 'b'
  else if c = '\x0c' then some 'f'
  else none

/-- The character that a letter stands for after a backslash. -/
def simpleEscape? (letter : Char) : Option Char :=
  if letter = 'n' then some '\n'
  else if letter = 't' then some '\t'
  else if letter = 'r' then some '\r'
  else if letter = 'b' then some '\x08'
  else if letter = 'f' then some '\x0c'
  else if letter = 's' then some ' '
  else if letter = '\\' ∨ letter = '\'' ∨ letter = '"' then some letter
  else none

/-- The written spelling of a character inside a literal that `quote` delimits: the simple escapes,
`\u` escapes for the other control characters, and every other character as itself. -/
def encodeChar (quote c : Char) : List Char :=
  match escapeLetter? c with
  | some letter => ['\\', letter]
  | none =>
    if c = quote then ['\\', c]
    else if isControl c then '\\' :: 'u' :: fourHexDigits c.toNat
    else [c]

/-- A text as a literal that `quote` delimits. -/
def encode (quote : Char) (text : List Char) : List Char :=
  quote :: text.flatMap (encodeChar quote) ++ [quote]

/-- The value of a digit in any base up to 16; both cases of `a` to `f` are digits. -/
def digitValue? (base : Nat) (c : Char) : Option Nat :=
  let n :=
    if '0' ≤ c ∧ c ≤ '9' then c.toNat - 48
    else if 'a' ≤ c ∧ c ≤ 'f' then c.toNat - 87
    else if 'A' ≤ c ∧ c ≤ 'F' then c.toNat - 55
    else 16
  if n < base then some n else none

/-- What is wrong with a literal, and how many line breaks were passed before that showed. -/
structure LiteralFault where
  cause : Cause
  lineBreaks : Nat

/-- A fault that shows at the character `c`, which has been read. -/
def LiteralFault.at (cause : Cause) (c : Char) : LiteralFault :=
  ⟨cause, if c = '\n' then 1 else 0⟩

/-- Reads `count` hexadecimal digits after the value `acc`. -/
def hexDigits : (count acc : Nat) → List Char → Except LiteralFault (Nat × List Char)
  | 0, acc, cs => .ok (acc, cs)
  | _ + 1, _, [] => .error ⟨.hexDigitsExpected, 0⟩
  | count + 1, acc, c :: cs =>
    match digitValue? 16 c with
    | some d => hexDigits count (acc * 16 + d) cs
    | none => .error (.at .hexDigitsExpected c)

/-- Reads the rest of a `\u` escape: any number of further `u`, then four hexadecimal digits. -/
def codeUnit (cs : List Char) : Except LiteralFault (Nat × List Char) :=
  hexDigits 4 0 (cs.dropWhile (· = 'u'))

/-- The first half of a surrogate pair. -/
def isHighSurrogate (unit : Nat) : Bool := 0xd800 ≤ unit && unit < 0xdc00

/-- The second half of a surrogate pair. -/
def isLowSurrogate (unit : Nat) : Bool := 0xdc00 ≤ unit && unit < 0xe000

/-- The character of a surrogate pair. -/
def surrogatePair (high low : Nat) : Char :=
  Char.ofNat (0x10000 + (high - 0xd800) * 0x400 + (low - 0xdc00))

/-- Reads a `\u` escape after its first `u`. A first half of a surrogate pair that another `\u`
escape follows is read together with it. -/
def unicodeEscape (cs : List Char) : Except LiteralFault (Char × List Char) :=
  match codeUnit cs with
  | .error fault => .error fault
  | .ok (unit, rest) =>
    if isHighSurrogate unit then
      match rest with
      | '\\' :: 'u' :: rest =>
        match codeUnit rest with
        | .error fault => .error fault
        | .ok (low, rest) =>
          if isLowSurrogate low then .ok (surrogatePair unit low, rest)
          else .error ⟨.invalidSurrogatePair, 0⟩
      | _ => .error ⟨.invalidUnicodeEscape, 0⟩
    else if isLowSurrogate unit then .error ⟨.invalidUnicodeEscape, 0⟩
    else .ok (Char.ofNat unit, rest)

/-- Reads up to `count` octal digits after the value `acc`. -/
def octalDigits : (count acc : Nat) → List Char → Nat × List Char
  | 0, acc, cs => (acc, cs)
  | _ + 1, acc, [] => (acc, [])
  | count + 1, acc, c :: cs =>
    match digitValue? 8 c with
    | some d => octalDigits count (acc * 8 + d) cs
    | none => (acc, c :: cs)

/-- Reads an escape sequence after its backslash. An octal escape has at most three digits, and at
most two when the first is above `3`, so that it denotes at most U+00FF. -/
def decodeEscape : List Char → Except LiteralFault (Char × List Char)
  | [] => .error ⟨.unterminatedEscape, 0⟩
  | c :: cs =>
    match simpleEscape? c with
    | some d => .ok (d, cs)
    | none =>
      if c = 'u' then unicodeEscape cs
      else
        match digitValue? 8 c with
        | some d =>
          let (n, rest) := octalDigits (if d ≤ 3 then 2 else 1) d cs
          .ok (Char.ofNat n, rest)
        | none => .error (.at (.invalidEscape c) c)

end AnnotationIndex.Text
