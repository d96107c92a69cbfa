/-!
# Tokens

An index text is read as a sequence of tokens. A lexeme is what a token stands for; a token adds the
line on which it starts.
-/

namespace AnnotationIndex

/-- What a token stands for. -/
inductive Lexeme where
  /-- A run of word characters. -/
  | word (text : String)
  /-- A string literal, by its content. -/
  | string (text : String)
  /-- A character literal, by its content. -/
  | char (c : Char)
  /-- Any other character. -/
  | symbol (c : Char)
  deriving DecidableEq, Repr

/-- A lexeme and the line on which it starts; lines count from 1. -/
structure Token where
  lexeme : Lexeme
  line : Nat
  deriving DecidableEq, Repr

namespace Lexeme

/-- The text of a word. -/
def word? : Lexeme → Option String
  | .word text => some text
  | _ => none

/-- The spelling of a lexeme that has only one. -/
def spelling? : Lexeme → Option String
  | .word text => some text
  | .symbol c => some c.toString
  | _ => none

end Lexeme

/-- The tokens of a whole text, and the line on which the text ends. -/
structure TokenizedText where
  tokens : List Token
  lastLine : Nat
  deriving DecidableEq, Repr

end AnnotationIndex
