/-!
# Layout

How written text is indented.
-/

namespace AnnotationIndex

/-- What indentation consists of. -/
inductive IndentStyle where
  | spaces | tabs
  deriving DecidableEq, Repr

/-- The layout of written text: the width of a level of indentation counts for spaces only. -/
structure Layout where
  width : Nat := 4
  style : IndentStyle := .spaces
  deriving DecidableEq, Repr

/-- A line of text, and how deep it is indented. -/
structure Line where
  depth : Nat
  text : String

namespace Layout

/-- Four spaces for each level. -/
def standard : Layout := {}

/-- The white space before a line. -/
def indent (layout : Layout) (depth : Nat) : String :=
  match layout.style with
  | .spaces => String.ofList (List.replicate (depth * layout.width) ' ')
  | .tabs => String.ofList (List.replicate depth '\t')

/-- A line with its indentation and its end. -/
def line (layout : Layout) (l : Line) : String := layout.indent l.depth ++ l.text ++ "\n"

/-- The text of several lines. -/
def text (layout : Layout) : List Line → String
  | [] => ""
  | l :: rest => layout.line l ++ layout.text rest

end Layout

end AnnotationIndex
