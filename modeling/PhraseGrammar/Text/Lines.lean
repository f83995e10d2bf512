import PhraseGrammar.Text.Basic

set_option autoImplicit false

/-! # Lines of a text

A line ends at a line feed; one carriage return directly before the line feed belongs to the
line's end. What follows the last line feed is a line only if it is not empty, and it keeps its
carriage return.
-/

namespace PhraseGrammar.Text

/-- A text without one carriage return at its end. -/
def dropReturn (t : Text) : Text :=
  if t.getLast? = some '\r' then t.dropLast else t

/-- The lines, given the parts of a text between its line feeds. -/
def closeLines : List Text → List Text
  | [] => []
  | [last] => if last.isEmpty then [] else [last]
  | part :: part' :: parts => dropReturn part :: closeLines (part' :: parts)

/-- The lines of a text. -/
def lines (t : Text) : List Text := closeLines (t.splitOn '\n')

/-- The texts one below the other, without a line feed behind the last. -/
def joinLines (ls : List Text) : Text := List.intercalate ['\n'] ls

end PhraseGrammar.Text
