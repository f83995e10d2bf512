import PhraseGrammar.Grammar.Basic
import PhraseGrammar.Text.Lines

set_option autoImplicit false

/-! # Grammar sources

A grammar is written in lines. A line that begins with `*` declares the category named by the
rest of the line; the other lines are its alternatives. Blank lines, and lines whose first
character other than a blank is `#`, are ignored. An alternative is trimmed and loses one
backslash at its start, so that `\#` begins an alternative with `#`.

A category is added when its last line has been read, so a source that fails half-way leaves
the categories that were complete before the fault.
-/

namespace PhraseGrammar.Grammar

/-- What a line of a source says. -/
inductive Line where
  /-- Nothing: a blank line or a comment. -/
  | ignored
  /-- A category of this name begins. -/
  | declaration (name : Text)
  /-- One alternative of the current category. -/
  | alternative (fragment : Text)
  deriving DecidableEq, Repr

namespace Line

/-- A text without one backslash at its start. -/
def unescape : Text → Text
  | '\\' :: rest => rest
  | t => t

/-- Reads a line. Whether it declares a category is seen before it is trimmed. -/
def ofText (line : Text) : Line :=
  let trimmed := line.trim
  if trimmed.isEmpty || trimmed.head? == some '#' then .ignored
  else
    match line with
    | '*' :: name => .declaration name
    | _ => .alternative (unescape trimmed)

end Line

/-- A category whose lines are still being read, with its alternatives newest first. -/
structure Draft where
  name : Text
  newestFirst : List Text := []

/-- Adds the drafted category, if there is one. -/
def addDraft (g : Grammar) (draft : Option Draft) (origin : Option Text) : Extended :=
  match draft with
  | none => ⟨g, none⟩
  | some d => g.add d.name d.newestFirst.reverse origin

/-- Reads the remaining lines, with the category that is being read. An alternative before the
first declaration belongs to no category and is dropped. -/
def addFrom (origin : Option Text) : Grammar → Option Draft → List Text → Extended
  | g, draft, [] => g.addDraft draft origin
  | g, draft, line :: rest =>
    match Line.ofText line with
    | .ignored => addFrom origin g draft rest
    | .declaration name =>
      (g.addDraft draft origin).andThen fun g => addFrom origin g (some { name }) rest
    | .alternative fragment =>
      let longer := draft.map fun d => { d with newestFirst := fragment :: d.newestFirst }
      addFrom origin g longer rest

/-- Adds the categories that the lines declare. -/
def addLines (g : Grammar) (lines : List Text) (origin : Option Text) : Extended :=
  addFrom origin g none lines

/-- Adds the categories that a text declares. -/
def addText (g : Grammar) (text : Text) (origin : Option Text) : Extended :=
  g.addLines text.lines origin

end PhraseGrammar.Grammar
