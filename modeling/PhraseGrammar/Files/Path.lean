import PhraseGrammar.Text.Basic

set_option autoImplicit false

/-! # Paths

Paths are texts with `/` between their components. They are joined without being normalised, so
that a message shows a path as it was put together.
-/

namespace PhraseGrammar.Path

/-- The component that stays in a folder. -/
def here : Text := ['.']

/-- The component that leads to the folder above. -/
def up : Text := ['.', '.']

/-- A path from the root of the file system. -/
def isAbsolute (path : Text) : Bool := path.head? == some '/'

/-- The components of a path, empty ones included. -/
def components (path : Text) : List Text := path.splitOn '/'

/-- The largest size of a path, in bytes: a page of memory holds it and its end mark. -/
def largestSize : Nat := 4095

/-- A path that a file system accepts. -/
def isUsable (path : Text) : Bool := Text.byteSize path ≤ largestSize

/-- A path below another one. An absolute path stays as it is, and the two are separated by
one `/` unless the first is empty or ends in one. -/
def join (base path : Text) : Text :=
  if isAbsolute path then path
  else if base.isEmpty || base.getLast? == some '/' then base ++ path
  else base ++ '/' :: path

/-- A folder as it is given by a user: `.` and `./` stand for the working folder. -/
def folder (workingFolder path : Text) : Text :=
  if path == here || path == ['.', '/'] then workingFolder else path

end PhraseGrammar.Path
