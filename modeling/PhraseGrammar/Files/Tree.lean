import PhraseGrammar.Files.Path

set_option autoImplicit false

/-! # A tree of files

Files and folders held in memory, and how a path leads through them. A path starts at the tree's
own folder and is followed component by component: an empty component and `.` stay in a folder,
`..` leads to the folder above, and a name leads to a file or a folder. Nothing lies below a file,
not even an empty component, so a path with a `/` behind a file's name leads nowhere.

Where the tree's own folder lies is not known. So a path that starts at the root of the file
system, or leaves the tree on its way, leads nowhere either.
-/

namespace PhraseGrammar

/-- Files and folders, each with the names that lead to it from the tree's own folder. -/
structure FileTree where
  files : List (List Text × ByteArray) := []
  folders : List (List Text) := []

namespace FileTree

/-- Where a path has led so far. -/
inductive Place where
  | folder (names : List Text)
  | file (bytes : ByteArray)
  | nowhere

/-- What a name in a folder leads to. -/
def child (tree : FileTree) (names : List Text) (name : Text) : Place :=
  let names := names ++ [name]
  match tree.files.lookup names with
  | some bytes => .file bytes
  | none => if tree.folders.contains names then .folder names else .nowhere

/-- The folder above a folder of the tree. -/
def above (names : List Text) : Place :=
  if names.isEmpty then .nowhere else .folder names.dropLast

/-- Follows one component of a path. -/
def follow (tree : FileTree) (place : Place) (component : Text) : Place :=
  match place with
  | .folder names =>
    if component.isEmpty || component == Path.here then .folder names
    else if component == Path.up then above names
    else tree.child names component
  | .file _ | .nowhere => .nowhere

/-- Where a path leads. -/
def locate (tree : FileTree) (path : Text) : Place :=
  if Path.isAbsolute path || !Path.isUsable path then .nowhere
  else (Path.components path).foldl tree.follow (.folder [])

/-- Reads the file at a path. A file that is in the tree can be read. -/
def read? (tree : FileTree) (path : Text) : Option (Except Text ByteArray) :=
  match tree.locate path with
  | .file bytes => some (.ok bytes)
  | .folder _ | .nowhere => none

/-! ## Changing a tree -/

/-- The names that lead where a component leads, from the names that lead to a folder. -/
def extendNames (names : List Text) (component : Text) : List Text :=
  if component.isEmpty || component == Path.here then names
  else if component == Path.up then names.dropLast
  else names ++ [component]

/-- The names that the components of a path spell out. -/
def namesOf (components : List Text) : List Text := components.foldl extendNames []

/-- Adds every folder that the components of a path lead through. -/
def addFolders (tree : FileTree) (components : List Text) : FileTree :=
  let passed := (List.range components.length).map fun n => namesOf (components.take (n + 1))
  { tree with folders := tree.folders ++ passed.filter (!tree.folders.contains ·) }

/-- Adds the folder at a path, with the folders on the way. -/
def addFolder (tree : FileTree) (path : Text) : FileTree :=
  tree.addFolders (Path.components path)

/-- Removes a file; its folder stays. -/
def remove (tree : FileTree) (path : Text) : FileTree :=
  { tree with files := tree.files.filter (·.1 != namesOf (Path.components path)) }

/-- Writes a file, with the folders on the way. -/
def write (tree : FileTree) (path : Text) (bytes : ByteArray) : FileTree :=
  let components := Path.components path
  let tree := (tree.remove path).addFolders components.dropLast
  { tree with files := (namesOf components, bytes) :: tree.files }

end FileTree

end PhraseGrammar
