import PhraseGrammar.Files.Path
import PhraseGrammar.Grammar.Source

set_option autoImplicit false

/-! # Grammar folders

A grammar folder holds an index file, which lists the grammar files one on a line, by their paths
from the folder. The files are read in the order of the list, and their categories are attributed
to the entries of the list.

How files are read is left open: a `Reader` gives the content of the file at a path, or says why
the file cannot be read.
-/

namespace PhraseGrammar

/-- Reads the file at a path, if there is a file: gives its content, or why it cannot be read. -/
abbrev Reader := Text → Option (Except Text ByteArray)

/-- The text with the given UTF-8 form. -/
def Text.ofUtf8? (bytes : ByteArray) : Option Text := (String.fromUTF8? bytes).map String.toList

/-- Why a file that is not valid UTF-8 cannot be read as a text. -/
def Text.notUtf8 : Text := "stream did not contain valid UTF-8".toList

/-- The text of a file with the given content, or why it cannot be read. -/
def Text.ofContent (content : Except Text ByteArray) : Except Text Text :=
  content.bind fun bytes => (ofUtf8? bytes).elim (.error notUtf8) .ok

/-- Reads the file at a path as a text. -/
def Reader.text? (read : Reader) (path : Text) : Option (Except Text Text) :=
  (read path).map Text.ofContent

namespace Grammar

/-- The entries of an index: its lines without blanks at their ends, and without blank lines. -/
def indexEntries (index : Text) : List Text :=
  (index.lines.map Text.trim).filter (!·.isEmpty)

/-- Adds the categories of the file of one entry. -/
def addFile (g : Grammar) (read : Reader) (root entry : Text) : Extended :=
  let path := Path.join root entry
  match read.text? path with
  | none => ⟨g, some ⟨.noFile path, some indexName⟩⟩
  | some (.error reason) => ⟨g, some ⟨.unreadable path reason, some entry⟩⟩
  | some (.ok text) => g.addText text (some entry)

/-- Adds the categories of the files of several entries, in order. -/
def addFiles (g : Grammar) (read : Reader) (root : Text) : List Text → Extended
  | [] => ⟨g, none⟩
  | entry :: rest => (g.addFile read root entry).andThen (·.addFiles read root rest)

/-- Adds the categories of the folder `root`. -/
def addFolder (g : Grammar) (read : Reader) (root : Text) : Extended :=
  let path := Path.join root indexName
  match read.text? path with
  | none => ⟨g, some ⟨.noIndex path, none⟩⟩
  | some (.error reason) => ⟨g, some ⟨.unreadable path reason, none⟩⟩
  | some (.ok index) => g.addFiles read root (indexEntries index)

end Grammar

end PhraseGrammar
