import PhraseGrammar.Demo.Failure

set_option autoImplicit false

/-! # The demonstration as a program

Runs the demonstration over the files below the working folder. Only the index file and the files
it lists are read.
-/

namespace PhraseGrammar

/-- Reads a file. At a path that leads nowhere or to a folder there is no file. -/
def readFile? (path : Text) : IO (Option (Except Text ByteArray)) := do
  try
    return some (.ok (← IO.FS.readBinFile (String.ofList path)))
  catch
    | .noFileOrDirectory .. | .inappropriateType .. => return none
    | e => return some (.error e.toString.toList)

/-- What can be read of the files of a grammar folder, by their paths. -/
def gatherFolder (root : Text) : IO (List (Text × Except Text ByteArray)) := do
  let indexPath := Path.join root Grammar.indexName
  let some index ← readFile? indexPath | return []
  let entries := ((Text.ofContent index).toOption.map Grammar.indexEntries).getD []
  let files ← entries.filterMapM fun entry => do
    let path := Path.join root entry
    return (← readFile? path).map fun content => (path, content)
  return (indexPath, index) :: files

end PhraseGrammar

open PhraseGrammar in
/-- Prints the demonstration, and ends with its exit code. -/
def main : IO UInt32 := do
  let files ← gatherFolder Demo.root
  let transcript := Demo.run fun path => files.lookup path
  transcript.lines.forM fun line => IO.println (String.ofList line)
  transcript.errorLines.forM fun line => IO.eprintln (String.ofList line)
  return transcript.exitCode
