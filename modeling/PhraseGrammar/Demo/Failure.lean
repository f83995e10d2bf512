import PhraseGrammar.Demo
import PhraseGrammar.Text.Quoted

set_option autoImplicit false

/-! # The error that ended a demonstration

A demonstration that an error has ended shows the error by its structure: the kind of the error,
and its fields by name, with texts in quotes.
-/

namespace PhraseGrammar

namespace ErrorStructure

/-- A quoted text. -/
def text (t : Text) : String := String.ofList t.quoted

/-- A quoted wording. -/
def wording (s : String) : String := text s.toList

/-- A kind with named fields. -/
def fields (kind : String) (fields : List (String × String)) : String :=
  kind ++ " \x7b " ++ ", ".intercalate (fields.map fun (name, value) => name ++ ": " ++ value)
    ++ " \x7d"

/-- A kind around another one. -/
def around (kind inner : String) : String := kind ++ "(" ++ inner ++ ")"

/-- A text that may be missing. -/
def optionalText : Option Text → String
  | some t => around "Some" (text t)
  | none => "None"

/-- A fault at a bracket of a query. -/
def bracket (kind : String) (column : Nat) (query : Text) : String :=
  around "Input" (fields kind [("column", toString column), ("query", text query)])

/-- A fault at a limit. -/
def limit (kind : String) (n : Nat) : String :=
  around "Input" (fields kind [("limit", toString n)])

/-- A fault of a tag. -/
def tag (failure : String) (expression : Text) : String :=
  fields "BracketResolution" [("failure", failure), ("expression", text expression)]

/-- The structure of an error of an expansion. -/
def ofExpansionError : ExpansionError → String
  | .unclosedBracket column query => bracket "UnmatchedBracket" column query
  | .strayBracket column query => bracket "StrayClosingBracket" column query
  | .noProgress => around "Input" "InfiniteLoop"
  | .tooManyCycles n => limit "InfiniteRecursion" n
  | .tooLarge n => limit "QueryTooLong" n
  | .nestedBracket column expression =>
    tag (fields "NestedBrackets" [("column", toString column)]) expression
  | .unknownKey key => tag "UnknownTerm" (Tag.bracketed key)
  | .notBracketed expression =>
    around "Internal" (wording (ExpansionError.notBracketedText expression))
  | .brokenArticle => around "Internal" (wording ExpansionError.brokenArticleText)

/-- A fault of loading. -/
def loading (message : String) (origin : Option Text) : String :=
  fields "GrammarLoading" [("message", wording message), ("origin", optionalText origin)]

/-- The structure of an error of an engine. -/
def ofEngineError : EngineError → String
  | .grammar error => loading error.cause.message error.origin
  | .invalid findings first => loading (EngineError.invalidText findings first) none
  | .expansion error => ofExpansionError error

end ErrorStructure

namespace Demo.Transcript

/-- The exit code: one if an error has ended the demonstration. -/
def exitCode (t : Transcript) : UInt32 := if t.failure.isSome then 1 else 0

/-- What is written to the error stream. -/
def errorLines (t : Transcript) : List Text :=
  match t.failure with
  | some e => [("Error: " ++ ErrorStructure.ofEngineError e).toList]
  | none => []

end Demo.Transcript

end PhraseGrammar
