import PhraseGrammar.Text.Basic

set_option autoImplicit false

/-! # Why an expansion fails

The causes for which a query cannot be expanded, and the wording of each. Columns and limits are
in bytes, and a query that is shown is the query as it stood when the fault was found.
-/

namespace PhraseGrammar

/-- Why a query could not be expanded. -/
inductive ExpansionError where
  /-- An opening bracket without a closing bracket behind it. -/
  | unclosedBracket (column : Nat) (query : Text)
  /-- A closing bracket before the first opening bracket. -/
  | strayBracket (column : Nat) (query : Text)
  /-- Two cycles in a row left the query as it was. -/
  | noProgress
  /-- The limit on cycles was reached. -/
  | tooManyCycles (limit : Nat)
  /-- A replacement would have made the query larger than the limit. -/
  | tooLarge (limit : Nat)
  /-- A bracket inside a tag, at a column of the tag's inside. -/
  | nestedBracket (column : Nat) (tag : Text)
  /-- A key that nothing gives a meaning to. -/
  | unknownKey (key : Text)
  /-- A tag that does not stand in brackets. -/
  | notBracketed (tag : Text)
  /-- An opening article mark, and no closing mark in the query or the first one before it. -/
  | brokenArticle
  deriving DecidableEq, Repr

namespace ExpansionError

/-- Faults of the engine itself, as against faults of the query or of the grammar. -/
def isInternal : ExpansionError → Bool
  | notBracketed _ | brokenArticle => true
  | _ => false

/-- What is said of a tag that does not stand in brackets. -/
def notBracketedText (tag : Text) : String :=
  "tag '" ++ String.ofList tag ++ "' is not bracketed"

/-- What is said of an opening article mark without a closing one. -/
def brokenArticleText : String := "no matching article close marker for an open marker"

/-- The place of a fault in a query. -/
private def position (column : Nat) (query : Text) : String :=
  "col." ++ toString column ++ " in '" ++ String.ofList query ++ "'"

/-- The wording of a fault. -/
def message : ExpansionError → String
  | unclosedBracket column query =>
    "input error: no closing bracket for the opening bracket at " ++ position column query
  | strayBracket column query =>
    "input error: stray ']' before the opening bracket at " ++ position column query
  | noProgress => "input error: found an infinite loop and quit"
  | tooManyCycles limit =>
    "input error: found infinite recursion and quit after " ++ toString limit ++ " cycles"
  | tooLarge limit => "input error: query grew past " ++ toString limit ++ " bytes and quit"
  | nestedBracket column tag =>
    "nested brackets at col." ++ toString column ++ ": \"" ++ String.ofList tag ++ "\""
  | unknownKey key => "unknown term, can't resolve: \"[" ++ String.ofList key ++ "]\""
  | notBracketed tag => "internal error: " ++ notBracketedText tag
  | brokenArticle => "internal error: " ++ brokenArticleText

end ExpansionError

end PhraseGrammar
