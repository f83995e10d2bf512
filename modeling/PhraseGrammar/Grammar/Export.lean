import PhraseGrammar.Grammar.Basic
import PhraseGrammar.Json

set_option autoImplicit false

/-! # Grammars as JSON

A mapping is an object from names to lists of alternatives. A whole grammar is written as an
object with the single field `categories`, which holds the mapping of its categories.
-/

namespace PhraseGrammar

/-- A mapping as an object. -/
def Mapping.toJson (m : Mapping) : Json :=
  .object (m.map fun (name, alternatives) => (name, .array (alternatives.map .string)))

/-- The mapping that a value holds: an object whose fields are lists of strings. -/
def Mapping.ofJson? : Json → Option Mapping
  | .object fields => fields.mapM fun (name, value) => value.texts?.map fun ts => (name, ts)
  | _ => none

/-- A grammar as an object. -/
def Grammar.toJson (g : Grammar) : Json :=
  .object [("categories".toList, Mapping.toJson g.categories)]

end PhraseGrammar
