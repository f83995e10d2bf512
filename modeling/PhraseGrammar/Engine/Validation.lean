import PhraseGrammar.Expansion.Basic

set_option autoImplicit false

/-! # Validation of a grammar

Validation expands every alternative of every category once, as a query of its own, and collects
what goes wrong. Categories are taken in the order of their names and alternatives in theirs, and
all expansions draw from one source, one after the other. Names with slashes in them are noted
too, since a tag with a slash in its key is never looked up.
-/

namespace PhraseGrammar

/-- Something that validation has to say about a category. -/
inductive Finding where
  /-- The name holds a slash or a backslash. -/
  | slashInName (category : Text)
  /-- An alternative could not be expanded. -/
  | failure (category fragment : Text) (error : ExpansionError)
  deriving DecidableEq, Repr

/-- The wording of a finding. -/
def Finding.message : Finding → String
  | slashInName category =>
    "warning: category '" ++ String.ofList category
      ++ "' contains slashes, consider renaming or deleting it"
  | failure category fragment error =>
    String.ofList category ++ " -> '" ++ String.ofList fragment ++ "': " ++ error.message

/-- What the name of a category brings up. -/
def Finding.ofName (category : Text) : List Finding :=
  if category.any (fun c => c == '/' || c == '\\') then [.slashInName category] else []

namespace Expander

variable {σ : Type} [WordSource σ]

/-- What the alternatives of one category bring up. -/
def checkAlternatives (x : Expander) (category : Text) : List Text → σ → List Finding × σ
  | [], source => ([], source)
  | fragment :: rest, source =>
    let (phrase, d) := x.expand fragment source
    let (findings, source) := checkAlternatives x category rest d.source
    match phrase with
    | .ok _ => (findings, source)
    | .error e => (.failure category fragment e :: findings, source)

/-- What a list of categories brings up. -/
def checkCategories (x : Expander) : Mapping → σ → List Finding × σ
  | [], source => ([], source)
  | (category, alternatives) :: rest, source =>
    let (failures, source) := x.checkAlternatives category alternatives source
    let (findings, source) := checkCategories x rest source
    (Finding.ofName category ++ failures ++ findings, source)

/-- What the grammar of an expander brings up. -/
def validate (x : Expander) (source : σ) : List Finding × σ :=
  x.checkCategories x.grammar.categories source

end Expander

end PhraseGrammar
