import PhraseGrammar.Expansion.Article
import PhraseGrammar.Expansion.Substitution
import PhraseGrammar.Grammar.Basic
import PhraseGrammar.Random.Source
import PhraseGrammar.Tag

set_option autoImplicit false

/-! # Expansion of a query

A query is expanded until it has no tag left. Each cycle takes the text from the first opening
bracket to the first closing one, reads it as a tag, and replaces **every** occurrence of that
text in the query by what the tag stands for. So equal tags agree, a label makes a tag
independent, and a hidden tag decides what the same tag reads elsewhere, even inside of another
tag.

A cycle is made of small steps, each a function of its own: `Query.tagAt` finds the tag,
`Expander.substitution` decides what becomes of it, and `Substitution.apply` replaces it.
`Expander.cycles` repeats the cycle, and `Expander.expand` settles the articles of the outcome
and trims it.

Draws change the random source and the estimate (`Draws`), and both are given back also when the
expansion fails, since the next expansion goes on from there.
-/

namespace PhraseGrammar

/-- Forced texts, by the key that they stand for. -/
abbrev Overrides := List (Text × Text)

/-- What an expansion reads and never changes. When it counts options, the optional tags that
are left out are looked up all the same. -/
structure Expander where
  grammar : Grammar
  overrides : Overrides := []
  cycleLimit : Nat
  sizeLimit : Nat
  counting : Bool := false

/-- What the draws of an expansion change. -/
structure Draws (σ : Type) where
  source : σ
  estimate : Estimate := {}

/-! ## Finding a tag -/

namespace Query

/-- The column of the first opening bracket. -/
def firstOpening? (query : Text) : Option Nat := query.columnOf? (· == '[')

/-- The column of the first closing bracket. -/
def firstClosing? (query : Text) : Option Nat := query.columnOf? (· == ']')

/-- The text from the first opening bracket, which stands at column `opening`, to the first
closing bracket. -/
def tagAt (opening : Nat) (query : Text) : Except ExpansionError Text :=
  match firstClosing? query with
  | none => .error (.unclosedBracket opening query)
  | some closing =>
    if closing < opening then .error (.strayBracket closing query)
    else .ok ((query.dropWhile (· != '[')).takeWhile (· != ']') ++ [']'])

end Query

/-! ## What a tag stands for -/

namespace Expander

variable {σ : Type} [WordSource σ]

/-- One of the terms, each with the same chance. Without terms there is nothing to draw or to
count, and the outcome is empty. -/
def choose (terms : List Text) (d : Draws σ) : Text × Draws σ :=
  match terms with
  | [] => ([], d)
  | term :: rest =>
    let terms := term :: rest
    let (i, source) := WordSource.index terms.length (Nat.succ_pos _) d.source
    (terms.get i, { source, estimate := d.estimate.addChoice terms.length })

/-- The text that a key stands for: one of its own terms, a forced text, an alternative of the
category, or the mark of an article, in this order. -/
def meaning (x : Expander) (key : Text) (d : Draws σ) : Except ExpansionError Text × Draws σ :=
  if key.contains '/' then
    let (text, d) := choose (key.splitOn '/') d
    (.ok text, d)
  else
    match x.overrides.lookup key with
    | some text => (.ok text, d)
    | none =>
      match x.grammar.get? key with
      | some alternatives =>
        let (text, d) := choose alternatives d
        (.ok text, d)
      | none =>
        if Article.isKey key then (.ok (Article.mark key), d)
        else (.error (.unknownKey key), d)

/-- The text of an optional tag, which is empty when the coin leaves the tag out. -/
def optionalMeaning (x : Expander) (key : Text) (d : Draws σ) :
    Except ExpansionError Text × Draws σ :=
  let (omitted, source) := WordSource.coin d.source
  let d := { source, estimate := d.estimate.addOmission }
  if omitted && !x.counting then (.ok [], d)
  else
    let (text, d) := x.meaning key d
    (text.map fun t => if omitted then [] else t, d)

/-- The replacement that a tag asks for. A hidden tag is taken out of the query, and what it
stands for replaces the tag without its marker; other tags are replaced themselves. -/
def substitution (x : Expander) (query found : Text) (tag : Tag) (d : Draws σ) :
    Except ExpansionError Substitution × Draws σ :=
  let d := { d with estimate := d.estimate.startTag }
  match tag.kind with
  | .hidden =>
    let (text, d) := x.meaning tag.key d
    (text.map fun new => ⟨Text.replace found [] query, tag.unmarked, new⟩, d)
  | .optional =>
    let (text, d) := x.optionalMeaning tag.key d
    (text.map fun new => ⟨query, found, new⟩, d)
  | .alternation | .named =>
    let (text, d) := x.meaning tag.key d
    (text.map fun new => ⟨query, found, new⟩, d)

/-- One cycle on a query whose first tag is `found`. -/
def cycle (x : Expander) (query found : Text) (d : Draws σ) :
    Except ExpansionError Text × Draws σ :=
  match Tag.parse found with
  | .error e => (.error e, d)
  | .ok tag =>
    let (substitution, d) := x.substitution query found tag d
    (substitution.bind (·.apply x.sizeLimit), d)

end Expander

/-! ## The cycles of an expansion -/

/-- How an expansion notices that it stands still: it remembers the query of the cycle before,
and whether that cycle had already changed nothing. -/
structure Progress where
  previous : Text := []
  stalled : Bool := false
  deriving DecidableEq, Repr

/-- What is remembered of a query before its cycle. Nothing, if for the second time in a row
the query is the same as before. -/
def Progress.next? (p : Progress) (query : Text) : Option Progress :=
  if query == p.previous then
    if p.stalled then none else some ⟨query, true⟩
  else some ⟨query, false⟩

namespace Expander

variable {σ : Type} [WordSource σ]

/-- Repeats the cycle while the query has an opening bracket, at most `n` times. -/
def cycles (x : Expander) :
    (n : Nat) → Progress → Text → Draws σ → Except ExpansionError Text × Draws σ
  | n, progress, query, d =>
    match Query.firstOpening? query with
    | none => (.ok query, d)
    | some opening =>
      match progress.next? query with
      | none => (.error .noProgress, d)
      | some progress =>
        match n with
        | 0 => (.error (.tooManyCycles x.cycleLimit), d)
        | n + 1 =>
          match Query.tagAt opening query with
          | .error e => (.error e, d)
          | .ok found =>
            match x.cycle query found d with
            | (.error e, d) => (.error e, d)
            | (.ok query, d) => cycles x n progress query d

/-- What is left to do when no tag is left. -/
def finish (query : Text) : Except ExpansionError Text := (Article.settle query).map Text.trim

/-- Expands a query, with a fresh estimate. The limit on cycles is itself out of reach: an
expansion fails when it would begin that cycle. -/
def expand (x : Expander) (query : Text) (source : σ) : Except ExpansionError Text × Draws σ :=
  let (tagless, d) := x.cycles (x.cycleLimit - 1) {} query { source }
  (tagless.bind finish, d)

/-- Expands a query for the bounds of its options. -/
def countOptions (x : Expander) (query : Text) (source : σ) :
    Except ExpansionError Bounds × Draws σ :=
  let (phrase, d) := { x with counting := true }.expand query source
  (phrase.map fun _ => d.estimate.bounds, d)

end Expander

end PhraseGrammar
