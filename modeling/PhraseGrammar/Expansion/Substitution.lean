import PhraseGrammar.Expansion.Error
import PhraseGrammar.Expansion.Estimate
import PhraseGrammar.Text.Pieces

set_option autoImplicit false

/-! # Substitutions in a query

A substitution replaces **every** occurrence of a text in a query. Before that, every two spaces
of the query become one. The size of the outcome is found first, and a query that would grow
beyond the limit is refused before it is made.
-/

namespace PhraseGrammar

/-- Every two spaces become one, in a single pass: three spaces become two. -/
def Text.halveSpaces (t : Text) : Text := Text.replace [' ', ' '] [' '] t

/-- A replacement to be made: every occurrence of `target` in `query` becomes `new`. -/
structure Substitution where
  query : Text
  target : Text
  new : Text
  deriving DecidableEq, Repr

namespace Substitution

/-- The size of a query after a number of occurrences of `target` have been replaced. -/
def projectedSize (query target new : Text) (occurrences : Nat) : Nat :=
  Count.add (query.byteSize - occurrences * target.byteSize)
    (Count.mul occurrences new.byteSize)

/-- The query with the replacement made, if it keeps to the limit. -/
def apply (s : Substitution) (sizeLimit : Nat) : Except ExpansionError Text :=
  let query := s.query.halveSpaces
  let cut := Text.cut s.target query
  if sizeLimit < projectedSize query s.target s.new cut.occurrences then
    .error (.tooLarge sizeLimit)
  else .ok (cut.join s.new)

/-- What is not refused is the query with every occurrence of the target replaced. -/
theorem eq_replace_of_apply {s : Substitution} {sizeLimit : Nat} {query : Text}
    (h : s.apply sizeLimit = .ok query) :
    query = Text.replace s.target s.new s.query.halveSpaces := by
  simp only [apply] at h
  split at h
  · cases h
  · cases h
    rfl

end Substitution

end PhraseGrammar
