import PhraseGrammar.Proofs.Draws
import PhraseGrammar.Proofs.Runs

set_option autoImplicit false

/-! # What a count multiplies

A count is an expansion that also looks up the optional tags that it leaves out. So what a tag draws
does not depend on the coin (`Expander.countedDraw`), and the upper bound of a run is the product of
the branches of its tags (`Expander.Run.upper_eq`), as far as there are counts.
-/

namespace PhraseGrammar

open Tag Text

namespace Expander

variable {σ : Type} [WordSource σ] {x : Expander}

/-- The branches of a tag as they are counted: its terms, and one more if it is optional. A tag
without terms has one branch. -/
def branches (x : Expander) (inside : Text) : Nat :=
  let tag := ofInside inside
  if x.terms tag.key = [] then 1
  else (x.terms tag.key).length + if tag.kind = .optional then 1 else 0

/-- What a tag draws when options are counted. -/
def countedDraw (x : Expander) (tag : Tag) : TagDraw where
  optional := tag.kind = .optional
  terms := (x.terms tag.key).length

/-- When options are counted, the coin makes no difference. -/
theorem drawFor_of_counting (hc : x.counting = true) (tag : Tag) (s : σ) :
    x.drawFor tag s = x.countedDraw tag := by
  simp [drawFor, countedDraw, hc]

theorem branches_of_nil {inside : Text} (h : x.terms (ofInside inside).key = []) :
    x.branches inside = 1 := if_pos h

theorem branches_of_terms {inside : Text} (h : x.terms (ofInside inside).key ≠ []) :
    x.branches inside = (x.countedDraw (ofInside inside)).branches := by
  simp [branches, if_neg h, TagDraw.branches, countedDraw]

/-- The branches of tags are those of their draws. -/
theorem prod_branches (x : Expander) (tags : List Text) :
    ((TagDraw.choices (tags.map fun inside => x.countedDraw (ofInside inside))).map
        TagDraw.branches).prod = (tags.map x.branches).prod := by
  induction tags with
  | nil => rfl
  | cons inside tags ih =>
      rw [List.map_cons, List.map_cons, List.prod_cons, ← ih]
      by_cases ht : x.terms (ofInside inside).key = []
      · have hdraw : (x.countedDraw (ofInside inside)).terms = 0 := by simp [countedDraw, ht]
        rw [TagDraw.choices_cons_of_eq_zero hdraw, branches_of_nil ht, Nat.one_mul]
      · have hdraw : 0 < (x.countedDraw (ofInside inside)).terms := List.length_pos_iff.mpr ht
        rw [TagDraw.choices_cons_of_pos hdraw, branches_of_terms ht, List.map_cons,
          List.prod_cons]

/-- A run that counts makes the draws of its tags. -/
theorem Run.draws (hc : x.counting = true) {query reached : Text} {d d' : Draws σ}
    {outcomes : Outcomes} (h : x.Run query d outcomes reached d') :
    d' = ((outcomes.map Prod.fst).map fun inside => x.countedDraw (ofInside inside)).foldl
      TagDraw.take d := by
  induction h with
  | done => rfl
  | cycle _ htext _ _ ih =>
      rw [ih, draws_of_textFor htext, drawFor_of_counting hc]
      rfl

/-- **The upper bound of a run that counts** is multiplied by the branches of the tags of the
run. -/
theorem Run.upper_eq (hc : x.counting = true) {query reached : Text} {d d' : Draws σ}
    {outcomes : Outcomes} (h : x.Run query d outcomes reached d') (hfits : d.estimate.Fits)
    (hpos : 1 ≤ d.estimate.upper) :
    d'.estimate.upper
      = Count.mul d.estimate.upper ((outcomes.map Prod.fst).map x.branches).prod := by
  rw [h.draws hc, ← x.prod_branches]
  exact congrArg Bounds.upper (TagDraw.bounds_foldl_take _ hfits hpos)

end Expander

end PhraseGrammar
