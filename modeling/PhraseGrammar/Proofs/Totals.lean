import PhraseGrammar.Proofs.Counts
import PhraseGrammar.Proofs.Faults
import PhraseGrammar.Proofs.Traces

set_option autoImplicit false

/-! # The totals of a count

The source and the estimate behind an expansion are those behind its draws, one after the other
(`Expander.expand_draws`). So the bounds of a count are the totals of its draws, and no counter ever
needs more than the largest count (`Engine.options_eq_totals`). The lower bound can be above the
upper one, but only for draws that have one branch (`Engine.options_lower_le`).
-/

namespace PhraseGrammar

open Expander Tag Text

/-! ## Bounds that are no range -/

namespace TagDraw

/-- A product of numbers above zero is larger than their number, but for the ones among them. -/
theorem one_add_length_le {ns : List Nat} (h : ∀ n ∈ ns, 1 ≤ n) :
    1 + ns.length ≤ ns.prod + ns.count 1 := by
  induction ns with
  | nil => simp
  | cons n ns ih =>
      have hn := h n List.mem_cons_self
      have hns : ∀ m ∈ ns, 1 ≤ m := fun m hm => h m (List.mem_cons_of_mem n hm)
      have hprod := List.one_le_prod hns
      have hrest := ih hns
      rw [List.length_cons, List.prod_cons, List.count_cons]
      by_cases hone : n = 1
      · subst hone
        simp
        omega
      · -- a factor of two or more makes up for the number that it adds
        have hdouble : 2 * ns.prod ≤ n * ns.prod := Nat.mul_le_mul_right _ (by omega)
        simp [hone]
        omega

theorem lower_le_upper_iff (rs : List TagDraw) :
    (totals rs).lower ≤ (totals rs).upper ↔
      1 + (choices rs).length ≤ ((choices rs).map branches).prod ∨
        Count.largest ≤ ((choices rs).map branches).prod := by
  unfold totals
  dsimp only
  omega

theorem lower_le_upper_add (rs : List TagDraw) :
    (totals rs).lower ≤ (totals rs).upper + (choices rs).countP (·.branches = 1) := by
  have h : 1 + ((choices rs).map branches).length
      ≤ ((choices rs).map branches).prod + ((choices rs).map branches).count 1 :=
    one_add_length_le one_le_branches
  have hcount : ((choices rs).map branches).count 1 = (choices rs).countP (·.branches = 1) := by
    rw [List.count, List.countP_map]
    rfl
  rw [hcount, List.length_map] at h
  unfold totals
  dsimp only
  omega

end TagDraw

/-! ## The draws of an expansion -/

namespace Expander

variable {σ : Type} [WordSource σ] {x : Expander}

/-- What is drawn at a tag that is taken up. -/
def Visit.draw (x : Expander) (v : Visit σ) : TagDraw := x.drawFor v.tag v.draws.source

/-- **The draws of an expansion**, in order. -/
def drawn (x : Expander) (query : Text) (source : σ) : List TagDraw :=
  (x.visits query source).map (Visit.draw x)

/-- A course makes the draws of its tags. -/
theorem Course.draws {query : Text} {d : Draws σ} {visits : List (Visit σ)}
    {r : Except ExpansionError Text × Draws σ} (h : x.Course query d visits r) :
    r.2 = (visits.map (Visit.draw x)).foldl TagDraw.take d := by
  induction h with
  | done | stopped => rfl
  | unresolved _ htext | refused _ htext _ => exact draws_of_textFor htext
  | cycle _ htext _ _ ih =>
      rw [ih, draws_of_textFor htext]
      rfl

/-- No counter is too small for a count, at any tag of a course. -/
theorem Course.fits {query : Text} {d : Draws σ} {visits : List (Visit σ)}
    {r : Except ExpansionError Text × Draws σ} (h : x.Course query d visits r)
    (hd : d.estimate.Fits) : ∀ v ∈ visits, v.draws.estimate.Fits := by
  induction h with
  | done | stopped => simp
  | unresolved | refused =>
      intro v hv
      obtain rfl := List.mem_singleton.mp hv
      exact hd
  | cycle _ htext _ _ ih =>
      intro v hv
      rcases List.mem_cons.mp hv with rfl | hv
      · exact hd
      · refine ih ?_ v hv
        rw [draws_of_textFor htext]
        exact TagDraw.fits_take hd _

/-- **An expansion makes its draws**, whether it succeeds or fails. -/
theorem expand_draws (x : Expander) (query : Text) (source : σ) :
    (x.expand query source).2 = (x.drawn query source).foldl TagDraw.take { source } :=
  (x.course_of_cycles (x.cycleLimit - 1) {} query ⟨source, {}⟩).draws

/-- **The bounds of a count are the totals of its draws.** -/
theorem countOptions_eq_totals {query : Text} {source : σ} {bounds : Bounds}
    (h : (x.countOptions query source).1 = .ok bounds) :
    bounds = TagDraw.totals (({ x with counting := true } : Expander).drawn query source) := by
  have hdraws := ({ x with counting := true } : Expander).expand_draws query source
  unfold countOptions at h
  dsimp only at h
  rw [hdraws] at h
  cases hphrase : (({ x with counting := true } : Expander).expand query source).1 with
  | error e => simp [hphrase, Except.map] at h
  | ok phrase =>
      rw [hphrase] at h
      cases h
      exact TagDraw.bounds_foldl_take_first _ source

/-! ### One tag of a count -/

/-- **What a tag contributes to a count**, whatever came before. -/
structure Visit.Counted (x : Expander) (v : Visit σ) : Prop where
  /-- The omission is counted exactly if the tag is optional. -/
  optional_iff : (v.draw x).optional = true ↔ v.tag.kind = .optional
  /-- All terms of the key are counted, also if the coin leaves the tag out. -/
  terms_eq : (v.draw x).terms = (x.terms v.tag.key).length
  /-- Forced texts, articles and categories without alternatives contribute nothing. -/
  terms_eq_zero_iff : (v.draw x).terms = 0 ↔
    '/' ∉ v.tag.key ∧ ((x.overrides.lookup v.tag.key).isSome ∨
      (x.grammar.get? v.tag.key).getD [] = [])
  /-- No counter overflows before the choice, ... -/
  fits_begin : (TagDraw.begin v.draws (v.draw x)).estimate.Fits
  /-- ... or behind it. -/
  fits_take : (TagDraw.take v.draws (v.draw x)).estimate.Fits

theorem terms_eq_nil_iff (x : Expander) (key : Text) :
    x.terms key = [] ↔ '/' ∉ key ∧ ((x.overrides.lookup key).isSome ∨
      (x.grammar.get? key).getD [] = []) := by
  unfold terms
  by_cases hs : '/' ∈ key
  · simp [hs, List.splitOn_ne_nil]
  · cases x.overrides.lookup key with
    | some text => simp [hs]
    | none => simp [hs]

theorem counted_of_mem_visits (hc : x.counting = true) {query : Text} {source : σ} :
    ∀ v ∈ x.visits query source, v.Counted x := by
  intro v hv
  have hcourse := x.course_of_cycles (x.cycleLimit - 1) {} query ⟨source, {}⟩
  have hfits := hcourse.fits Estimate.fits_first v hv
  have hterms : (v.draw x).terms = (x.terms v.tag.key).length := by
    rw [Visit.draw, drawFor_of_counting hc]
    rfl
  exact
    { optional_iff := decide_eq_true_iff
      terms_eq := hterms
      terms_eq_zero_iff := by rw [hterms, List.length_eq_zero_iff, terms_eq_nil_iff]
      fits_begin := TagDraw.fits_begin hfits _
      fits_take := TagDraw.fits_take hfits _ }

/-- A key that can be cut has two terms at least. -/
theorem two_le_length_splitOn {c : Char} {key : Text} (h : c ∈ key) :
    2 ≤ (key.splitOn c).length := by
  obtain ⟨lead, rest, rfl, hlead⟩ := List.eq_append_cons_of_mem h
  rw [List.splitOn_append_cons_self_of_not_mem hlead, List.length_cons]
  have := List.length_pos_iff.mpr (List.splitOn_ne_nil c rest)
  omega

/-- Only a category of one alternative gives a choice that has one branch. -/
theorem branches_ne_one (hc : x.counting = true)
    (hsets : ∀ key alternatives, x.overrides.lookup key = none →
      x.grammar.get? key = some alternatives → alternatives.length ≠ 1)
    {query : Text} {source : σ} :
    ∀ r ∈ TagDraw.choices (x.drawn query source), r.branches ≠ 1 := by
  intro r hr hone
  obtain ⟨hdrawn, hpos⟩ := List.mem_filter.mp hr
  obtain ⟨v, hv, rfl⟩ := List.mem_map.mp hdrawn
  have hpos : 0 < (v.draw x).terms := by simpa using hpos
  have hlength : (x.terms v.tag.key).length = 1 := by
    rw [← (counted_of_mem_visits hc v hv).terms_eq]
    unfold TagDraw.branches at hone
    omega
  -- a listed key has two terms at least, and a forced one none, so this is a category
  unfold terms at hlength
  split at hlength
  · next hs =>
      have := two_le_length_splitOn hs
      omega
  · split at hlength
    · cases hlength
    · next ho =>
        cases hg : x.grammar.get? v.tag.key with
        | none => simp [hg] at hlength
        | some alternatives =>
            rw [hg] at hlength
            exact hsets _ _ ho hg hlength

end Expander

/-! ## The bounds of an engine -/

namespace Engine

variable {σ : Type} [WordSource σ]

/-- **A count gives the totals of its draws.** The source goes on behind the draws of the count, and
its bounds are the totals of these draws. At every tag all terms of the key are counted, none for
forced texts, articles and categories without alternatives, and no counter overflows. -/
theorem options_eq_totals (e : Engine σ) (query : Text) (overrides : Overrides) :
    let x : Expander := { e.expander overrides with counting := true }
    (e.options query overrides).2.source
        = ((x.drawn query e.source).foldl TagDraw.take { source := e.source }).source ∧
      (∀ bounds, (e.options query overrides).1 = .ok bounds →
        bounds = TagDraw.totals (x.drawn query e.source)) ∧
      ∀ v ∈ x.visits query e.source, v.Counted x := by
  intro x
  refine ⟨congrArg Draws.source (x.expand_draws query e.source), fun bounds h => ?_,
    counted_of_mem_visits rfl⟩
  exact countOptions_eq_totals (mapError_eq_ok.mp h)

/-- An engine with two animals in the category `k`, one in `s` and none in `e`. -/
def larder : Engine Keystream where
  grammar := {
    categories := [(['e'], []), (['k'], [['c', 'a', 't'], ['d', 'o', 'g']]), (['s'], [['e', 'e', 'l']])] }
  settings := .default
  source := Keystream.ofSeed 7

/-- The query `[?k][s][e][o][a][p/q]`, of which `o` is to be forced. -/
def larderQuery : Text :=
  [['?', 'k'], ['s'], ['e'], ['o'], ['a'], ['p', '/', 'q']].flatMap bracketed

theorem larder_options_eq_totals :
    let x : Expander := { larder.expander [(['o'], ['x'])] with counting := true }
    (x.drawn larderQuery larder.source
        = [⟨true, 2⟩, ⟨false, 1⟩, ⟨false, 0⟩, ⟨false, 0⟩, ⟨false, 0⟩, ⟨false, 2⟩] ∧
      (larder.options larderQuery [(['o'], ['x'])]).1 = .ok ⟨4, 6⟩) ∧
    (larder.options larderQuery [(['o'], ['x'])]).2.source
        = ((x.drawn larderQuery larder.source).foldl TagDraw.take
            { source := larder.source }).source ∧
      ⟨4, 6⟩ = TagDraw.totals (x.drawn larderQuery larder.source) ∧
      ∀ v ∈ x.visits larderQuery larder.source, v.Counted x := by
  intro x
  have hdrawn : x.drawn larderQuery larder.source
      = [⟨true, 2⟩, ⟨false, 1⟩, ⟨false, 0⟩, ⟨false, 0⟩, ⟨false, 0⟩, ⟨false, 2⟩] := by
    decide +kernel
  have hcount : (larder.options larderQuery [(['o'], ['x'])]).1 = .ok ⟨4, 6⟩ := by
    decide +kernel
  obtain ⟨hsource, hbounds, hcounted⟩ := options_eq_totals larder larderQuery [(['o'], ['x'])]
  exact ⟨⟨hdrawn, hcount⟩, hsource, hbounds _ hcount, hcounted⟩

/-- **The bounds of a count are a range** exactly if the product of the branches is large enough.
The lower bound is above the upper one by no more than the number of choices that have one branch.
There are none if no category has one alternative, unless it is overridden. -/
theorem options_lower_le {e : Engine σ} {query : Text} {overrides : Overrides} {bounds : Bounds}
    (h : (e.options query overrides).1 = .ok bounds) :
    let x : Expander := { e.expander overrides with counting := true }
    let choices := TagDraw.choices (x.drawn query e.source)
    (bounds.lower ≤ bounds.upper ↔
        1 + choices.length ≤ (choices.map TagDraw.branches).prod ∨
          Count.largest ≤ (choices.map TagDraw.branches).prod) ∧
      bounds.lower ≤ bounds.upper + choices.countP (·.branches = 1) ∧
      ((∀ key alternatives, overrides.lookup key = none →
          e.grammar.get? key = some alternatives → alternatives.length ≠ 1) →
        bounds.lower ≤ bounds.upper) := by
  intro x choices
  obtain rfl := countOptions_eq_totals (mapError_eq_ok.mp h)
  refine ⟨TagDraw.lower_le_upper_iff _, TagDraw.lower_le_upper_add _, fun hsets => ?_⟩
  have hnone : choices.countP (·.branches = 1) = 0 := by
    refine List.countP_eq_zero.mpr fun r hr => ?_
    simpa using branches_ne_one (x := x) rfl hsets r hr
  have hle := TagDraw.lower_le_upper_add (x.drawn query e.source)
  rw [show (TagDraw.choices _).countP _ = 0 from hnone] at hle
  exact hle

/-- Where the only category of one alternative is overridden, the bounds are a range. -/
theorem larder_options_lower_le :
    let x : Expander := { larder.expander [(['o'], ['x']), (['s'], ['y'])] with counting := true }
    let choices := TagDraw.choices (x.drawn larderQuery larder.source)
    ((larder.options larderQuery [(['o'], ['x']), (['s'], ['y'])]).1 = .ok ⟨3, 6⟩ ∧
      ∀ key alternatives, List.lookup key [(['o'], ['x']), (['s'], ['y'])] = none →
        larder.grammar.get? key = some alternatives → alternatives.length ≠ 1) ∧
    (3 ≤ 6 ↔ 1 + choices.length ≤ (choices.map TagDraw.branches).prod ∨
        Count.largest ≤ (choices.map TagDraw.branches).prod) ∧
      3 ≤ 6 + choices.countP (·.branches = 1) ∧ 3 ≤ 6 := by
  intro x choices
  have hcount : (larder.options larderQuery [(['o'], ['x']), (['s'], ['y'])]).1 = .ok ⟨3, 6⟩ := by
    decide +kernel
  have hsets : ∀ key alternatives, List.lookup key [(['o'], ['x']), (['s'], ['y'])] = none →
      larder.grammar.get? key = some alternatives → alternatives.length ≠ 1 := by
    intro key alternatives ho hg
    have hentry : ∀ entry ∈ larder.grammar.categories,
        List.lookup entry.1 [(['o'], ['x']), (['s'], ['y'])] = none → entry.2.length ≠ 1 := by
      decide
    exact hentry _ (mem_of_lookup hg) ho
  obtain ⟨hiff, hle, hrange⟩ := options_lower_le hcount
  exact ⟨⟨hcount, hsets⟩, hiff, hle, hrange hsets⟩

/-- A choice from one alternative raises the lower bound and leaves the upper one. -/
theorem larder_no_range :
    ∃ bounds, (larder.options (bracketed ['s'])).1 = .ok bounds ∧ bounds.upper < bounds.lower :=
  ⟨⟨2, 1⟩, by decide +kernel, by decide⟩

end Engine

end PhraseGrammar
