import PhraseGrammar.Proofs.Steps
import Mathlib.Logic.Relation

set_option autoImplicit false

/-! # Traces

The cycles of an expansion give its outcome and no account of the way there. A *trace* is such an
account: the tags that are taken up, one after the other, each with the query in which it was found
and with the draws before it (`Expander.trace`). Every expansion has one, also if it fails.

A trace and an outcome that belong together are a *course* (`Expander.Course`). The cycles run a
course with their trace (`Expander.course_of_cycles`), so that what holds of all tags of an
expansion, or of all its draws, is proved by induction on courses. Every course follows the steps
until it ends in one of a few ways (`Expander.Outcome`, `Expander.expand_outcome`), so that what the
steps keep holds of every query that an expansion reaches, whatever the source, the limits and the
number of cycles.
-/

namespace PhraseGrammar.Expander

open Text Tag

/-- A tag that is taken up: the query and the draws before it, the text that is found, and the tag
that this text is read as. -/
structure Visit (σ : Type) where
  query : Text
  found : Text
  tag : Tag
  draws : Draws σ

/-- The visit of the first tag of a query. -/
def Visit.first {σ : Type} (query inside : Text) (d : Draws σ) : Visit σ :=
  ⟨query, bracketed inside, ofInside inside, d⟩

variable {σ : Type} [WordSource σ]

/-- The tags that the cycles take up, in order. -/
def trace (x : Expander) : (n : Nat) → Progress → Text → Draws σ → List (Visit σ)
  | 0, _, _, _ => []
  | n + 1, progress, query, d =>
    match Query.firstOpening? query, progress.next? query with
    | some opening, some progress =>
      match Query.tagAt opening query with
      | .error _ => []
      | .ok found =>
        match Tag.parse found with
        | .error _ => []
        | .ok tag =>
          ⟨query, found, tag, d⟩ ::
            match x.cycle query found d with
            | (.error _, _) => []
            | (.ok query, d) => trace x n progress query d
    | _, _ => []

/-- **The trace of an expansion.** -/
def visits (x : Expander) (query : Text) (source : σ) : List (Visit σ) :=
  x.trace (x.cycleLimit - 1) {} query { source }

/-! ## Courses -/

/-- Why no tag is taken up in a query that has one. -/
inductive Stops (x : Expander) (query : Text) : ExpansionError → Prop
  | noProgress : Stops x query .noProgress
  | tooManyCycles : Stops x query (.tooManyCycles x.cycleLimit)
  | noTag {opening : Nat} {e : ExpansionError} :
      Query.firstOpening? query = some opening → Query.tagAt opening query = .error e →
      Stops x query e
  | badTag {opening : Nat} {found : Text} {e : ExpansionError} :
      Query.firstOpening? query = some opening → Query.tagAt opening query = .ok found →
      Tag.parse found = .error e → Stops x query e

/-- **A course** from a query and the draws before it: the tags that are taken up on the way, and
the outcome with the draws behind it. -/
inductive Course (x : Expander) :
    Text → Draws σ → List (Visit σ) → Except ExpansionError Text × Draws σ → Prop
  /-- No tag is left. -/
  | done {query : Text} {d : Draws σ} : '[' ∉ query → Course x query d [] (.ok query, d)
  /-- No tag is taken up. -/
  | stopped {query : Text} {d : Draws σ} {e : ExpansionError} :
      x.Stops query e → Course x query d [] (.error e, d)
  /-- There is no text for the tag. -/
  | unresolved {query inside : Text} {d d' : Draws σ} {e : ExpansionError} :
      Query.FirstTag query inside →
      x.textFor (ofInside inside) (Draws.startTag d) = (.error e, d') →
      Course x query d [.first query inside d] (.error e, d')
  /-- The text for the tag is too large. -/
  | refused {query inside new : Text} {d d' : Draws σ} :
      Query.FirstTag query inside →
      x.textFor (ofInside inside) (Draws.startTag d) = (.ok new, d') →
      (placing query (bracketed inside) (ofInside inside) new).apply x.sizeLimit
        = .error (.tooLarge x.sizeLimit) →
      Course x query d [.first query inside d] (.error (.tooLarge x.sizeLimit), d')
  /-- The tag is replaced, and the course goes on. -/
  | cycle {query inside new next : Text} {d d' : Draws σ} {visits : List (Visit σ)}
      {r : Except ExpansionError Text × Draws σ} :
      Query.FirstTag query inside →
      x.textFor (ofInside inside) (Draws.startTag d) = (.ok new, d') →
      (placing query (bracketed inside) (ofInside inside) new).apply x.sizeLimit = .ok next →
      Course x next d' visits r → Course x query d (.first query inside d :: visits) r

variable {x : Expander}

theorem trace_of_not_mem (n : Nat) (progress : Progress) {query : Text} (d : Draws σ)
    (h : '[' ∉ query) : x.trace n progress query d = [] := by
  cases n with
  | zero => rfl
  | succ n => rw [trace, Query.firstOpening?_eq_none.mpr h]

theorem trace_of_stalled (n : Nat) {progress : Progress} {query : Text} (d : Draws σ)
    (h : progress.next? query = none) : x.trace n progress query d = [] := by
  cases n with
  | zero => rfl
  | succ n =>
      rw [trace, h]
      cases Query.firstOpening? query <;> rfl

theorem trace_succ (n : Nat) {progress next : Progress} {query : Text} {opening : Nat}
    (d : Draws σ) (ho : Query.firstOpening? query = some opening)
    (hp : progress.next? query = some next) :
    x.trace (n + 1) progress query d
      = match Query.tagAt opening query with
        | .error _ => []
        | .ok found =>
          match Tag.parse found with
          | .error _ => []
          | .ok tag =>
            ⟨query, found, tag, d⟩ ::
              match x.cycle query found d with
              | (.error _, _) => []
              | (.ok query, d) => x.trace n next query d := by
  rw [trace, ho, hp]

/-- The first tag of a query is taken up, and the trace goes on behind its cycle. -/
theorem trace_firstTag (n : Nat) {progress next : Progress} {query inside : Text} (d : Draws σ)
    (hf : Query.FirstTag query inside) (hp : progress.next? query = some next) :
    x.trace (n + 1) progress query d
      = .first query inside d ::
        match x.cycle query (bracketed inside) d with
        | (.error _, _) => []
        | (.ok query, d) => x.trace n next query d := by
  obtain ⟨opening, ho, hat⟩ := hf.tagAt
  rw [trace_succ n d ho hp, hat]
  dsimp only
  rw [parse_bracketed hf.bracketFree]
  rfl

/-- It is not the size of a query that forbids to take up a tag. -/
theorem Stops.ne_tooLarge {query : Text} {e : ExpansionError} (h : x.Stops query e) (limit : Nat) :
    e ≠ .tooLarge limit := by
  rintro rfl
  cases h with
  | noTag _ hf =>
      unfold Query.tagAt at hf
      split at hf
      · cases hf
      · split at hf <;> cases hf
  | badTag _ _ ht =>
      unfold Tag.parse at ht
      split at ht
      · cases ht
      · split at ht <;> cases ht

/-- A cycle at a first tag, with the courses that begin with it. -/
theorem course_of_firstTag {n : Nat} {progress next : Progress} {query inside : Text}
    {d : Draws σ} (hf : Query.FirstTag query inside) (hp : progress.next? query = some next)
    (hrest : ∀ (query : Text) (d : Draws σ),
      x.Course query d (x.trace n next query d) (x.cycles n next query d)) :
    x.Course query d (x.trace (n + 1) progress query d) (x.cycles (n + 1) progress query d) := by
  rw [trace_firstTag n d hf hp, cycles_firstTag x n d hf hp, cycle_bracketed x query d hf.bracketFree]
  cases htext : x.textFor (ofInside inside) (Draws.startTag d) with
  | mk drawn d' =>
      cases drawn with
      | error e => exact .unresolved hf htext
      | ok new =>
          dsimp only [Except.bind]
          cases happly : (placing query (bracketed inside) (ofInside inside) new).apply
              x.sizeLimit with
          | error e =>
              obtain rfl := apply_eq_error happly
              exact .refused hf htext happly
          | ok replaced => exact .cycle hf htext happly (hrest replaced d')

/-- **The cycles run a course** with their trace. -/
theorem course_of_cycles (x : Expander) (n : Nat) (progress : Progress) (query : Text)
    (d : Draws σ) :
    x.Course query d (x.trace n progress query d) (x.cycles n progress query d) := by
  -- the induction is on the number of cycles that are left
  induction n generalizing progress query d with
  | zero =>
      show x.Course query d [] _
      by_cases hm : '[' ∈ query
      · cases hp : progress.next? query with
        | none =>
            rw [cycles_of_stalled x 0 d hm hp]
            exact .stopped .noProgress
        | some next =>
            rw [cycles_zero x d hm hp]
            exact .stopped .tooManyCycles
      · rw [cycles_of_not_mem x 0 progress d hm]
        exact .done hm
  | succ n ih =>
      cases ho : Query.firstOpening? query with
      | none =>
          have hm := Query.firstOpening?_eq_none.mp ho
          rw [trace_of_not_mem _ _ d hm, cycles_of_not_mem x _ progress d hm]
          exact .done hm
      | some opening =>
          have hm := Query.opening_mem_of_firstOpening? ho
          cases hp : progress.next? query with
          | none =>
              rw [trace_of_stalled _ d hp, cycles_of_stalled x _ d hm hp]
              exact .stopped .noProgress
          | some next =>
              cases hf : Query.tagAt opening query with
              | error e =>
                  rw [trace_succ n d ho hp, cycles_succ x n d ho hp, hf]
                  exact .stopped (.noTag ho hf)
              | ok found =>
                  cases ht : Tag.parse found with
                  | error e =>
                      rw [trace_succ n d ho hp, cycles_succ x n d ho hp, hf]
                      simp only [cycle, ht]
                      exact .stopped (.badTag ho hf ht)
                  | ok tag =>
                      -- what is read as a tag is the first tag
                      obtain ⟨inside, hfirst, -, -⟩ := Query.firstTag_of_parse ho hf ht
                      exact course_of_firstTag hfirst hp (ih next)

/-! ## Whole expansions -/

/-- The queries that an expansion can reach. -/
def Reaches (x : Expander) : Text → Text → Prop := Relation.ReflTransGen x.Step

/-- What every step keeps holds of every query that is reached. -/
theorem Reaches.invariant {x : Expander} {P : Text → Prop} {query reached : Text}
    (h : x.Reaches query reached) (hstep : ∀ q next, P q → x.Step q next → P next)
    (hquery : P query) : P reached := by
  induction h with
  | refl => exact hquery
  | tail _ hs ih => exact hstep _ _ ih hs

theorem Reaches.congr {x y : Expander} (hg : y.grammar = x.grammar)
    (ho : y.overrides = x.overrides) {query reached : Text} (h : x.Reaches query reached) :
    y.Reaches query reached := by
  induction h with
  | refl => exact .refl
  | tail _ hs ih => exact ih.tail (hs.congr hg ho)

/-- How the cycles of an expansion can end: without a tag, or with an error. -/
inductive CyclesEnd (x : Expander) (query : Text) : Except ExpansionError Text → Prop
  | tagless {reached : Text} :
      x.Reaches query reached → '[' ∉ reached → CyclesEnd x query (.ok reached)
  | noProgress : CyclesEnd x query (.error .noProgress)
  | tooManyCycles : CyclesEnd x query (.error (.tooManyCycles x.cycleLimit))
  | failed {reached : Text} {e : ExpansionError} :
      x.Reaches query reached → x.Fails reached e → CyclesEnd x query (.error e)

theorem CyclesEnd.of_step {x : Expander} {query next : Text} {r : Except ExpansionError Text}
    (hs : x.Step query next) (h : x.CyclesEnd next r) : x.CyclesEnd query r := by
  cases h with
  | tagless hr ht => exact .tagless (hr.head hs) ht
  | noProgress => exact .noProgress
  | tooManyCycles => exact .tooManyCycles
  | failed hr hf => exact .failed (hr.head hs) hf

/-- Every course follows the steps. -/
theorem Course.cyclesEnd {query : Text} {d : Draws σ} {visits : List (Visit σ)}
    {r : Except ExpansionError Text × Draws σ} (h : x.Course query d visits r) :
    x.CyclesEnd query r.1 := by
  induction h with
  | done hno => exact .tagless .refl hno
  | stopped hstop =>
      cases hstop with
      | noProgress => exact .noProgress
      | tooManyCycles => exact .tooManyCycles
      | noTag ho hf => exact .failed .refl (.noTag ho hf)
      | badTag ho hf ht => exact .failed .refl (.badTag ho hf ht)
  | unresolved hfirst htext =>
      obtain ⟨rfl, hkey⟩ := not_knows_of_textFor (congrArg Prod.fst htext)
      exact .failed .refl (.unknownKey hfirst hkey)
  | refused => exact .failed .refl .tooLarge
  | cycle hfirst htext happly _ ih =>
      exact ih.of_step (step_of_apply hfirst (congrArg Prod.fst htext) happly)

theorem cycles_end (x : Expander) (n : Nat) (progress : Progress) (query : Text) (d : Draws σ) :
    x.CyclesEnd query (x.cycles n progress query d).1 :=
  (x.course_of_cycles n progress query d).cyclesEnd

/-- Where the cycles end without an error, no tag is left of a query that is reached by steps. -/
theorem reaches_of_cycles {x : Expander} {n : Nat} {progress : Progress} {query reached : Text}
    {d : Draws σ} (h : (x.cycles n progress query d).1 = .ok reached) :
    x.Reaches query reached ∧ '[' ∉ reached := by
  have hend := x.cycles_end n progress query d
  rw [h] at hend
  cases hend with
  | tagless hr hno => exact ⟨hr, hno⟩

/-- How an expansion can end. -/
inductive Outcome (x : Expander) (query : Text) : Except ExpansionError Text → Prop
  | finished {reached : Text} :
      x.Reaches query reached → '[' ∉ reached → Outcome x query (finish reached)
  | noProgress : Outcome x query (.error .noProgress)
  | tooManyCycles : Outcome x query (.error (.tooManyCycles x.cycleLimit))
  | failed {reached : Text} {e : ExpansionError} :
      x.Reaches query reached → x.Fails reached e → Outcome x query (.error e)

/-- **Every expansion follows the steps**, whatever it draws. -/
theorem expand_outcome (x : Expander) (query : Text) (source : σ) :
    x.Outcome query (x.expand query source).1 := by
  have h := x.cycles_end (x.cycleLimit - 1) {} query { source := source }
  unfold expand
  cases hc : (x.cycles (x.cycleLimit - 1) {} query { source := source }).1 with
  | ok reached =>
      rw [hc] at h
      cases h with
      | tagless hr ht => simpa [hc, Except.bind] using Outcome.finished hr ht
  | error e =>
      rw [hc] at h
      simp only [hc, Except.bind]
      cases h with
      | noProgress => exact .noProgress
      | tooManyCycles => exact .tooManyCycles
      | failed hr hf => exact .failed hr hf

/-- A count fails as the expansion fails that it is made of. -/
theorem countOptions_eq_error {x : Expander} {query : Text} {source : σ} {e : ExpansionError} :
    (x.countOptions query source).1 = .error e ↔
      (({ x with counting := true } : Expander).expand query source).1 = .error e := by
  unfold countOptions
  cases h : (({ x with counting := true } : Expander).expand query source).1 with
  | ok phrase => simp [h, Except.map]
  | error e' => simp [h, Except.map]

end PhraseGrammar.Expander
