import PhraseGrammar.Proofs.Sizes
import PhraseGrammar.Proofs.Traces
import PhraseGrammar.Proofs.Turns
import PhraseGrammar.Random.Keystream

set_option autoImplicit false

/-! # The limit on the size of a query

A replacement is refused for a size that is computed before it is made. That size is exact as long
as there are counts beyond the limit: a replacement is refused exactly if its outcome is larger than
the limit, and the size of what is made is the one that was computed (`Substitution.exact_of_lt`).

So every query that an expansion holds behind a replacement keeps to the limit. Articles are no
longer than their marks, and trimming removes characters, so the phrase keeps to the limit as well,
unless there was nothing to replace (`Expander.size_exact`).
-/

namespace PhraseGrammar

open Text Tag

/-! ## One replacement -/

namespace Substitution

/-- The query with every occurrence of the target replaced, whatever its size. -/
def outcome (s : Substitution) : Text := replace s.target s.new s.query.halveSpaces

/-- The number of occurrences that are replaced. -/
def occurrences (s : Substitution) : Nat := (cut s.target s.query.halveSpaces).occurrences

/-- The size that is computed before the replacement. -/
def projected (s : Substitution) : Nat :=
  projectedSize s.query.halveSpaces s.target s.new s.occurrences

/-- The size of the outcome of a replacement is known before the replacement is made. -/
structure Exact (s : Substitution) (limit : Nat) : Prop where
  /-- What is taken away is not larger than the query. -/
  taken_le : s.occurrences * s.target.byteSize ≤ s.query.halveSpaces.byteSize
  /-- What is refused is too large, and what is too large is refused. -/
  refused_iff : s.apply limit = .error (.tooLarge limit) ↔ limit < s.outcome.byteSize
  /-- What is made has the size that was computed. -/
  of_apply {query : Text} : s.apply limit = .ok query →
    query = s.outcome ∧ s.projected = query.byteSize ∧ query.byteSize ≤ limit

theorem taken_le (s : Substitution) :
    s.occurrences * s.target.byteSize ≤ s.query.halveSpaces.byteSize := by
  have hsize := byteSize_eq_pieces s.target s.query.halveSpaces
  unfold occurrences
  omega

theorem projected_eq (s : Substitution) : s.projected = min s.outcome.byteSize Count.largest :=
  projectedSize_eq _ _ _

theorem apply_eq (s : Substitution) (limit : Nat) :
    s.apply limit = if limit < s.projected then .error (.tooLarge limit) else .ok s.outcome := rfl

/-- **The size is exact** if there are counts beyond the limit. -/
theorem exact_of_lt {limit : Nat} (h : limit < Count.largest) (s : Substitution) :
    s.Exact limit := by
  have hprojected := s.projected_eq
  refine ⟨s.taken_le, ?_, fun {query} happly => ?_⟩
  · rw [apply_eq]
    split
    · next hlt => exact iff_of_true rfl (by omega)
    · next hle => exact iff_of_false (by simp) (by omega)
  · rw [apply_eq] at happly
    split at happly
    · cases happly
    · next hle =>
        cases happly
        exact ⟨rfl, by omega, by omega⟩

end Substitution

/-! ## Articles and trimming -/

namespace Expander

/-- What is left to do behind the last replacement does not make the query larger. -/
theorem byteSize_le_of_finish {reached phrase : Text} (h : finish reached = .ok phrase) :
    phrase.byteSize ≤ reached.byteSize := by
  unfold finish at h
  cases hs : Article.settle reached with
  | error e =>
      rw [hs] at h
      cases h
  | ok settled =>
      rw [hs] at h
      cases h
      calc settled.trim.byteSize
          ≤ settled.byteSize := byteSize_le_of_sublist settled.trim_sublist_self
        _ ≤ reached.byteSize := Article.byteSize_le_of_settle hs

theorem finish_ne_tooLarge (reached : Text) (limit : Nat) :
    finish reached ≠ .error (.tooLarge limit) := by
  intro h
  unfold finish at h
  cases hs : Article.settle reached with
  | error e =>
      rw [hs] at h
      cases h
      cases Article.eq_brokenArticle_of_settle hs
  | ok settled =>
      rw [hs] at h
      cases h

/-! ## All replacements of an expansion -/

variable {σ : Type} [WordSource σ] {x : Expander}

/-- A phrase is what is finished behind the cycles. -/
theorem cycles_of_expand {query phrase : Text} {source : σ}
    (h : (x.expand query source).1 = .ok phrase) :
    ∃ reached, (x.cycles (x.cycleLimit - 1) {} query { source }).1 = .ok reached ∧
      finish reached = .ok phrase := by
  unfold expand at h
  cases hc : (x.cycles (x.cycleLimit - 1) {} query { source }).1 with
  | error e => simp [hc, Except.bind] at h
  | ok reached =>
      refine ⟨reached, rfl, ?_⟩
      simpa [hc, Except.bind] using h

/-- It is the cycles that an expansion fails in for the size of its query. -/
theorem expand_eq_tooLarge_iff {query : Text} {source : σ} {limit : Nat} :
    (x.expand query source).1 = .error (.tooLarge limit) ↔
      (x.cycles (x.cycleLimit - 1) {} query { source }).1 = .error (.tooLarge limit) := by
  unfold expand
  cases hc : (x.cycles (x.cycleLimit - 1) {} query { source }).1 with
  | error e => simp [hc, Except.bind]
  | ok reached => simpa [hc, Except.bind] using finish_ne_tooLarge reached limit

/-- The replacement that a tag asks for when it is taken up, if there is a text for the tag. -/
def Visit.replacement? (x : Expander) (v : Visit σ) : Option Substitution :=
  (x.substitution v.query v.found v.tag v.draws).1.toOption

/-- **The replacements of an expansion**, in order. The last one may be refused. -/
def replacements (x : Expander) (query : Text) (source : σ) : List Substitution :=
  (x.visits query source).filterMap (Visit.replacement? x)

theorem replacement?_first {query inside new : Text} {d d' : Draws σ}
    (h : x.textFor (ofInside inside) (Draws.startTag d) = (.ok new, d')) :
    (Visit.first query inside d).replacement? x
      = some (placing query (bracketed inside) (ofInside inside) new) := by
  unfold Visit.replacement? Visit.first
  rw [substitution_eq, h]
  rfl

theorem replacement?_first_of_error {query inside : Text} {d d' : Draws σ} {e : ExpansionError}
    (h : x.textFor (ofInside inside) (Draws.startTag d) = (.error e, d')) :
    (Visit.first query inside d).replacement? x = none := by
  unfold Visit.replacement? Visit.first
  rw [substitution_eq, h]
  rfl

/-- **A course ends for the size of its query** exactly if one of its replacements is refused. -/
theorem Course.tooLarge_iff {query : Text} {d : Draws σ} {visits : List (Visit σ)}
    {r : Except ExpansionError Text × Draws σ} (h : x.Course query d visits r) :
    r.1 = .error (.tooLarge x.sizeLimit) ↔
      ∃ s ∈ visits.filterMap (Visit.replacement? x),
        s.apply x.sizeLimit = .error (.tooLarge x.sizeLimit) := by
  induction h with
  | done => simp
  | stopped hstop => simp [hstop.ne_tooLarge]
  | unresolved _ htext =>
      -- an unknown key is not a size
      have hunknown := (not_knows_of_textFor (congrArg Prod.fst htext)).1
      simp [replacement?_first_of_error htext, hunknown]
  | refused _ htext happly => simp [replacement?_first htext, happly]
  | cycle _ htext happly _ ih => simp [replacement?_first htext, happly, ih]

/-- Every query from the given one on keeps to the limit, if that one does. -/
theorem Course.byteSize_le (hlimit : x.sizeLimit < Count.largest) {query : Text} {d : Draws σ}
    {visits : List (Visit σ)} {r : Except ExpansionError Text × Draws σ}
    (h : x.Course query d visits r) (hquery : query.byteSize ≤ x.sizeLimit) :
    (∀ v ∈ visits, v.query.byteSize ≤ x.sizeLimit) ∧
      ∀ reached, r.1 = .ok reached → reached.byteSize ≤ x.sizeLimit := by
  induction h with
  | done =>
      refine ⟨by simp, fun reached hr => ?_⟩
      cases hr
      exact hquery
  | stopped => exact ⟨by simp, fun reached hr => nomatch hr⟩
  | unresolved | refused =>
      refine ⟨fun v hv => ?_, fun reached hr => nomatch hr⟩
      obtain rfl := List.mem_singleton.mp hv
      exact hquery
  | cycle _ _ happly _ ih =>
      obtain ⟨hvisits, hreached⟩ := ih ((Substitution.exact_of_lt hlimit _).of_apply happly).2.2
      refine ⟨fun v hv => ?_, hreached⟩
      rcases List.mem_cons.mp hv with rfl | hv
      · exact hquery
      · exact hvisits v hv

/-- Behind the first replacement every query keeps to the limit. -/
theorem Course.byteSize_le_of_mem (hlimit : x.sizeLimit < Count.largest) {query : Text}
    {d : Draws σ} {visits : List (Visit σ)} {r : Except ExpansionError Text × Draws σ}
    (h : x.Course query d visits r) (hquery : '[' ∈ query) :
    (∀ v ∈ visits.tail, v.query.byteSize ≤ x.sizeLimit) ∧
      ∀ reached, r.1 = .ok reached → reached.byteSize ≤ x.sizeLimit := by
  cases h with
  | done hno => exact absurd hquery hno
  | stopped | unresolved | refused => exact ⟨by simp, fun reached hr => nomatch hr⟩
  | cycle _ _ happly hrest =>
      exact hrest.byteSize_le hlimit ((Substitution.exact_of_lt hlimit _).of_apply happly).2.2

/-- **The limit on the size of a query is exact**, if it is not the largest count. The size of every
replacement is known before it is made, and the expansion fails for its size exactly if one of its
replacements would make a larger query than the limit allows. Every query behind a replacement
keeps to the limit, and so does the phrase of every query with a tag. -/
theorem size_exact {x : Expander} (hlimit : x.sizeLimit < Count.largest) (query : Text)
    (source : σ) :
    (∀ s ∈ x.replacements query source, s.Exact x.sizeLimit) ∧
      ((x.expand query source).1 = .error (.tooLarge x.sizeLimit) ↔
        ∃ s ∈ x.replacements query source, x.sizeLimit < s.outcome.byteSize) ∧
      (∀ v ∈ (x.visits query source).tail, v.query.byteSize ≤ x.sizeLimit) ∧
      ∀ phrase, '[' ∈ query → (x.expand query source).1 = .ok phrase →
        phrase.byteSize ≤ x.sizeLimit := by
  have hexact := Substitution.exact_of_lt hlimit
  have hcourse := x.course_of_cycles (x.cycleLimit - 1) {} query ⟨source, {}⟩
  refine ⟨fun s _ => hexact s, ?_, ?_, ?_⟩
  · rw [expand_eq_tooLarge_iff, hcourse.tooLarge_iff]
    exact exists_congr fun s => and_congr_right fun _ => (hexact s).refused_iff
  · by_cases hquery : '[' ∈ query
    · exact (hcourse.byteSize_le_of_mem hlimit hquery).1
    · -- without a tag there is nothing to replace
      simp [visits, trace_of_not_mem _ _ _ hquery]
  · intro phrase hquery hphrase
    obtain ⟨reached, hreached, hfinish⟩ := cycles_of_expand hphrase
    calc phrase.byteSize
        ≤ reached.byteSize := byteSize_le_of_finish hfinish
      _ ≤ x.sizeLimit := (hcourse.byteSize_le_of_mem hlimit hquery).2 reached hreached

/-! ### A query that reaches the limit -/

/-- The term of `r` is `éé[s]`, of as many bytes as are allowed. -/
def brink : Expander where
  grammar := { categories := [(['r'], [['é', 'é'] ++ bracketed ['s']])] }
  overrides := [(['s'], ['b'])]
  cycleLimit := 9
  sizeLimit := 7

theorem brink_size_exact :
    (brink.sizeLimit < Count.largest ∧
      (brink.replacements (bracketed ['r']) (Keystream.ofSeed 7)).map (·.outcome.byteSize)
        = [7, 5]) ∧
    (∀ s ∈ brink.replacements (bracketed ['r']) (Keystream.ofSeed 7), s.Exact 7) ∧
      ((brink.expand (bracketed ['r']) (Keystream.ofSeed 7)).1 = .error (.tooLarge 7) ↔
        ∃ s ∈ brink.replacements (bracketed ['r']) (Keystream.ofSeed 7),
          7 < s.outcome.byteSize) ∧
      (∀ v ∈ (brink.visits (bracketed ['r']) (Keystream.ofSeed 7)).tail,
        v.query.byteSize ≤ 7) ∧
      ∀ phrase, '[' ∈ bracketed ['r'] →
        (brink.expand (bracketed ['r']) (Keystream.ofSeed 7)).1 = .ok phrase →
        phrase.byteSize ≤ 7 := by
  have hlimit : brink.sizeLimit < Count.largest := by decide
  exact ⟨⟨hlimit, by decide +kernel⟩,
    size_exact hlimit (bracketed ['r']) (Keystream.ofSeed 7)⟩

end Expander

end PhraseGrammar
