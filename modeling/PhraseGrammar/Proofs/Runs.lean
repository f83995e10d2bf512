import PhraseGrammar.Proofs.Agenda

set_option autoImplicit false

/-! # Runs

An expansion that succeeds is a run of cycles, each with the tag that it takes and the text that
it draws for it (`Expander.Run`). Apart from the draws a cycle leaves nothing open: what it makes
of the query is determined by the tag and the text (`Expander.place`). The tags of a run over a
flat query are those of its agenda (`Expander.Run.tags_eq_agenda`).
-/

namespace PhraseGrammar.Expander

open Letter Tag Text

variable {σ : Type} [WordSource σ] {x : Expander}

/-- The query with a text in the place of a tag, as a cycle leaves it. -/
def place (query inside new : Text) : Text :=
  let s := placing query (bracketed inside) (ofInside inside) new
  replace s.target s.new s.query.halveSpaces

/-- **A run** from a query to the one that it reaches, with the draws before and after it, and
with the texts that were drawn for the tags it has taken. -/
inductive Run (x : Expander) : Text → Draws σ → Outcomes → Text → Draws σ → Prop
  | done {query : Text} {d : Draws σ} : '[' ∉ query → Run x query d [] query d
  | cycle {query inside new next reached : Text} {d d₁ d' : Draws σ} {outcomes : Outcomes} :
      Query.FirstTag query inside →
      x.textFor (ofInside inside) (Draws.startTag d) = (.ok new, d₁) →
      (placing query (bracketed inside) (ofInside inside) new).apply x.sizeLimit = .ok next →
      Run x next d₁ outcomes reached d' →
      Run x query d ((inside, new) :: outcomes) reached d'

theorem place_of_apply {query inside new next : Text} {limit : Nat}
    (h : (placing query (bracketed inside) (ofInside inside) new).apply limit = .ok next) :
    next = place query inside new :=
  Substitution.eq_replace_of_apply h

/-- A course that succeeds is a run. -/
theorem Course.run {query reached : Text} {d d' : Draws σ} {visits : List (Visit σ)}
    (h : x.Course query d visits (.ok reached, d')) :
    ∃ outcomes, x.Run query d outcomes reached d' := by
  generalize hr : (Except.ok reached, d') = r at h
  induction h with
  | done hno =>
      cases hr
      exact ⟨[], .done hno⟩
  | stopped | unresolved | refused => cases hr
  | cycle hfirst htext happly _ ih =>
      obtain ⟨outcomes, hrun⟩ := ih hr
      exact ⟨_, .cycle hfirst htext happly hrun⟩

/-- Cycles that succeed are a run. -/
theorem run_of_cycles {n : Nat} {progress : Progress} {query reached : Text} {d d' : Draws σ}
    (h : x.cycles n progress query d = (.ok reached, d')) :
    ∃ outcomes, x.Run query d outcomes reached d' := by
  have hcourse := x.course_of_cycles n progress query d
  rw [h] at hcourse
  exact hcourse.run

/-- An expansion that succeeds is a run whose query is finished. -/
theorem run_of_expand {query phrase : Text} {source : σ}
    (h : (x.expand query source).1 = .ok phrase) :
    ∃ outcomes reached, x.Run query ⟨source, {}⟩ outcomes reached (x.expand query source).2 ∧
      finish reached = .ok phrase := by
  unfold expand at h ⊢
  generalize hc : x.cycles (x.cycleLimit - 1) {} query ⟨source, {}⟩ = r at h ⊢
  obtain ⟨outcome, d'⟩ := r
  cases outcome with
  | error e => cases h
  | ok reached =>
      obtain ⟨outcomes, hrun⟩ := run_of_cycles hc
      exact ⟨outcomes, reached, hrun, h⟩

/-- A count that succeeds is a run that counts, and gives the bounds behind its last draw. -/
theorem run_of_countOptions {query : Text} {source : σ} {bounds : Bounds}
    (h : (x.countOptions query source).1 = .ok bounds) :
    ∃ (outcomes : Outcomes) (reached : Text) (d' : Draws σ),
      ({ x with counting := true } : Expander).Run query ⟨source, {}⟩ outcomes reached d' ∧
        bounds = d'.estimate.bounds := by
  unfold countOptions at h
  dsimp only at h
  cases hphrase : (({ x with counting := true } : Expander).expand query source).1 with
  | error e => simp [hphrase, Except.map] at h
  | ok phrase =>
      rw [hphrase] at h
      cases h
      obtain ⟨outcomes, reached, hrun, -⟩ := run_of_expand hphrase
      exact ⟨outcomes, reached, _, hrun, rfl⟩

/-! ## Runs over flat queries -/

/-- The tags of a run over a flat query are what is left of its tags when those in `done` have
been drawn. -/
theorem Run.tags_eq_agendaFrom (ht : x.AllTexts BracketFree) {tags done : List Text}
    {ls : List Letter} {reached : Text} {d d' : Draws σ} {outcomes : Outcomes}
    (h : x.Run (text ls) d outcomes reached d') (hflat : ∀ l ∈ ls, l.Flat)
    (hin : insides ls = tags.filter fun b => ¬ Settles done b) :
    outcomes.map Prod.fst = agendaFrom done tags := by
  induction tags generalizing d outcomes done ls with
  | nil =>
      cases h with
      | done => rfl
      | cycle hfirst _ _ _ =>
          rw [firstTag_iff hflat, hin] at hfirst
          cases hfirst
  | cons b tags ih =>
      by_cases hb : Settles done b
      · rw [agendaFrom_cons_of_settles hb]
        refine ih h hflat ?_
        rw [hin, List.filter_cons_of_neg (by simpa using hb)]
      · -- the first tag of the query is the next one of the agenda
        rw [List.filter_cons_of_pos (by simpa using hb)] at hin
        rw [agendaFrom_cons hb]
        cases h with
        | done hno => exact absurd ((opening_mem_text hflat).mpr (by simp [hin])) hno
        | cycle hfirst hdraw happly hrun =>
            obtain rfl := hfirst.unique (firstTag_text hflat hin)
            have hnew := bracketFree_of_textFor ht hfirst.bracketFree (congrArg Prod.fst hdraw)
            obtain ⟨ls', rfl, -, hin', hflat'⟩ :=
              fill_of_apply hflat hfirst.bracketFree happly
            rw [insides_fill_outcomeOf hin] at hin'
            rw [List.map_cons, ih hrun (hflat' hnew) hin']

/-- **The tags of a run over a flat query are its agenda.** -/
theorem Run.tags_eq_agenda (ht : x.AllTexts BracketFree) {reached : Text} {d d' : Draws σ}
    {outcomes : Outcomes} {ls : List Letter} (h : x.Run (text ls) d outcomes reached d')
    (hflat : ∀ l ∈ ls, l.Flat) : outcomes.map Prod.fst = agenda (insides ls) :=
  h.tags_eq_agendaFrom ht hflat (by simp [Settles])

end PhraseGrammar.Expander
