import PhraseGrammar.Proofs.Filling
import PhraseGrammar.Proofs.Marks

set_option autoImplicit false

/-! # The tags that an expansion draws

If no text that comes into a flat query holds a bracket, then the tags that are drawn are known
beforehand. They are the tags of the query in the order of their first occurrence (`agenda`),
without those that a hidden tag before them has settled. The expansion draws one outcome for each
of them (`Expander.drawAll`) and its query ends, up to runs of spaces, as the query with the
outcomes filled in (`Expander.cycles_simulates`).
-/

namespace PhraseGrammar

open Letter Tag Text

/-- The outcomes of some tags, in the order in which they are drawn. -/
abbrev Outcomes := List (Text × Text)

/-- What some outcomes say about the tags: the first one that says anything about a tag counts. -/
def Outcomes.reading (outcomes : Outcomes) : Reading := fun b =>
  outcomes.findSome? fun o => outcomeOf o.1 o.2 b

theorem Outcomes.reading_cons (inside t : Text) (outcomes : Outcomes) (b : Text) :
    Outcomes.reading ((inside, t) :: outcomes) b
      = (outcomeOf inside t b).or (Outcomes.reading outcomes b) := by
  unfold Outcomes.reading
  rw [List.findSome?_cons]
  cases outcomeOf inside t b <;> rfl

/-- The outcomes of some tags settle a tag: it is one of them, or one of them with the marker of
hidden tags. -/
def Settles (done : List Text) (b : Text) : Prop := b ∈ done ∨ '!' :: b ∈ done

instance (done : List Text) (b : Text) : Decidable (Settles done b) :=
  inferInstanceAs (Decidable (_ ∨ _))

/-- The tags of a list that are drawn when those in `done` have been. -/
def agendaFrom (done : List Text) : List Text → List Text
  | [] => []
  | b :: tags =>
    if Settles done b then agendaFrom done tags else b :: agendaFrom (b :: done) tags

/-- **The tags that are drawn**, in the order of their first occurrence. A tag is left out if it
stands before with the marker of hidden tags. -/
def agenda (tags : List Text) : List Text := agendaFrom [] tags

theorem agendaFrom_cons_of_settles {done : List Text} {b : Text} (h : Settles done b)
    (tags : List Text) : agendaFrom done (b :: tags) = agendaFrom done tags := by
  rw [agendaFrom, if_pos h]

theorem agendaFrom_cons {done : List Text} {b : Text} (h : ¬ Settles done b)
    (tags : List Text) :
    agendaFrom done (b :: tags) = b :: agendaFrom (b :: done) tags := by
  rw [agendaFrom, if_neg h]

theorem length_agendaFrom_le (done tags : List Text) :
    (agendaFrom done tags).length ≤ tags.length := by
  induction tags generalizing done with
  | nil => exact Nat.le_refl 0
  | cons b tags ih =>
      by_cases h : Settles done b
      · rw [agendaFrom_cons_of_settles h, List.length_cons]
        have := ih done
        omega
      · rw [agendaFrom_cons h, List.length_cons, List.length_cons]
        have := ih (b :: done)
        omega

theorem settles_cons {done : List Text} {inside b : Text} :
    Settles (inside :: done) b ↔ (b = inside ∨ '!' :: b = inside) ∨ Settles done b := by
  unfold Settles
  rw [List.mem_cons, List.mem_cons]
  tauto

theorem agendaFrom_subset (done tags : List Text) : agendaFrom done tags ⊆ tags := by
  induction tags generalizing done with
  | nil => exact List.Subset.refl _
  | cons b tags ih =>
      by_cases h : Settles done b
      · rw [agendaFrom_cons_of_settles h]
        exact List.Subset.trans (ih done) (List.subset_cons_self b tags)
      · rw [agendaFrom_cons h]
        exact List.cons_subset_cons b (ih (b :: done))

/-- The tags that are left when the first one of them has an outcome. -/
theorem insides_fill_outcomeOf {ls : List Letter} {tags done : List Text} {inside : Text}
    (h : insides ls = inside :: tags.filter fun b => ¬ Settles done b) (new : Text) :
    insides (fill (outcomeOf inside new) ls)
      = tags.filter fun b => ¬ Settles (inside :: done) b := by
  have hself : (outcomeOf inside new inside).isNone = false := by
    rw [Bool.eq_false_iff, Ne, isNone_outcomeOf]
    exact fun h => h.1 rfl
  rw [insides_fill, h, List.filter_cons_of_neg (by simp [hself]), List.filter_filter]
  refine List.filter_congr fun b _ => ?_
  rw [Bool.eq_iff_iff, Bool.and_eq_true, isNone_outcomeOf, decide_eq_true_iff,
    decide_eq_true_iff, settles_cons]
  tauto

namespace Expander

variable {σ : Type} [WordSource σ] {x : Expander}

/-- Draws the outcomes of tags, one after the other. -/
def drawAll (x : Expander) : List Text → Draws σ → Except ExpansionError Outcomes × Draws σ
  | [], d => (.ok [], d)
  | inside :: tags, d =>
    match x.textFor (ofInside inside) (Draws.startTag d) with
    | (.error e, d) => (.error e, d)
    | (.ok t, d) => ((x.drawAll tags d).1.map ((inside, t) :: ·), (x.drawAll tags d).2)

/-- Tags are drawn if the first one is, and the others with the draws behind it. -/
theorem drawAll_cons_eq_ok {inside new : Text} {tags : List Text} {outcomes : Outcomes}
    {d d' : Draws σ} :
    x.drawAll (inside :: tags) d = (.ok ((inside, new) :: outcomes), d') ↔
      ∃ d₁, x.textFor (ofInside inside) (Draws.startTag d) = (.ok new, d₁) ∧
        x.drawAll tags d₁ = (.ok outcomes, d') := by
  rw [drawAll]
  obtain ⟨drawn, d₁⟩ := x.textFor (ofInside inside) (Draws.startTag d)
  cases drawn with
  | error e => simp
  | ok t =>
      have hstep : ∀ rest : Except ExpansionError Outcomes × Draws σ,
          (rest.1.map ((inside, t) :: ·), rest.2) = (.ok ((inside, new) :: outcomes), d') ↔
            t = new ∧ rest = (.ok outcomes, d') := by
        rintro ⟨_ | rest, d₂⟩ <;> simp [Except.map, and_assoc]
      dsimp only
      rw [hstep]
      simp

/-- **How the cycles of a flat query end**, given the draws of its agenda: the query has grown
too large, or a draw has failed, or the outcomes are filled in, up to runs of spaces. -/
inductive Simulates (x : Expander) (ls : List Letter)
    (drawn : Except ExpansionError Outcomes × Draws σ) :
    Except ExpansionError Text × Draws σ → Prop
  | tooLarge {d : Draws σ} : Simulates x ls drawn (.error (.tooLarge x.sizeLimit), d)
  | failed {e : ExpansionError} : drawn.1 = .error e → Simulates x ls drawn (.error e, drawn.2)
  | filled {outcomes : Outcomes} {reached : Text} :
      drawn.1 = .ok outcomes →
      squeeze ' ' reached = squeeze ' ' (text (fill outcomes.reading ls)) →
      Simulates x ls drawn (.ok reached, drawn.2)

omit [WordSource σ] in
/-- The outcome of the first tag, and how the cycles behind it end. -/
theorem Simulates.cons {ls ls' : List Letter} {inside new : Text}
    {drawn : Except ExpansionError Outcomes × Draws σ}
    {r : Except ExpansionError Text × Draws σ}
    (hls : squeeze (.char ' ') ls' = squeeze (.char ' ') (fill (outcomeOf inside new) ls))
    (h : x.Simulates ls' drawn r) :
    x.Simulates ls (drawn.1.map ((inside, new) :: ·), drawn.2) r := by
  cases h with
  | tooLarge => exact .tooLarge
  | failed he => exact .failed (by rw [he]; rfl)
  | @filled outcomes reached ho hr =>
      have hdrawn : drawn.1.map ((inside, new) :: ·) = .ok ((inside, new) :: outcomes) := by
        rw [ho]
        rfl
      refine .filled hdrawn ?_
      have hboth : fill outcomes.reading (fill (outcomeOf inside new) ls)
          = fill (Outcomes.reading ((inside, new) :: outcomes)) ls := by
        rw [fill_fill]
        exact congrArg (fill · ls) (funext fun b => (Outcomes.reading_cons inside new _ b).symm)
      rw [hr, ← hboth]
      exact squeeze_text (squeeze_fill _ hls)

/-- An outcome holds no bracket, if no text of the grammar does. -/
theorem bracketFree_of_textFor (ht : x.AllTexts BracketFree) {inside new : Text} {d : Draws σ}
    (hin : BracketFree inside) (h : (x.textFor (ofInside inside) d).1 = .ok new) :
    BracketFree new := by
  rcases means_of_textFor h with hm | ⟨-, rfl⟩
  · refine ht.means bracketFree_nil ?_ Article.bracketFree_mark hm
    exact forall_mem_splitOn (fun _ _ => BracketFree.cut)
      (key_of_cut (fun _ _ _ _ => BracketFree.cut) hin)
  · exact bracketFree_nil

/-- **The cycles of a flat query draw its agenda.** The tags in `done` have been drawn, and what
is left of `tags` is what they do not settle. -/
theorem cycles_simulates (ht : x.AllTexts BracketFree) {tags done : List Text}
    {ls : List Letter} (hflat : ∀ l ∈ ls, l.Flat)
    (hin : insides ls = tags.filter fun b => ¬ Settles done b) {n : Nat}
    (hn : (agendaFrom done tags).length ≤ n) {progress : Progress}
    (hp : insides ls ≠ [] → progress.previous ≠ text ls) (d : Draws σ) :
    x.Simulates ls (x.drawAll (agendaFrom done tags) d) (x.cycles n progress (text ls) d) := by
  induction tags generalizing done ls n progress d with
  | nil =>
      rw [cycles_of_not_mem x n progress d (opening_not_mem_text hflat hin)]
      refine .filled rfl ?_
      rw [eq_plain_of_insides hin, fill_plain]
  | cons b tags ih =>
      by_cases hb : Settles done b
      · rw [agendaFrom_cons_of_settles hb] at hn ⊢
        refine ih hflat ?_ hn hp d
        rw [hin, List.filter_cons_of_neg (by simpa using hb)]
      · -- the first tag of the query is the next one of the agenda
        rw [List.filter_cons_of_pos (by simpa using hb)] at hin
        rw [agendaFrom_cons hb] at hn ⊢
        have hfirst := firstTag_text hflat hin
        have hfree := hfirst.bracketFree
        obtain ⟨n, rfl⟩ : ∃ m, n = m + 1 := by
          rw [List.length_cons] at hn
          exact ⟨n - 1, by omega⟩
        have hnext := next?_of_ne (hp (by simp [hin])).symm
        have hcycle := x.firstCycle n d hfirst hnext
        rw [drawAll]
        generalize hdrawn : x.textFor (ofInside b) (Draws.startTag d) = drawn at hcycle ⊢
        generalize x.cycles (n + 1) progress (text ls) d = r at hcycle ⊢
        cases hcycle with
        | unresolved => exact .failed rfl
        | tooLarge => exact .tooLarge
        | replaced happly =>
            have hnew := bracketFree_of_textFor ht hfree (congrArg Prod.fst hdrawn)
            obtain ⟨ls', rfl, hsqueeze, hin', hflat'⟩ := fill_of_apply hflat hfree happly
            rw [insides_fill_outcomeOf hin] at hin'
            have hgone : b ∉ insides ls' := by
              simp [hin', Settles]
            -- the query has changed, so the expansion does not stand still
            have hprev := text_ne_text hflat (hflat' hnew) hin hgone
            exact (ih (hflat' hnew) hin' (Nat.le_of_succ_le_succ hn) (fun _ => hprev)
              _).cons hsqueeze

/-- **How the expansion of a flat query ends**, given the draws of its agenda. -/
theorem expand_simulates (ht : x.AllTexts BracketFree) {ls : List Letter}
    (hflat : ∀ l ∈ ls, l.Flat) (hlimit : (agenda (insides ls)).length < x.cycleLimit)
    (source : σ) :
    (x.expand (text ls) source).1 = .error (.tooLarge x.sizeLimit) ∨
      (∃ e, (x.drawAll (agenda (insides ls)) ⟨source, {}⟩).1 = .error e ∧
        x.expand (text ls) source
          = (.error e, (x.drawAll (agenda (insides ls)) ⟨source, {}⟩).2)) ∨
      ∃ (outcomes : Outcomes) (reached : Text),
        (x.drawAll (agenda (insides ls)) ⟨source, {}⟩).1 = .ok outcomes ∧
        squeeze ' ' reached = squeeze ' ' (text (fill outcomes.reading ls)) ∧
        x.expand (text ls) source
          = (finish reached, (x.drawAll (agenda (insides ls)) ⟨source, {}⟩).2) := by
  have hin : insides ls = (insides ls).filter fun b => ¬ Settles [] b := by
    simp [Settles]
  -- at the start nothing has been drawn, and the empty query is remembered
  have hprev : insides ls ≠ [] → ({} : Progress).previous ≠ text ls := nil_ne_text hflat
  have hsim := cycles_simulates ht hflat hin (Nat.le_sub_one_of_lt hlimit) hprev ⟨source, {}⟩
  unfold expand
  generalize x.cycles (x.cycleLimit - 1) {} (text ls) ⟨source, {}⟩ = r at hsim ⊢
  cases hsim with
  | tooLarge => exact Or.inl rfl
  | failed he => exact Or.inr (Or.inl ⟨_, he, rfl⟩)
  | filled ho hr => exact Or.inr (Or.inr ⟨_, _, ho, hr, rfl⟩)

end Expander

end PhraseGrammar
