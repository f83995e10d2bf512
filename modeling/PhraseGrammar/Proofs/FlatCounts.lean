import PhraseGrammar.Proofs.Faults
import PhraseGrammar.Proofs.OptionBound
import PhraseGrammar.Proofs.TagValues

set_option autoImplicit false

/-! # The count of a flat query

The tags that a flat query draws can be read off the query (`drawnTags`), and a count looks up
every one of them, also the optional ones that the coin leaves out. So what a count gives does not
depend on the draws: it is the error of the first tag whose key has no meaning, or it is settled by
the terms of the tags (`Expander.closedCount`). The size of the query under way is the only thing
that depends on the draws, and a count can only be refused for it.

A phrase may leave out tags that a count looks up. Where a count succeeds, all keys have a meaning,
and no phrase fails but for its size either (`Engine.options_eq_closedCount`).
-/

namespace PhraseGrammar

open Letter Tag Text

/-! ## The tags that are drawn -/

/-- **The tags that a flat query with the given tags draws**: each one where it stands first,
unless it stands behind the same tag with the marker of hidden tags. -/
def drawnTags (tags : List Text) : List Text :=
  (tags.filter fun b => !(tags.takeWhile (· != b)).contains ('!' :: b)).eraseDups

/-- The tags in `done` may have been drawn before. -/
theorem agendaFrom_eq_eraseDups {tags done : List Text} (hdone : ∀ b ∈ done, Unmarked b)
    (htags : ∀ b ∈ tags, Unmarked b) :
    agendaFrom done tags
      = (tags.filter fun b =>
          ¬ Settles done b ∧ '!' :: b ∉ tags.takeWhile (· != b)).eraseDups := by
  induction tags generalizing done with
  | nil => rfl
  | cons a tags ih =>
      have ha := htags a List.mem_cons_self
      have htags' := fun c hc => htags c (List.mem_cons_of_mem a hc)
      by_cases hs : Settles done a
      · rw [agendaFrom_cons_of_settles hs, ih hdone htags', List.filter_cons_of_neg (by simp [hs])]
        refine congrArg List.eraseDups (List.filter_congr fun b _ => ?_)
        rw [decide_eq_decide]
        refine and_congr_right fun hb => ?_
        obtain ⟨hab, hhidden⟩ := ne_of_settles hdone hs hb
        rw [List.takeWhile_cons_of_pos (by simpa using hab.symm), List.mem_cons, not_or]
        exact (and_iff_right hhidden).symm
      · have hdone' : ∀ c ∈ a :: done, Unmarked c := by
          intro c hc
          rcases List.mem_cons.mp hc with rfl | hc
          · exact ha
          · exact hdone c hc
        rw [agendaFrom_cons hs, ih hdone' htags', List.filter_cons_of_pos (by simp [hs]),
          List.eraseDups_cons, List.filter_filter]
        refine congrArg (a :: ·.eraseDups) (List.filter_congr fun b _ => ?_)
        rw [Bool.eq_iff_iff, Bool.and_eq_true, decide_eq_true_iff, decide_eq_true_iff, settles_cons]
        -- the tag `a` is drawn here, which leaves out `a` itself and its form without marker
        by_cases hab : b = a
        · simp [hab]
        · rw [List.takeWhile_cons_of_pos (by simpa using Ne.symm hab), List.mem_cons]
          simp [hab]
          tauto

theorem agenda_eq_drawnTags {tags : List Text} (h : ∀ b ∈ tags, Unmarked b) :
    agenda tags = drawnTags tags := by
  rw [agenda, agendaFrom_eq_eraseDups (by simp) h, drawnTags]
  refine congrArg List.eraseDups (List.filter_congr fun b _ => ?_)
  simp [Settles]

namespace Expander

variable {σ : Type} [WordSource σ] {x : Expander}

/-! ## Drawing all tags -/

theorem Means.knows {key text : Text} (h : x.Means key text) : x.Knows key := by
  unfold Knows
  cases h with
  | term hs _ => exact Or.inl hs
  | forced _ ho => simp [ho]
  | alternative _ _ hg _ => simp [hg]
  | nothing _ _ hg => simp [hg]
  | article _ _ _ ha => simp [ha]

theorem exists_textFor {tag : Tag} (h : x.Knows tag.key) (d : Draws σ) :
    ∃ new, (x.textFor tag d).1 = .ok new := by
  cases ht : (x.textFor tag d).1 with
  | ok new => exact ⟨new, rfl⟩
  | error e => exact absurd h (not_knows_of_textFor ht).2

theorem meaning_of_not_knows {key : Text} (h : ¬ x.Knows key) (d : Draws σ) :
    (x.meaning key d).1 = .error (.unknownKey key) := by
  cases hm : (x.meaning key d).1 with
  | ok text => exact absurd (means_of_meaning hm).knows h
  | error e => rw [(not_knows_of_meaning hm).1]

/-- A count looks up an optional tag also if it is left out. -/
theorem textFor_of_not_knows (hc : x.counting = true) {tag : Tag} (h : ¬ x.Knows tag.key)
    (d : Draws σ) : (x.textFor tag d).1 = .error (.unknownKey tag.key) := by
  unfold textFor
  cases tag.kind with
  | optional =>
      unfold optionalMeaning
      simp only [hc, Bool.not_true, Bool.and_false, Bool.false_eq_true, ↓reduceIte]
      rw [meaning_of_not_knows h]
      rfl
  | hidden | alternation | named => exact meaning_of_not_knows h d

/-- The first tag whose key has no meaning. -/
def firstUnknown (x : Expander) (tags : List Text) : Option Text :=
  tags.find? fun inside => ¬ x.Knows (ofInside inside).key

theorem firstUnknown_cons_of_knows {inside : Text} (h : x.Knows (ofInside inside).key)
    (tags : List Text) : x.firstUnknown (inside :: tags) = x.firstUnknown tags :=
  List.find?_cons_of_neg (by simpa using h)

theorem firstUnknown_cons {inside : Text} (h : ¬ x.Knows (ofInside inside).key)
    (tags : List Text) : x.firstUnknown (inside :: tags) = some inside :=
  List.find?_cons_of_pos (by simpa using h)

/-- A tag that is drawn, and the tags behind it. -/
theorem drawAll_cons {inside new : Text} {d : Draws σ}
    (h : (x.textFor (ofInside inside) (Draws.startTag d)).1 = .ok new) (tags : List Text) :
    x.drawAll (inside :: tags) d
      = ((x.drawAll tags (x.textFor (ofInside inside) (Draws.startTag d)).2).1.map
            ((inside, new) :: ·),
          (x.drawAll tags (x.textFor (ofInside inside) (Draws.startTag d)).2).2) := by
  rw [drawAll]
  generalize x.textFor (ofInside inside) (Draws.startTag d) = drawn at h ⊢
  obtain ⟨_, d'⟩ := drawn
  obtain rfl := h
  rfl

/-- Tags whose keys have a meaning are all drawn. -/
theorem exists_drawAll {tags : List Text} (h : x.firstUnknown tags = none) (d : Draws σ) :
    ∃ outcomes, (x.drawAll tags d).1 = .ok outcomes := by
  induction tags generalizing d with
  | nil => exact ⟨[], rfl⟩
  | cons inside tags ih =>
      by_cases hk : x.Knows (ofInside inside).key
      · rw [firstUnknown_cons_of_knows hk] at h
        obtain ⟨new, hnew⟩ := exists_textFor hk (Draws.startTag d)
        obtain ⟨outcomes, ho⟩ := ih h (x.textFor (ofInside inside) (Draws.startTag d)).2
        rw [drawAll_cons hnew, ho]
        exact ⟨(inside, new) :: outcomes, rfl⟩
      · rw [firstUnknown_cons hk] at h
        cases h

/-- **A count fails at the first tag whose key has no meaning.** -/
theorem drawAll_of_firstUnknown (hc : x.counting = true) {tags : List Text} {unknown : Text}
    (h : x.firstUnknown tags = some unknown) (d : Draws σ) :
    (x.drawAll tags d).1 = .error (.unknownKey (ofInside unknown).key) := by
  induction tags generalizing d with
  | nil => cases h
  | cons inside tags ih =>
      by_cases hk : x.Knows (ofInside inside).key
      · rw [firstUnknown_cons_of_knows hk] at h
        obtain ⟨new, hnew⟩ := exists_textFor hk (Draws.startTag d)
        rw [drawAll_cons hnew, ih h]
        rfl
      · rw [firstUnknown_cons hk] at h
        obtain rfl := Option.some.inj h
        have herror := textFor_of_not_knows hc hk (Draws.startTag d)
        rw [drawAll]
        generalize x.textFor (ofInside inside) (Draws.startTag d) = drawn at herror ⊢
        obtain ⟨_, d'⟩ := drawn
        obtain rfl := herror
        rfl

/-- The tags that draw a term. -/
def drawing (x : Expander) (tags : List Text) : List Text :=
  tags.filter fun inside => x.terms (ofInside inside).key ≠ []

/-- The tags that draw no term have one branch. -/
theorem prod_drawing (x : Expander) (tags : List Text) :
    (tags.map x.branches).prod = ((x.drawing tags).map x.branches).prod := by
  induction tags with
  | nil => rfl
  | cons inside tags ih =>
      rw [List.map_cons, List.prod_cons, ih]
      by_cases ht : x.terms (ofInside inside).key = []
      · rw [branches_of_nil ht, Nat.one_mul, drawing, drawing,
          List.filter_cons_of_neg (by simpa using ht)]
      · rw [drawing, drawing, List.filter_cons_of_pos (by simpa using ht), List.map_cons,
          List.prod_cons]

/-- A count makes the draws of its tags, if their keys have a meaning. -/
theorem drawAll_draws (hc : x.counting = true) {tags : List Text}
    (h : x.firstUnknown tags = none) (d : Draws σ) :
    (x.drawAll tags d).2
      = (tags.map fun inside => x.countedDraw (ofInside inside)).foldl TagDraw.take d := by
  induction tags generalizing d with
  | nil => rfl
  | cons inside tags ih =>
      by_cases hk : x.Knows (ofInside inside).key
      · rw [firstUnknown_cons_of_knows hk] at h
        obtain ⟨new, hnew⟩ := exists_textFor hk (Draws.startTag d)
        rw [drawAll_cons hnew, ih h, textFor_draws, drawFor_of_counting hc]
        rfl
      · rw [firstUnknown_cons hk] at h
        cases h

/-- The draws with a choice are those of the tags that draw a term. -/
theorem length_choices (x : Expander) (tags : List Text) :
    (TagDraw.choices (tags.map fun inside => x.countedDraw (ofInside inside))).length
      = (x.drawing tags).length := by
  rw [TagDraw.choices, List.filter_map, List.length_map, drawing]
  refine congrArg List.length (List.filter_congr fun inside _ => ?_)
  simp [countedDraw, List.length_pos_iff]

/-- **The bounds behind the draws of the tags of a query**: one more than there are tags that draw a
term, and the product of the branches of these tags. -/
theorem drawAll_bounds_first (hc : x.counting = true) {tags : List Text}
    (h : x.firstUnknown tags = none) (source : σ) :
    (x.drawAll tags ⟨source, {}⟩).2.estimate.bounds
      = ⟨min (1 + (x.drawing tags).length) Count.largest,
          min ((x.drawing tags).map x.branches).prod Count.largest⟩ := by
  rw [drawAll_draws hc h, TagDraw.bounds_foldl_take_first, TagDraw.totals, length_choices,
    prod_branches, prod_drawing]

/-! ## Flat queries -/

theorem eq_brokenArticle_of_finish {reached : Text} {e : ExpansionError}
    (h : finish reached = .error e) : e = .brokenArticle := by
  unfold finish at h
  cases hs : Article.settle reached with
  | ok settled =>
      rw [hs] at h
      cases h
  | error e' =>
      rw [hs] at h
      cases h
      exact Article.eq_brokenArticle_of_settle hs

/-- Without dollar signs no article is broken. -/
theorem expand_ne_brokenArticle (ht : x.AllTexts ('$' ∉ ·)) {query : Text} (hq : '$' ∉ query)
    (source : σ) : (x.expand query source).1 ≠ .error .brokenArticle := by
  intro h
  have hout := x.expand_outcome query source
  rw [h] at hout
  generalize hr : (Except.error .brokenArticle : Except ExpansionError Text) = r at hout
  cases hout with
  | finished hreach _ => exact (hreach.brokenArticle hr.symm).2.elim hq (· ht)
  | noProgress => cases hr
  | tooManyCycles => cases hr
  | failed _ hf =>
      cases hr
      exact absurd hf.not_isInternal (by decide)

/-- **How the expansion of a flat query without dollar signs ends**: the query grows too large,
or its tags are drawn, and then it is the drawing that succeeds or fails. -/
theorem expand_flat (ht : x.AllTexts fun t => BracketFree t ∧ '$' ∉ t) {ls : List Letter}
    (hflat : ∀ l ∈ ls, l.Flat) (hdollar : '$' ∉ text ls)
    (htags : ∀ inside ∈ insides ls, Unmarked inside) (hlimit : (insides ls).length < x.cycleLimit)
    (source : σ) :
    (x.expand (text ls) source).1 = .error (.tooLarge x.sizeLimit) ∨
      (∃ e, (x.drawAll (drawnTags (insides ls)) ⟨source, {}⟩).1 = .error e ∧
        (x.expand (text ls) source).1 = .error e) ∨
      ∃ outcomes phrase, (x.drawAll (drawnTags (insides ls)) ⟨source, {}⟩).1 = .ok outcomes ∧
        x.expand (text ls) source
          = (.ok phrase, (x.drawAll (drawnTags (insides ls)) ⟨source, {}⟩).2) := by
  have hlength : (agenda (insides ls)).length < x.cycleLimit :=
    Nat.lt_of_le_of_lt (length_agendaFrom_le [] _) hlimit
  have hsim := expand_simulates (ht.imp fun _ h => h.1) hflat hlength source
  have hok := x.expand_ne_brokenArticle (ht.imp fun _ h => h.2) hdollar source
  rw [agenda_eq_drawnTags htags] at hsim
  rcases hsim with hlarge | ⟨e, he, hexpand⟩ | ⟨outcomes, reached, ho, -, hexpand⟩
  · exact Or.inl hlarge
  · exact Or.inr (Or.inl ⟨e, he, by rw [hexpand]⟩)
  · cases hfinish : finish reached with
    | ok phrase => exact Or.inr (Or.inr ⟨outcomes, phrase, ho, by rw [hexpand, hfinish]⟩)
    | error e =>
        rw [hexpand, hfinish, eq_brokenArticle_of_finish hfinish] at hok
        exact absurd rfl hok

/-- **What a count of the given tags gives**: the error of the first one whose key has no meaning,
or else a lower bound that counts the tags that draw a term, and the product of their branches. -/
def closedCount (x : Expander) (tags : List Text) : Except ExpansionError Bounds :=
  match x.firstUnknown tags with
  | some inside => .error (.unknownKey (ofInside inside).key)
  | none =>
    .ok ⟨min (1 + (x.drawing tags).length) Count.largest,
      min ((x.drawing tags).map x.branches).prod Count.largest⟩

/-- A count of a flat query without dollar signs gives what its tags say, or is refused for the
size of the query. -/
theorem countOptions_flat (ht : x.AllTexts fun t => BracketFree t ∧ '$' ∉ t) {ls : List Letter}
    (hflat : ∀ l ∈ ls, l.Flat) (hdollar : '$' ∉ text ls)
    (htags : ∀ inside ∈ insides ls, Unmarked inside) (hlimit : (insides ls).length < x.cycleLimit)
    (source : σ) :
    (x.countOptions (text ls) source).1 = .error (.tooLarge x.sizeLimit) ∨
      (x.countOptions (text ls) source).1 = x.closedCount (drawnTags (insides ls)) := by
  -- the keys, the terms and the branches are the same when the expander counts
  let y : Expander := { x with counting := true }
  have hcount := expand_flat (x := y) ht hflat hdollar htags hlimit source
  unfold closedCount
  cases hu : x.firstUnknown (drawnTags (insides ls)) with
  | some unknown =>
      have hdraw := drawAll_of_firstUnknown (x := y) rfl hu (⟨source, {}⟩ : Draws σ)
      rcases hcount with hlarge | ⟨e, he, hexpand⟩ | ⟨outcomes, phrase, ho, -⟩
      · exact Or.inl (countOptions_eq_error.mpr hlarge)
      · rw [hdraw] at he
        cases he
        exact Or.inr (countOptions_eq_error.mpr hexpand)
      · rw [hdraw] at ho
        cases ho
  | none =>
      obtain ⟨outcomes, hdraw⟩ := exists_drawAll (x := y) hu (⟨source, {}⟩ : Draws σ)
      rcases hcount with hlarge | ⟨e, he, -⟩ | ⟨outcomes, phrase, -, hexpand⟩
      · exact Or.inl (countOptions_eq_error.mpr hlarge)
      · rw [hdraw] at he
        cases he
      · right
        unfold countOptions
        rw [hexpand]
        exact congrArg Except.ok (drawAll_bounds_first (x := y) rfl hu source)

/-- A phrase of a flat query without dollar signs, if all keys have a meaning. -/
theorem expand_flat_of_known (ht : x.AllTexts fun t => BracketFree t ∧ '$' ∉ t) {ls : List Letter}
    (hflat : ∀ l ∈ ls, l.Flat) (hdollar : '$' ∉ text ls)
    (htags : ∀ inside ∈ insides ls, Unmarked inside) (hlimit : (insides ls).length < x.cycleLimit)
    (hknown : x.firstUnknown (drawnTags (insides ls)) = none) (source : σ) :
    (x.expand (text ls) source).1 = .error (.tooLarge x.sizeLimit) ∨
      ∃ phrase, (x.expand (text ls) source).1 = .ok phrase := by
  obtain ⟨outcomes, hdraw⟩ := exists_drawAll hknown (⟨source, {}⟩ : Draws σ)
  rcases expand_flat ht hflat hdollar htags hlimit source with
    hlarge | ⟨e, he, -⟩ | ⟨outcomes, phrase, -, hexpand⟩
  · exact Or.inl hlarge
  · rw [hdraw] at he
    cases he
  · exact Or.inr ⟨phrase, by rw [hexpand]⟩

end Expander

namespace Engine

variable {σ : Type} [WordSource σ]

/-- **The count of a flat query has a closed form.** Let no alternative and no forced text hold a
bracket or a dollar sign, nor the query a dollar sign. Then a count is refused for the size of the
query, or it gives what the tags that are drawn say, whatever the source is. If it succeeds, then a
phrase is refused for the size of the query or succeeds, for every source. -/
theorem options_eq_closedCount (e : Engine σ) (overrides : Overrides) {ls : List Letter}
    (htexts : (e.expander overrides).AllTexts fun t => BracketFree t ∧ '$' ∉ t)
    (hflat : ∀ l ∈ ls, l.Flat) (hdollar : '$' ∉ text ls)
    (htags : ∀ inside ∈ insides ls, Unmarked inside)
    (hlimit : (insides ls).length < e.settings.cycleLimit.toNat) :
    ((e.options (text ls) overrides).1
        = .error (.expansion (.tooLarge e.settings.sizeLimit.toNat)) ∨
      (e.options (text ls) overrides).1
        = ((e.expander overrides).closedCount (drawnTags (insides ls))).mapError .expansion) ∧
    (∀ bounds, (e.options (text ls) overrides).1 = .ok bounds →
      ∀ (τ : Type) [WordSource τ] (source : τ),
        let e' : Engine τ := { e with source }
        (e'.phrase (text ls) overrides).1
            = .error (.expansion (.tooLarge e.settings.sizeLimit.toNat)) ∨
          ∃ phrase, (e'.phrase (text ls) overrides).1 = .ok phrase) := by
  have hcount := Expander.countOptions_flat htexts hflat hdollar htags hlimit e.source
  constructor
  · refine hcount.imp (fun hlarge => ?_) fun hclosed => ?_
    · exact mapError_expansion.mpr hlarge
    · exact congrArg (Except.mapError EngineError.expansion) hclosed
  · intro bounds hbounds τ _ source
    have hok : ((e.expander overrides).countOptions (text ls) e.source).1 = .ok bounds :=
      mapError_eq_ok.mp hbounds
    rw [hok] at hcount
    have hclosed := hcount.resolve_left (by simp)
    have hknown : (e.expander overrides).firstUnknown (drawnTags (insides ls)) = none := by
      unfold Expander.closedCount at hclosed
      split at hclosed
      · cases hclosed
      · assumption
    refine (Expander.expand_flat_of_known htexts hflat hdollar htags hlimit hknown source).imp
      (fun hlarge => ?_) fun ⟨phrase, hphrase⟩ => ⟨phrase, ?_⟩
    · exact mapError_expansion.mpr hlarge
    · exact mapError_eq_ok.mpr hphrase

/-! ### Three tags with terms, of which one is optional -/

/-- The query `[!k][?k#1] [k] [o] [p/q]`, of which `o` is to be forced. -/
def settledQuery : List Letter :=
  [.tag ['!', 'k'], .tag ['?', 'k', '#', '1'], .char ' ', .tag ['k'], .char ' ', .tag ['o'],
    .char ' ', .tag ['p', '/', 'q']]

example : drawnTags (insides settledQuery)
    = [['!', 'k'], ['?', 'k', '#', '1'], ['o'], ['p', '/', 'q']] := by decide

theorem kennel_options_eq_closedCount :
    (((kennel 7).expander [(['o'], ['x'])]).AllTexts (fun t => BracketFree t ∧ '$' ∉ t) ∧
      (∀ l ∈ settledQuery, l.Flat) ∧ '$' ∉ text settledQuery ∧
      (∀ inside ∈ insides settledQuery, Unmarked inside) ∧
      (insides settledQuery).length < (kennel 7).settings.cycleLimit.toNat ∧
      ((kennel 7).options (text settledQuery) [(['o'], ['x'])]).1 = .ok ⟨4, 12⟩) ∧
    ((((kennel 7).options (text settledQuery) [(['o'], ['x'])]).1
        = .error (.expansion (.tooLarge (kennel 7).settings.sizeLimit.toNat)) ∨
      ((kennel 7).options (text settledQuery) [(['o'], ['x'])]).1
        = (((kennel 7).expander [(['o'], ['x'])]).closedCount
            (drawnTags (insides settledQuery))).mapError .expansion) ∧
    ∀ (τ : Type) [WordSource τ] (source : τ),
      let e' : Engine τ := { kennel 7 with source }
      (e'.phrase (text settledQuery) [(['o'], ['x'])]).1
          = .error (.expansion (.tooLarge (kennel 7).settings.sizeLimit.toNat)) ∨
        ∃ phrase, (e'.phrase (text settledQuery) [(['o'], ['x'])]).1 = .ok phrase) := by
  have htexts : ((kennel 7).expander [(['o'], ['x'])]).AllTexts
      (fun t => BracketFree t ∧ '$' ∉ t) := Expander.allTexts_of_entries (by decide) (by decide)
  have hcount : ((kennel 7).options (text settledQuery) [(['o'], ['x'])]).1 = .ok ⟨4, 12⟩ := by
    decide +kernel
  have hflat : ∀ l ∈ settledQuery, l.Flat := by decide
  have hdollar : '$' ∉ text settledQuery := by decide
  have htags : ∀ inside ∈ insides settledQuery, Unmarked inside := by decide
  have hlimit : (insides settledQuery).length < (kennel 7).settings.cycleLimit.toNat := by decide
  obtain ⟨hclosed, hphrase⟩ :=
    (kennel 7).options_eq_closedCount [(['o'], ['x'])] htexts hflat hdollar htags hlimit
  exact ⟨⟨htexts, hflat, hdollar, htags, hlimit, hcount⟩, hclosed, hphrase _ hcount⟩

end Engine

end PhraseGrammar
