import PhraseGrammar.Proofs.Counts
import PhraseGrammar.Proofs.Faults
import Mathlib.Algebra.Order.BigOperators.Group.Finset
import Mathlib.Data.Set.Card
import Mathlib.Tactic.Ring

set_option autoImplicit false

/-! # How many phrases a flat query has

The phrases of a flat query are what can be made of it by putting, for the tags of its agenda in
order, some text that can be drawn in the place of each (`Expander.reachable`). There are at most
as many as the product of the texts that can be drawn for each tag.

The upper bound that a count gives is the product of the branches of the same tags. The two
products differ where an optional tag can be left out and no term is drawn for it otherwise, that
is where its key is forced or an article (`Expander.Uncounted`): such a tag has two texts and is
not counted. So the upper bound holds if there is no such tag, and each one at most doubles the
number of phrases (`Engine.ncard_phrases_le`).
-/

namespace PhraseGrammar

open Letter Tag Text

namespace Expander

variable {σ : Type} [WordSource σ] {x : Expander}

/-! ## The texts of a tag -/

/-- The texts that a key can stand for. -/
def texts (x : Expander) (key : Text) : List Text :=
  if '/' ∈ key then key.splitOn '/'
  else
    match x.overrides.lookup key with
    | some text => [text]
    | none =>
      match x.grammar.get? key with
      | some [] => [[]]
      | some alternatives => alternatives
      | none => if Article.isKey key then [Article.mark key] else []

theorem mem_texts_of_means {key text : Text} (h : x.Means key text) : text ∈ x.texts key := by
  unfold texts
  cases h with
  | term hs hmem => rwa [if_pos hs]
  | forced hs ho => simp [hs, ho]
  | @alternative _ alternatives hs ho hg ha =>
      rw [if_neg hs, ho, hg]
      cases alternatives with
      | nil => cases ha
      | cons a rest => exact ha
  | nothing hs ho hg => simp [hs, ho, hg]
  | article hs ho hg ha => simp [hs, ho, hg, ha]

/-- Where there are terms to draw, they are the texts. -/
theorem texts_eq_terms {key : Text} (h : x.terms key ≠ []) : x.texts key = x.terms key := by
  unfold terms at h ⊢
  unfold texts
  by_cases hs : '/' ∈ key
  · rw [if_pos hs, if_pos hs]
  · rw [if_neg hs] at h ⊢
    rw [if_neg hs]
    cases ho : x.overrides.lookup key with
    | some text => simp [ho] at h
    | none =>
        cases hg : x.grammar.get? key with
        | none => simp [ho, hg] at h
        | some alternatives =>
            cases alternatives with
            | nil => simp [ho, hg] at h
            | cons a rest => rfl

/-- An optional tag whose omission is not counted: it is forced, or an article. -/
def Uncounted (x : Expander) (inside : Text) : Prop :=
  let key := (ofInside inside).key
  (ofInside inside).kind = .optional ∧ '/' ∉ key ∧
    ((x.overrides.lookup key).isSome ∨ (x.grammar.get? key).isNone ∧ Article.isKey key = true)

instance (x : Expander) (inside : Text) : Decidable (x.Uncounted inside) :=
  inferInstanceAs (Decidable (_ ∧ _ ∧ _))

/-- The number of tags whose omission is not counted. -/
def omissions (x : Expander) (tags : List Text) : Nat :=
  tags.countP fun inside => x.Uncounted inside

theorem omissions_cons (x : Expander) (inside : Text) (tags : List Text) :
    x.omissions (inside :: tags)
      = x.omissions tags + if x.Uncounted inside then 1 else 0 := by
  simp [omissions, List.countP_cons]

/-- The texts that can be drawn for a tag. -/
def drawable (x : Expander) (inside : Text) : Finset Text :=
  let tag := ofInside inside
  if tag.kind = .optional then insert [] (x.texts tag.key).toFinset
  else (x.texts tag.key).toFinset

/-- Without terms to draw there is at most one text, and an optional tag has no other text than
the empty one unless its omission is not counted. -/
theorem texts_of_no_terms {inside : Text} (h : x.terms (ofInside inside).key = []) :
    (x.texts (ofInside inside).key).length ≤ 1 ∧
      ((ofInside inside).kind = .optional → ¬ x.Uncounted inside →
        ∀ t ∈ x.texts (ofInside inside).key, t = []) := by
  unfold terms at h
  unfold texts Uncounted
  dsimp only
  generalize (ofInside inside).key = key at h ⊢
  by_cases hs : '/' ∈ key
  · rw [if_pos hs] at h
    exact absurd h (List.splitOn_ne_nil _ _)
  · rw [if_neg hs] at h ⊢
    cases ho : x.overrides.lookup key with
    | some text => simp +contextual [hs]
    | none =>
        cases hg : x.grammar.get? key with
        | none => by_cases ha : Article.isKey key <;> simp +contextual [hs, ha]
        | some alternatives =>
            obtain rfl : alternatives = [] := by simpa [ho, hg] using h
            simp

/-- **What a tag adds**: no more texts than it has branches, or twice as many if its omission is
not counted. -/
theorem card_drawable_le (x : Expander) (inside : Text) :
    (x.drawable inside).card ≤ x.branches inside * if x.Uncounted inside then 2 else 1 := by
  unfold drawable branches
  dsimp only
  by_cases ht : x.terms (ofInside inside).key = []
  · obtain ⟨hlength, hempty⟩ := texts_of_no_terms ht
    have hcard := (List.toFinset_card_le (x.texts (ofInside inside).key)).trans hlength
    rw [if_pos ht, Nat.one_mul]
    by_cases hk : (ofInside inside).kind = .optional
    · rw [if_pos hk]
      by_cases hu : x.Uncounted inside
      · rw [if_pos hu]
        exact (Finset.card_insert_le _ _).trans (Nat.succ_le_succ hcard)
      · rw [if_neg hu]
        -- the only text is the empty one, as if the tag were left out
        have hsub : insert [] (x.texts (ofInside inside).key).toFinset ⊆ ({[]} : Finset Text) := by
          intro t ht'
          rcases Finset.mem_insert.mp ht' with rfl | hmem
          · exact Finset.mem_singleton_self _
          · exact Finset.mem_singleton.mpr (hempty hk hu t (List.mem_toFinset.mp hmem))
        exact (Finset.card_le_card hsub).trans (Finset.card_singleton _).le
    · rw [if_neg hk]
      split
      · exact hcard.trans (by decide)
      · exact hcard
  · rw [if_neg ht, texts_eq_terms ht]
    have hcard := List.toFinset_card_le (x.terms (ofInside inside).key)
    refine le_trans ?_ (Nat.le_mul_of_pos_right _ (by split <;> decide))
    split
    · exact (Finset.card_insert_le _ _).trans (Nat.succ_le_succ hcard)
    · exact hcard

/-! ## The queries that can be reached -/

/-- The queries that can be made of a query by drawing some texts for the given tags, one after
the other. -/
def reachable (x : Expander) (query : Text) : List Text → Finset Text
  | [] => {query}
  | inside :: tags =>
    (x.drawable inside).biUnion fun new => x.reachable (place query inside new) tags

/-- A run reaches one of the queries that can be reached by its tags. -/
theorem Run.mem_reachable {query reached : Text} {d d' : Draws σ} {outcomes : Outcomes}
    (h : x.Run query d outcomes reached d') :
    reached ∈ x.reachable query (outcomes.map Prod.fst) := by
  induction h with
  | done => exact Finset.mem_singleton_self _
  | @cycle query inside new next reached d d₁ d' outcomes _ hdraw happly _ ih =>
      rw [List.map_cons]
      refine Finset.mem_biUnion.mpr ⟨new, ?_, ?_⟩
      · unfold drawable
        rcases means_of_textFor (congrArg Prod.fst hdraw) with hmeans | ⟨hk, rfl⟩
        · have hmem := List.mem_toFinset.mpr (mem_texts_of_means hmeans)
          dsimp only
          split
          · exact Finset.mem_insert_of_mem hmem
          · exact hmem
        · rw [if_pos hk]
          exact Finset.mem_insert_self _ _
      · rwa [← place_of_apply happly]

/-- There are at most as many as the branches of the tags allow, twice as many for each tag whose
omission is not counted. -/
theorem card_reachable_le (x : Expander) (query : Text) (tags : List Text) :
    (x.reachable query tags).card ≤ (tags.map x.branches).prod * 2 ^ x.omissions tags := by
  induction tags generalizing query with
  | nil => simp [reachable, omissions]
  | cons inside tags ih =>
      refine (Finset.card_biUnion_le_card_mul _ _ _ fun new _ => ih _).trans ?_
      refine (Nat.mul_le_mul_right _ (x.card_drawable_le inside)).trans (Nat.le_of_eq ?_)
      rw [List.map_cons, List.prod_cons, omissions_cons]
      by_cases hu : x.Uncounted inside
      · rw [if_pos hu, if_pos hu]
        ring
      · rw [if_neg hu, if_neg hu]
        ring

end Expander

/-! ## The phrases of an engine -/

namespace Engine

variable {σ : Type} [WordSource σ]

/-- The phrases of a query, whatever the random source is. -/
def phrases (e : Engine σ) (query : Text) (overrides : Overrides := []) : Set Text :=
  {phrase | ∃ (τ : Type) (_ : WordSource τ) (source : τ),
    (({ grammar := e.grammar, settings := e.settings, source } : Engine τ).phrase query
      overrides).1 = .ok phrase}

variable (e : Engine σ) (overrides : Overrides) {ls : List Letter}

omit [WordSource σ] in
/-- Every phrase comes of a query that can be reached by the tags of the agenda. -/
theorem phrases_subset (htexts : (e.expander overrides).AllTexts BracketFree)
    (hflat : ∀ l ∈ ls, l.Flat) :
    e.phrases (text ls) overrides
      ⊆ (((e.expander overrides).reachable (text ls) (agenda (insides ls))).image
          fun reached => (Expander.finish reached).toOption.getD [] : Finset Text) := by
  rintro phrase ⟨τ, _, source, hphrase⟩
  have hexpand : ((e.expander overrides).expand (text ls) source).1 = .ok phrase :=
    mapError_eq_ok.mp hphrase
  obtain ⟨outcomes, reached, hrun, hfinish⟩ := Expander.run_of_expand hexpand
  rw [Finset.mem_coe, Finset.mem_image]
  refine ⟨reached, ?_, by rw [hfinish]; rfl⟩
  rw [← hrun.tags_eq_agenda htexts hflat]
  exact hrun.mem_reachable

omit [WordSource σ] in
theorem finite_phrases (htexts : (e.expander overrides).AllTexts BracketFree)
    (hflat : ∀ l ∈ ls, l.Flat) : (e.phrases (text ls) overrides).Finite :=
  (Finset.finite_toSet _).subset (e.phrases_subset overrides htexts hflat)

/-- A count that succeeds gives the product of the branches of the agenda. -/
theorem upper_of_options {bounds : Bounds}
    (htexts : (e.expander overrides).AllTexts BracketFree) (hflat : ∀ l ∈ ls, l.Flat)
    (hcount : (e.options (text ls) overrides).1 = .ok bounds) :
    bounds.upper
      = Count.mul 1 ((agenda (insides ls)).map (e.expander overrides).branches).prod := by
  obtain ⟨outcomes, reached, d', hrun, rfl⟩ :=
    Expander.run_of_countOptions (mapError_eq_ok.mp hcount)
  -- the texts and the branches of the expander are the same when it counts
  have htags := Expander.Run.tags_eq_agenda
    (x := { e.expander overrides with counting := true }) htexts hrun hflat
  rw [← htags]
  exact hrun.upper_eq rfl Estimate.fits_first (Nat.le_refl 1)

/-- **The upper bound and the phrases.** If no alternative and no forced text holds a bracket and
a count of a flat query succeeds, then the query has finitely many phrases, over all random
sources and no more than the upper bound of the count allows, unless that is the largest count.
Each tag of the agenda whose omission is not counted doubles what is allowed. -/
theorem ncard_phrases_le (htexts : (e.expander overrides).AllTexts BracketFree)
    (hflat : ∀ l ∈ ls, l.Flat) {bounds : Bounds}
    (hcount : (e.options (text ls) overrides).1 = .ok bounds) :
    (e.phrases (text ls) overrides).Finite ∧
      ((e.phrases (text ls) overrides).ncard
          ≤ bounds.upper * 2 ^ (e.expander overrides).omissions (agenda (insides ls)) ∨
        bounds.upper = Count.largest) := by
  have hsub := e.phrases_subset overrides htexts hflat
  refine ⟨e.finite_phrases overrides htexts hflat, ?_⟩
  rw [e.upper_of_options overrides htexts hflat hcount, Count.mul, Nat.one_mul]
  rcases Nat.le_total ((agenda (insides ls)).map (e.expander overrides).branches).prod
    Count.largest with hle | hle
  · left
    rw [Nat.min_eq_left hle]
    calc (e.phrases (text ls) overrides).ncard
        ≤ _ := Set.ncard_le_ncard hsub (Finset.finite_toSet _)
      _ ≤ ((e.expander overrides).reachable (text ls) (agenda (insides ls))).card := by
          rw [Set.ncard_coe_finset]
          exact Finset.card_image_le
      _ ≤ _ := (e.expander overrides).card_reachable_le _ _
  · right
    exact Nat.min_eq_right hle

/-! ### Forced texts and articles that may be left out -/

/-- An engine with two animals in the category `k`. -/
def kennel (seed : UInt64) : Engine Keystream where
  grammar := { categories := [(['k'], [['c', 'a', 't'], ['d', 'o', 'g']])] }
  settings := .default
  source := Keystream.ofSeed seed

/-- The query `[?o][?k#1] [p/q]`, of which `o` is to be forced. -/
def kennelQuery : List Letter :=
  [.tag ['?', 'o'], .tag ['?', 'k', '#', '1'], .char ' ', .tag ['p', '/', 'q']]

theorem kennel_ncard_phrases_le :
    (((kennel 7).expander [(['o'], ['x'])]).AllTexts BracketFree ∧ (∀ l ∈ kennelQuery, l.Flat) ∧
      ((kennel 7).options (text kennelQuery) [(['o'], ['x'])]).1 = .ok ⟨3, 6⟩) ∧
    ((kennel 7).phrases (text kennelQuery) [(['o'], ['x'])]).Finite ∧
      (((kennel 7).phrases (text kennelQuery) [(['o'], ['x'])]).ncard
          ≤ 6 * 2 ^ ((kennel 7).expander [(['o'], ['x'])]).omissions
              (agenda (insides kennelQuery)) ∨
        6 = Count.largest) := by
  have htexts : ((kennel 7).expander [(['o'], ['x'])]).AllTexts BracketFree :=
    Expander.allTexts_of_entries (by decide) (by decide)
  have hcount : ((kennel 7).options (text kennelQuery) [(['o'], ['x'])]).1 = .ok ⟨3, 6⟩ := by
    decide +kernel
  exact ⟨⟨htexts, by decide, hcount⟩, ncard_phrases_le (kennel 7) _ htexts (by decide) hcount⟩

/-- A count of `[?o]`, with `o` forced, and a count of `[?a]` say that there is one phrase. Both
queries have two, and no bracket and no dollar sign comes into them. -/
theorem kennel_omission_not_counted :
    (((kennel 7).expander [(['o'], ['x'])]).AllTexts (fun t => BracketFree t ∧ '$' ∉ t) ∧
      ((kennel 7).options (text [.tag ['?', 'o']]) [(['o'], ['x'])]).1 = .ok ⟨1, 1⟩ ∧
      1 < ((kennel 7).phrases (text [.tag ['?', 'o']]) [(['o'], ['x'])]).ncard) ∧
    ((kennel 7).expander []).AllTexts (fun t => BracketFree t ∧ '$' ∉ t) ∧
      ((kennel 7).options (text [.tag ['?', 'a']])).1 = .ok ⟨1, 1⟩ ∧
      1 < ((kennel 7).phrases (text [.tag ['?', 'a']])).ncard := by
  have hforced : ((kennel 7).expander [(['o'], ['x'])]).AllTexts
      (fun t => BracketFree t ∧ '$' ∉ t) := Expander.allTexts_of_entries (by decide) (by decide)
  have harticle : ((kennel 7).expander []).AllTexts (fun t => BracketFree t ∧ '$' ∉ t) :=
    Expander.allTexts_of_entries (by decide) (by decide)
  have hfinite : ((kennel 7).phrases (text [.tag ['?', 'o']]) [(['o'], ['x'])]).Finite :=
    (kennel 7).finite_phrases _ (hforced.imp fun _ h => h.1) (by decide)
  have hfinite' : ((kennel 7).phrases (text [.tag ['?', 'a']])).Finite :=
    (kennel 7).finite_phrases _ (harticle.imp fun _ h => h.1) (by decide)
  refine ⟨⟨hforced, by decide +kernel,
      (Set.one_lt_ncard hfinite).mpr ⟨[], ?_, ['x'], ?_, by decide⟩⟩,
    harticle, by decide +kernel, (Set.one_lt_ncard hfinite').mpr ⟨[], ?_, ['a'], ?_, by decide⟩⟩
  · exact ⟨Keystream, inferInstance, Keystream.ofSeed 7, by decide +kernel⟩
  · exact ⟨Keystream, inferInstance, Keystream.ofSeed 0, by decide +kernel⟩
  · exact ⟨Keystream, inferInstance, Keystream.ofSeed 7, by decide +kernel⟩
  · exact ⟨Keystream, inferInstance, Keystream.ofSeed 0, by decide +kernel⟩

end Engine

end PhraseGrammar
