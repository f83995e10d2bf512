import PhraseGrammar.Proofs.Letters
import PhraseGrammar.Proofs.Marks
import PhraseGrammar.Random.Keystream

set_option autoImplicit false

/-! # Well-formed grammars

A text is *well-formed* for an expander if it is flat and every tag in it has a key with a
meaning (`Expander.WellFormed`). The proof that well-formed queries do not go wrong has the two
usual halves. Steps preserve well-formedness, if the texts of the grammar and the forced texts
are well-formed (`Expander.Step.wellFormed`), and at a well-formed query a cycle fails only for
the size of its outcome (`Expander.WellFormed.fails`).
-/

namespace PhraseGrammar.Expander

open Text Tag Letter

/-- A flat text whose tags all have a meaning. -/
def WellFormed (x : Expander) (t : Text) : Prop :=
  ∃ letters, Letter.text letters = t ∧ (∀ l ∈ letters, l.Flat) ∧
    ∀ inside ∈ insides letters, x.Knows (ofInside inside).key

variable {x : Expander}

/-! ## Preservation -/

theorem wellFormed_of_bracketFree {t : Text} (h : BracketFree t) : x.WellFormed t := by
  refine ⟨plain t, text_plain t, flat_plain h, fun inside hin => ?_⟩
  obtain ⟨c, -, hc⟩ := List.mem_map.mp (mem_insides.mp hin)
  cases hc

theorem WellFormed.halveSpaces {t : Text} (h : x.WellFormed t) : x.WellFormed t.halveSpaces := by
  obtain ⟨ls, rfl, hflat, hknows⟩ := h
  refine ⟨halve (.char ' ') ls, (halveSpaces_text hflat).symm,
    fun l hl => hflat l (halve_subset _ _ hl), fun inside hin => hknows inside ?_⟩
  rwa [insides, filterMap_halve rfl] at hin

theorem WellFormed.replace {b new t : Text} (ht : x.WellFormed t) (hb : BracketFree b)
    (hnew : x.WellFormed new) : x.WellFormed (Text.replace (bracketed b) new t) := by
  obtain ⟨ls, rfl, hflat, hknows⟩ := ht
  obtain ⟨ns, rfl, hflat', hknows'⟩ := hnew
  refine ⟨replaceTag b ns ls, (replace_text hflat hb ns).symm, fun l hl => ?_,
    fun inside hin => ?_⟩
  · exact (mem_replaceTag hl).elim (hflat' l) (hflat l)
  · rw [mem_insides] at hin
    rcases mem_replaceTag hin with h | h
    · exact hknows' inside (mem_insides.mpr h)
    · exact hknows inside (mem_insides.mpr h)

/-- The terms of the key of a tag are well-formed, since they hold no bracket. -/
theorem wellFormed_term {inside s : Text} (hb : BracketFree inside)
    (hs : s ∈ (ofInside inside).key.splitOn '/') : x.WellFormed s := by
  have hkey : BracketFree (ofInside inside).key := key_of_cut (fun _ _ _ _ => BracketFree.cut) hb
  exact wellFormed_of_bracketFree (forall_mem_splitOn (fun _ _ => BracketFree.cut) hkey s hs)

/-- **Steps preserve well-formedness.** -/
theorem Step.wellFormed {query next : Text} (ht : x.AllTexts x.WellFormed)
    (hq : x.WellFormed query) (h : x.Step query next) : x.WellFormed next := by
  have hnil : x.WellFormed [] := wellFormed_of_bracketFree bracketFree_nil
  have hmeans : ∀ {inside new : Text}, BracketFree inside →
      x.Means (ofInside inside).key new → x.WellFormed new := fun hb hnew =>
    ht.means hnil (fun s hs => wellFormed_term hb hs)
      (fun ha => wellFormed_of_bracketFree (Article.bracketFree_mark ha)) hnew
  cases h with
  | shown hf _ hnew => exact hq.halveSpaces.replace hf.bracketFree (hmeans hf.bracketFree hnew)
  | omitted hf => exact hq.halveSpaces.replace hf.bracketFree hnil
  | hidden hf hnew =>
      have hin := hf.bracketFree
      have hbody := (bracketFree_cons.mp hin).2
      exact (hq.replace hin hnil).halveSpaces.replace hbody (hmeans hin hnew)

/-! ## Progress -/

/-- A well-formed query with an opening bracket has a first tag, and its key has a meaning. -/
theorem WellFormed.exists_firstTag {query : Text} (hq : x.WellFormed query)
    (hm : '[' ∈ query) :
    ∃ inside, Query.FirstTag query inside ∧ x.Knows (ofInside inside).key := by
  obtain ⟨ls, rfl, hflat, hknows⟩ := hq
  obtain ⟨inside, rest, hin⟩ := List.exists_cons_of_ne_nil ((opening_mem_text hflat).mp hm)
  exact ⟨inside, firstTag_text hflat hin, hknows inside (by simp [hin])⟩

/-- A cycle at a well-formed query fails only if the outcome is too large. -/
theorem WellFormed.fails {query : Text} {e : ExpansionError} (hq : x.WellFormed query)
    (h : x.Fails query e) : e = .tooLarge x.sizeLimit := by
  have hfirst : ∀ {opening : Nat}, Query.firstOpening? query = some opening →
      ∃ inside, BracketFree inside ∧ Query.tagAt opening query = .ok (bracketed inside) := by
    intro opening ho
    obtain ⟨inside, hf, -⟩ := hq.exists_firstTag (Query.opening_mem_of_firstOpening? ho)
    obtain ⟨opening', ho', hat⟩ := hf.tagAt
    rw [ho] at ho'
    cases ho'
    exact ⟨inside, hf.bracketFree, hat⟩
  -- where there is an opening bracket, a tag is found, it is read, and its key is known
  cases h with
  | noTag ho he =>
      obtain ⟨inside, -, hat⟩ := hfirst ho
      rw [hat] at he
      cases he
  | badTag ho hf he =>
      obtain ⟨inside, hin, hat⟩ := hfirst ho
      rw [hat] at hf
      cases hf
      rw [parse_bracketed hin] at he
      cases he
  | unknownKey hf hk =>
      obtain ⟨inside', hf', hk'⟩ := hq.exists_firstTag hf.opening_mem
      rw [hf.unique hf'] at hk
      exact absurd hk' hk
  | tooLarge => rfl

/-! ## Whole expansions -/

/-- The errors that are left to a well-formed query. An article is never broken unless a dollar
sign stands in the query or in a text that can come into it. -/
inductive Allowed (x : Expander) (query : Text) : ExpansionError → Prop
  | noProgress : Allowed x query .noProgress
  | tooManyCycles : Allowed x query (.tooManyCycles x.cycleLimit)
  | tooLarge : Allowed x query (.tooLarge x.sizeLimit)
  | brokenArticle :
      ('$' ∈ query ∨ ¬ x.AllTexts ('$' ∉ ·)) → Allowed x query .brokenArticle

variable {σ : Type} [WordSource σ]

theorem WellFormed.expand_allowed {query : Text} (hq : x.WellFormed query)
    (ht : x.AllTexts x.WellFormed) {source : σ} {e : ExpansionError}
    (h : (x.expand query source).1 = .error e) : x.Allowed query e := by
  have hout := x.expand_outcome query source
  rw [h] at hout
  generalize hr : (Except.error e : Except ExpansionError Text) = r at hout
  cases hout with
  | finished hreach hno =>
      obtain ⟨rfl, hdollar⟩ := hreach.brokenArticle hr.symm
      exact .brokenArticle hdollar
  | noProgress =>
      cases hr
      exact .noProgress
  | tooManyCycles =>
      cases hr
      exact .tooManyCycles
  | failed hreach hf =>
      cases hr
      rw [(hreach.invariant (fun _ _ => Step.wellFormed ht) hq).fails hf]
      exact .tooLarge

/-- **Well-formed queries do not go wrong.** If the query, the alternatives and the forced texts
are well-formed, then neither an expansion nor a count fails for a bracket or an unknown key,
whatever the source and the limits. -/
theorem wellFormed_error_allowed {query : Text} (hq : x.WellFormed query)
    (ht : x.AllTexts x.WellFormed) (source : σ) (e : ExpansionError) :
    ((x.expand query source).1 = .error e → x.Allowed query e) ∧
      ((x.countOptions query source).1 = .error e → x.Allowed query e) := by
  refine ⟨hq.expand_allowed ht, fun h => ?_⟩
  have hallowed := WellFormed.expand_allowed (x := { x with counting := true }) hq ht
    (countOptions_eq_error.mp h)
  cases hallowed with
  | noProgress => exact .noProgress
  | tooManyCycles => exact .tooManyCycles
  | tooLarge => exact .tooLarge
  | brokenArticle hd => exact .brokenArticle hd

/-! ### A cyclic grammar -/

/-- The category `e` has the alternatives `[a] [e]` and `[f#1]`, and `[!e]` is forced for `f`. -/
def rounds : Expander where
  grammar := {
    categories := [(['e'], [text [.tag ['a'], .char ' ', .tag ['e']], text [.tag ['f', '#', '1']]])] }
  overrides := [(['f'], text [.tag ['!', 'e']])]
  cycleLimit := 9
  sizeLimit := 64

/-- The query `[?e] [x/f]`. -/
def roundsQuery : Text := text [.tag ['?', 'e'], .char ' ', .tag ['x', '/', 'f']]

theorem rounds_error_allowed :
    (rounds.WellFormed roundsQuery ∧ rounds.AllTexts rounds.WellFormed) ∧
      ∀ e, ((rounds.expand roundsQuery (Keystream.ofSeed 7)).1 = .error e →
          rounds.Allowed roundsQuery e) ∧
        ((rounds.countOptions roundsQuery (Keystream.ofSeed 7)).1 = .error e →
          rounds.Allowed roundsQuery e) := by
  have hcategory : rounds.Knows ['e'] := Or.inr (Or.inr (Or.inl rfl))
  have hforced : rounds.Knows ['f'] := Or.inr (Or.inl rfl)
  have harticle : rounds.Knows ['a'] := Or.inr (Or.inr (Or.inr rfl))
  have hterms : rounds.Knows ['x', '/', 'f'] := Or.inl (by decide)
  have hq : rounds.WellFormed roundsQuery := by
    refine ⟨_, rfl, by decide, ?_⟩
    simpa [insides, Letter.inside?, ofInside, ofBody, splitLabel] using ⟨hcategory, hterms⟩
  have ht : rounds.AllTexts rounds.WellFormed := by
    refine allTexts_of_entries ?_ ?_
    · intro entry hentry a ha
      obtain rfl := List.mem_singleton.mp hentry
      rcases List.mem_pair.mp ha with rfl | rfl
      · refine ⟨_, rfl, by decide, ?_⟩
        simpa [insides, Letter.inside?, ofInside, ofBody, splitLabel] using ⟨harticle, hcategory⟩
      · refine ⟨_, rfl, by decide, ?_⟩
        simpa [insides, Letter.inside?, ofInside, ofBody, splitLabel] using hforced
    · intro entry hentry
      obtain rfl := List.mem_singleton.mp hentry
      refine ⟨_, rfl, by decide, ?_⟩
      simpa [insides, Letter.inside?, ofInside, ofBody, splitLabel] using hcategory
  exact ⟨⟨hq, ht⟩, wellFormed_error_allowed hq ht (Keystream.ofSeed 7)⟩

end PhraseGrammar.Expander
