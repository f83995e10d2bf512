import PhraseGrammar.Engine.Basic
import PhraseGrammar.Proofs.Marks
import PhraseGrammar.Proofs.Validation

set_option autoImplicit false

/-! # Faults of the engine itself

Two errors speak of the engine and not of its input: a tag that does not stand in brackets, and an
article mark that is not closed. The first one never comes up, since what is taken for a tag
always stands in brackets (`Expander.Fails.not_isInternal`). The second one does: the marks are
ordinary text, so a query that holds an opening mark and no closing one breaks an article
(`Engine.phrase_of_opening`). It takes a dollar sign, though, in the query, in an alternative or in
a forced text (`Engine.internal_of_dollar`).
-/

namespace PhraseGrammar

open Text

/-- An alternative of the grammar holds the character. -/
def Grammar.Has (g : Grammar) (c : Char) : Prop :=
  ∃ entry ∈ g.categories, ∃ a ∈ entry.2, c ∈ a

/-- A forced text holds the character. -/
def Overrides.Has (overrides : Overrides) (c : Char) : Prop := ∃ entry ∈ overrides, c ∈ entry.2

instance (g : Grammar) (c : Char) : Decidable (g.Has c) :=
  inferInstanceAs (Decidable (∃ entry ∈ g.categories, _))

instance (overrides : Overrides) (c : Char) : Decidable (overrides.Has c) :=
  inferInstanceAs (Decidable (∃ entry ∈ overrides, _))

namespace Expander

/-- What can come into a query comes from an alternative or from a forced text. -/
theorem allTexts_of_not_has {x : Expander} {c : Char} (hg : ¬ x.grammar.Has c)
    (ho : ¬ Overrides.Has x.overrides c) : x.AllTexts (c ∉ ·) :=
  allTexts_of_entries (fun entry hentry a ha hc => hg ⟨entry, hentry, a, ha, hc⟩)
    fun entry hentry hc => ho ⟨entry, hentry, hc⟩

/-- No cycle finds a fault of the engine: what is found at the first bracket is bracketed. -/
theorem Fails.not_isInternal {x : Expander} {query : Text} {e : ExpansionError}
    (h : x.Fails query e) : e.isInternal = false := by
  cases h with
  | noTag _ he =>
      unfold Query.tagAt at he
      split at he
      · cases he
        rfl
      · split at he
        · cases he
          rfl
        · cases he
  | badTag ho hf he =>
      obtain ⟨-, inside, -, -, -, -, rfl⟩ := Query.eq_append_of_tagAt ho hf
      unfold Tag.parse at he
      rw [Tag.inside?_bracketed] at he
      dsimp only at he
      split at he
      · cases he
        rfl
      · cases he
  | unknownKey => rfl
  | tooLarge => rfl

variable {σ : Type} [WordSource σ]

/-- A fault of the engine is a broken article, and a dollar sign has been somewhere. -/
theorem brokenArticle_of_internal {x : Expander} {query : Text} {source : σ} {e : ExpansionError}
    (h : (x.expand query source).1 = .error e) (hi : e.isInternal = true) :
    e = .brokenArticle ∧
      ('$' ∈ query ∨ x.grammar.Has '$' ∨ Overrides.Has x.overrides '$') := by
  have hout := x.expand_outcome query source
  rw [h] at hout
  generalize hr : (Except.error e : Except ExpansionError Text) = r at hout
  cases hout with
  | finished hreach _ =>
      obtain ⟨rfl, hdollar⟩ := hreach.brokenArticle hr.symm
      refine ⟨rfl, hdollar.imp_right fun hall => ?_⟩
      by_contra hnone
      rw [not_or] at hnone
      exact hall (allTexts_of_not_has hnone.1 hnone.2)
  | noProgress =>
      cases hr
      cases hi
  | tooManyCycles =>
      cases hr
      cases hi
  | failed _ hf =>
      cases hr
      rw [hf.not_isInternal] at hi
      cases hi

end Expander

namespace Engine

/-- An operation fails with the error of its expansion. -/
theorem mapError_expansion {α : Type} {r : Except ExpansionError α} {error : ExpansionError} :
    r.mapError EngineError.expansion = .error (.expansion error) ↔ r = .error error := by
  cases r with
  | ok a => simp [Except.mapError]
  | error error' => simp [Except.mapError]

/-- An operation succeeds with what its expansion gives. -/
theorem mapError_eq_ok {α : Type} {r : Except ExpansionError α} {a : α} :
    r.mapError EngineError.expansion = .ok a ↔ r = .ok a := by
  cases r with
  | ok a' => simp [Except.mapError]
  | error e => simp [Except.mapError]

variable {σ : Type} [WordSource σ]

/-- **Every engine can be brought to a broken article.** A query without tags that holds an
opening mark and no closing one is enough. -/
theorem phrase_of_opening (e : Engine σ) (overrides : Overrides) {query : Text}
    (htag : '[' ∉ query) (hopening : Article.opening <:+: query)
    (hclosing : ¬ Article.closing <:+: query) :
    (e.phrase query overrides).1 = .error (.expansion .brokenArticle) := by
  have hfirst : Article.settleFirst query = .error .brokenArticle := by
    unfold Article.settleFirst
    cases hb : breakOn Article.opening query with
    | none => exact absurd hopening (breakOn_eq_none.mp hb)
    | some p => rw [breakOn_eq_none.mpr hclosing]
  unfold phrase Expander.expand
  rw [Expander.cycles_of_not_mem _ _ _ _ htag]
  show (Expander.finish query).mapError EngineError.expansion = _
  rw [Expander.finish, Article.settle_of_error hfirst]
  rfl

/-- **Faults of the engine take a dollar sign.** Neither a phrase nor a count fails with a fault
of the engine other than a broken article, and with that one only if a dollar sign stands in the
query, in an alternative or in a forced text. Validation reports one only if a dollar sign stands
in an alternative. -/
theorem internal_of_dollar (e : Engine σ) (query : Text) (overrides : Overrides)
    {error : ExpansionError} (hi : error.isInternal = true) :
    ((e.phrase query overrides).1 = .error (.expansion error) ∨
        (e.options query overrides).1 = .error (.expansion error) →
      error = .brokenArticle ∧
        ('$' ∈ query ∨ e.grammar.Has '$' ∨ Overrides.Has overrides '$')) ∧
    ∀ category fragment, .failure category fragment error ∈ e.validate.1 →
      error = .brokenArticle ∧ e.grammar.Has '$' := by
  constructor
  · rintro (hphrase | hoptions)
    · exact Expander.brokenArticle_of_internal (mapError_expansion.mp hphrase) hi
    · -- a count expands the query with the same grammar and the same forced texts
      have hcount := Expander.countOptions_eq_error.mp (mapError_expansion.mp hoptions)
      exact Expander.brokenArticle_of_internal hcount hi
  · intro category fragment hfinding
    have hlisted : .failure category fragment error
        ∈ ((e.expander []).checkCategories e.grammar.categories e.source).1 := hfinding
    obtain ⟨⟨entry, hentry, hmem⟩, s, hfail⟩ := Expander.expand_of_mem_checkCategories hlisted
    obtain ⟨rfl, hdollar⟩ := Expander.brokenArticle_of_internal hfail hi
    refine ⟨rfl, ?_⟩
    rcases hdollar with hfragment | hgrammar | ⟨forced, hforced, -⟩
    · exact ⟨entry, hentry, fragment, hmem, hfragment⟩
    · exact hgrammar
    · cases hforced

/-! ### An opening mark from outside -/

/-- An engine without categories. -/
def empty : Engine Keystream := create .default (Vector.replicate 8 0)

/-- An opening mark with a hat behind it. -/
def openHat : Text := Article.opening ++ [' ', 'h', 'a', 't']

/-- A query that holds no tag fails with a fault of the engine. -/
theorem openHat_internal :
    ∃ error, error.isInternal = true ∧ (empty.phrase openHat).1 = .error (.expansion error) :=
  ⟨.brokenArticle, rfl, empty.phrase_of_opening [] (by decide) (by decide) (by decide)⟩

theorem openHat_internal_of_dollar :
    (ExpansionError.brokenArticle.isInternal = true ∧
      (empty.phrase openHat).1 = .error (.expansion .brokenArticle)) ∧
    ('$' ∈ openHat ∨ empty.grammar.Has '$' ∨ Overrides.Has [] '$') ∧
    ∀ category fragment, .failure category fragment .brokenArticle ∈ empty.validate.1 →
      empty.grammar.Has '$' := by
  have hphrase : (empty.phrase openHat).1 = .error (.expansion .brokenArticle) :=
    empty.phrase_of_opening [] (by decide) (by decide) (by decide)
  have hi : ExpansionError.brokenArticle.isInternal = true := rfl
  obtain ⟨hquery, hvalidate⟩ := empty.internal_of_dollar openHat [] hi
  exact ⟨⟨hi, hphrase⟩, (hquery (Or.inl hphrase)).2,
    fun category fragment h => (hvalidate category fragment h).2⟩

end Engine

end PhraseGrammar
