import PhraseGrammar.Proofs.Faults
import PhraseGrammar.Proofs.Spaces

set_option autoImplicit false

/-! # Counted expansions

A count expands its query like a phrase, and differs in one place: an optional tag that is left out
is looked up all the same, with the draws and the errors of the look-up. So a count and a phrase
part at an optional tag and nowhere else.

A tag is optional by its question mark, and no step brings in a character that stands neither in the
query nor in a text of the grammar, a forced text or a mark (`Expander.Step.not_mem`). Where there is
no question mark, no optional tag comes up later either, not by an early call and not where two texts
meet, and a count takes the course of the phrase (`Engine.options_follow_phrase`).
-/

namespace PhraseGrammar

open Tag Text

namespace Expander

/-! ## No new characters -/

/-- **No step brings in a new character**, but for those of the marks. -/
theorem Step.not_mem {x : Expander} {c : Char} {query next : Text}
    (hc : c ∉ Article.markLetters) (ht : x.AllTexts (c ∉ ·)) (hq : c ∉ query)
    (h : x.Step query next) : c ∉ next := by
  have hspaces : ∀ {t : Text}, c ∉ t → c ∉ t.halveSpaces :=
    fun hnot hmem => hnot ((halveSpaces_sublist _).mem hmem)
  have hreplace : ∀ {target new t : Text}, c ∉ new → c ∉ t → c ∉ replace target new t :=
    fun hnew hnot hmem => (mem_replace hmem).elim hnew hnot
  have hmeans : ∀ {inside new : Text}, Query.FirstTag query inside →
      x.Means (ofInside inside).key new → c ∉ new := by
    rintro inside new ⟨lead, rest, rfl, -, -⟩ hnew
    rw [append_bracketed_append] at hq
    have hinside : c ∉ inside := (not_mem_cut (not_mem_cut hq).2).1
    have hkey : c ∉ (ofInside inside).key :=
      key_of_cut (P := (c ∉ ·)) (fun _ _ _ _ => not_mem_cut) hinside
    exact ht.means (by simp) (forall_mem_splitOn (P := (c ∉ ·)) (fun _ _ => not_mem_cut) hkey)
      (fun ha hmem => hc (Article.mark_subset ha hmem)) hnew
  cases h with
  | shown hf _ hnew => exact hreplace (hmeans hf hnew) (hspaces hq)
  | omitted => exact hreplace (by simp) (hspaces hq)
  | hidden hf hnew => exact hreplace (hmeans hf hnew) (hspaces (hreplace (by simp) hq))

/-! ## With and without counting -/

variable {σ : Type} [WordSource σ]

/-- The expander of a count. -/
def counted (x : Expander) : Expander := { x with counting := true }

/-- Only the text of an optional tag depends on whether options are counted. -/
theorem textFor_counted (x : Expander) {tag : Tag} (h : tag.kind ≠ .optional) (d : Draws σ) :
    x.counted.textFor tag d = x.textFor tag d := by
  unfold textFor
  cases hk : tag.kind with
  | optional => exact absurd hk h
  | hidden | alternation | named => rfl

theorem cycle_counted (x : Expander) {query inside : Text} (hquery : '?' ∉ query)
    (hf : Query.FirstTag query inside) (d : Draws σ) :
    x.counted.cycle query (bracketed inside) d = x.cycle query (bracketed inside) d := by
  have hkind : (ofInside inside).kind ≠ .optional := by
    intro hk
    obtain ⟨body, rfl⟩ := ofInside_of_optional hk
    obtain ⟨lead, rest, rfl, -, -⟩ := hf
    exact hquery (by simp [bracketed])
  rw [cycle_bracketed _ _ _ hf.bracketFree, cycle_bracketed _ _ _ hf.bracketFree,
    textFor_counted x hkind]
  rfl

/-- **Without question marks an expansion is the same with and without counting**, and so are its
draws. -/
theorem expand_counted {x : Expander} (ht : x.AllTexts ('?' ∉ ·)) {query : Text}
    (hquery : '?' ∉ query) (source : σ) :
    x.counted.expand query source = x.expand query source := by
  refine expand_congr (P := ('?' ∉ ·)) ?_ ?_ ?_ hquery source
  · rfl
  · exact fun _ _ d hq hf => x.cycle_counted hq hf d
  · exact fun _ _ hq hs => hs.not_mem (by decide) ht hq

theorem countOptions_eq {x : Expander} (ht : x.AllTexts ('?' ∉ ·)) {query : Text}
    (hquery : '?' ∉ query) (source : σ) :
    x.countOptions query source
      = ((x.expand query source).1.map fun _ => (x.expand query source).2.estimate.bounds,
          (x.expand query source).2) := by
  rw [← expand_counted ht hquery]
  rfl

end Expander

/-! ## Counts and phrases of an engine -/

namespace Engine

/-- Both operations fail with the same error, or both succeed. -/
def Alike {α β : Type} (r : Except EngineError α) (s : Except EngineError β) : Prop :=
  (∃ error, r = .error error ∧ s = .error error) ∨ ∃ a b, r = .ok a ∧ s = .ok b

variable {σ : Type} [WordSource σ]

/-- **Where nothing is optional a count follows the phrase.** From the same engine, whatever its
limits and its random source, both fail with the same error or both succeed, and both leave the same
engine behind. -/
theorem options_follow_phrase (e : Engine σ) {query : Text} {overrides : Overrides}
    (hquery : '?' ∉ query) (hgrammar : ¬ e.grammar.Has '?')
    (hoverrides : ¬ Overrides.Has overrides '?') :
    Alike (e.options query overrides).1 (e.phrase query overrides).1 ∧
      (e.options query overrides).2 = (e.phrase query overrides).2 := by
  have ht : (e.expander overrides).AllTexts ('?' ∉ ·) :=
    Expander.allTexts_of_not_has hgrammar hoverrides
  unfold options phrase
  rw [Expander.countOptions_eq ht hquery]
  obtain ⟨outcome, d⟩ := (e.expander overrides).expand query e.source
  refine ⟨?_, rfl⟩
  cases outcome with
  | error error => exact Or.inl ⟨.expansion error, rfl, rfl⟩
  | ok phrase => exact Or.inr ⟨d.estimate.bounds, phrase, rfl, rfl⟩

/-! ### A count that succeeds and one that fails -/

/-- An engine with one category, of which one alternative holds a tag. -/
def cellar : Engine Keystream where
  grammar := { categories := [(['k'], [['j', 'a', 'r'], ['b', 'o', 'x', ' '] ++ bracketed ['o']])] }
  settings := .default
  source := Keystream.ofSeed 7

/-- A forced text for the key `o`. -/
def rum : Overrides := [(['o'], ['r', 'u', 'm'])]

/-- The query `[k] [k#2]`. -/
def cellarQuery : Text := bracketed ['k'] ++ ' ' :: bracketed ['k', '#', '2']

/-- The second query, `[k] [k#2][u]`, fails behind the draws of the first one. -/
theorem cellar_options_follow_phrase :
    (('?' ∉ cellarQuery ∧ '?' ∉ cellarQuery ++ bracketed ['u']) ∧
      ¬ cellar.grammar.Has '?' ∧ ¬ Overrides.Has rum '?') ∧
    ((cellar.options cellarQuery rum).1 = .ok ⟨3, 4⟩ ∧
      Alike (cellar.options cellarQuery rum).1 (cellar.phrase cellarQuery rum).1 ∧
      (cellar.options cellarQuery rum).2 = (cellar.phrase cellarQuery rum).2) ∧
    (cellar.options (cellarQuery ++ bracketed ['u']) rum).1
        = .error (.expansion (.unknownKey ['u'])) ∧
      Alike (cellar.options (cellarQuery ++ bracketed ['u']) rum).1
        (cellar.phrase (cellarQuery ++ bracketed ['u']) rum).1 ∧
      (cellar.options (cellarQuery ++ bracketed ['u']) rum).2
        = (cellar.phrase (cellarQuery ++ bracketed ['u']) rum).2 :=
  ⟨⟨⟨by decide, by decide⟩, by decide, by decide⟩,
    ⟨by decide +kernel,
      cellar.options_follow_phrase (by decide) (by decide) (by decide)⟩,
    by decide +kernel, cellar.options_follow_phrase (by decide) (by decide) (by decide)⟩

end Engine

end PhraseGrammar
