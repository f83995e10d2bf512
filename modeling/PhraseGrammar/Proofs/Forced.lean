import PhraseGrammar.Proofs.Faults
import PhraseGrammar.Proofs.TagsInOrder

set_option autoImplicit false

/-! # Forced texts

A tag whose key is forced draws nothing (`Expander.drawAll_of_forced`), so an expansion of a query
without other tags is fixed: it replaces one tag after the other by its text. The text is put into
the query as it is, but from then on it is part of the query. So its brackets are read as those of
tags, its marks as those of articles, and its runs of spaces are shortened with all the others
before the next tag is replaced (`Engine.pairQuery_not_literal`).

Nothing else happens to forced texts. If no bracket and no mark of theirs can be read as such
(`Expander.Inert`), then the phrase is the query with every tag substituted by its text, trimmed,
and with some runs of spaces shortened. They are not shortened if there are no two adjacent spaces
until the last tag is replaced (`Engine.phrase_of_forced`).
-/

namespace PhraseGrammar

open Letter Tag Text

namespace Expander

variable {σ : Type} [WordSource σ] {x : Expander}

/-! ## Forced tags -/

/-- The text that is forced for the key of a tag. -/
def forcedText (x : Expander) (inside : Text) : Text :=
  (x.overrides.lookup (ofInside inside).key).getD []

/-- The tag has no marker and no terms of its own, and a text is forced for its key. -/
def Forced (x : Expander) (inside : Text) : Prop :=
  (ofInside inside).kind = .named ∧ (x.overrides.lookup (ofInside inside).key).isSome

theorem slash_not_mem_of_named {inside : Text} (h : (ofInside inside).kind = .named) :
    '/' ∉ (ofInside inside).key := by
  intro hs
  unfold ofInside at h hs
  split at h
  · cases h
  · cases h
  · unfold ofBody at h hs
    dsimp only at h hs
    rw [Option.getD_none, if_pos (by simpa using hs)] at h
    cases h

/-- A forced tag draws nothing. -/
theorem Forced.textFor {inside : Text} (h : x.Forced inside) (d : Draws σ) :
    x.textFor (ofInside inside) d = (.ok (x.forcedText inside), d) := by
  obtain ⟨hkind, hsome⟩ := h
  obtain ⟨forced, ho⟩ := Option.isSome_iff_exists.mp hsome
  have hs : (ofInside inside).key.contains '/' = false := by
    simpa using slash_not_mem_of_named hkind
  unfold Expander.textFor forcedText meaning
  rw [hkind]
  simp only [hs, ho, Bool.false_eq_true, if_false, Option.getD_some]

/-- **Forced tags draw nothing at all.** -/
theorem drawAll_of_forced {tags : List Text} (h : ∀ b ∈ tags, x.Forced b) (source : σ) :
    x.drawAll tags ⟨source, {}⟩ = (.ok (tags.map fun b => (b, x.forcedText b)), ⟨source, {}⟩) := by
  induction tags with
  | nil => rfl
  | cons b tags ih =>
      rw [List.map_cons, drawAll_cons_eq_ok]
      exact ⟨_, (h b List.mem_cons_self).textFor _,
        ih fun c hc => h c (List.mem_cons_of_mem b hc)⟩

/-! ## Queries whose tags are all forced -/

/-- All tags of a flat query are forced. -/
structure AllForced (x : Expander) (ls : List Letter) : Prop where
  flat : ∀ l ∈ ls, l.Flat
  forced : ∀ inside ∈ insides ls, x.Forced inside

/-- Nothing in the forced texts of a query is read as a tag or as an article. The text of the tag
that comes last may hold closing brackets. -/
structure Inert (x : Expander) (ls : List Letter) : Prop where
  opening : ∀ inside ∈ insides ls, '[' ∉ x.forcedText inside
  closing : ∀ inside ∈ (insides ls).eraseDups.dropLast, ']' ∉ x.forcedText inside
  noMark : ¬ Article.opening <:+: substituted x.forcedText ls

/-- The limits leave room for the forced texts of a query. -/
structure Fits (x : Expander) (ls : List Letter) : Prop where
  cycles : (insides ls).eraseDups.length < x.cycleLimit
  size : room x.forcedText ls ≤ x.sizeLimit

theorem AllForced.expand {ls : List Letter} (h : x.AllForced ls) (hinert : x.Inert ls)
    (hfits : x.Fits ls) (source : σ) :
    x.expand (text ls) source
      = (.ok (text (replaceInOrder x.forcedText (insides ls).eraseDups ls)).trim,
          ⟨source, {}⟩) := by
  have hkind : ∀ inside ∈ insides ls, (ofInside inside).kind ≠ .hidden := by
    intro inside hinside
    simp [(h.forced inside hinside).1]
  exact expand_eq_replaceInOrder h.flat hkind hinert.opening hinert.closing hinert.noMark
    hfits.cycles hfits.size
    (drawAll_of_forced (fun b hb => h.forced b (List.mem_eraseDups.mp hb)) source)

end Expander

namespace Engine

variable {σ : Type} [WordSource σ]

/-- **Forced texts stand in the phrase as they are**, but for runs of spaces. A query whose tags
are all forced, to texts of which nothing is read as a tag or as an article, has a phrase, and the
engine is left as it was. The phrase is the query with every tag substituted by its text, trimmed,
with some runs of spaces shortened; and with none of them shortened if no two adjacent spaces are
there when all tags but the last one have been substituted. -/
theorem phrase_of_forced (e : Engine σ) (overrides : Overrides) {ls : List Letter}
    (h : (e.expander overrides).AllForced ls) (hinert : (e.expander overrides).Inert ls)
    (hfits : (e.expander overrides).Fits ls) :
    let x := e.expander overrides
    let literal := (substituted x.forcedText ls).trim
    ∃ phrase, e.phrase (text ls) overrides = (.ok phrase, e) ∧
      squeeze ' ' phrase = squeeze ' ' literal ∧ phrase.Sublist literal ∧
      (¬ Doubled (text (fill (readAs x.forcedText (insides ls).eraseDups.dropLast) ls)) →
        phrase = literal) := by
  intro x literal
  have hall := Expander.text_fill_all x.forcedText ls
  refine ⟨_, by rw [phrase, h.expand hinert hfits]; rfl, ?_, ?_, fun hdoubled => ?_⟩
  · refine squeeze_trim_congr ?_
    rw [← hall]
    exact squeeze_text (squeeze_replaceInOrder x.forcedText _ ls)
  · refine trim_sublist ?_
    rw [← hall]
    exact (replaceInOrder_sublist x.forcedText _ ls).flatMap read
  · have hspaces : ¬ [char ' ', char ' ']
        <:+: fill (readAs x.forcedText (insides ls).eraseDups.dropLast) ls :=
      fun hi => hdoubled (doubled_text hi)
    rw [replaceInOrder_eq_fill hspaces, hall]

/-! ### Forced texts with spaces, brackets and marks -/

/-- The query `[k] [j#1], [k]`. -/
def pairQuery : List Letter :=
  [.tag ['k'], .char ' ', .tag ['j', '#', '1'], .char ',', .char ' ', .tag ['k']]

/-- The texts that are forced for `k` and for `j`. -/
def pairOf (k j : String) : Overrides := [(['k'], k.toList), (['j'], j.toList)]

theorem allForced_pairOf (k j : String) :
    (empty.expander (pairOf k j)).AllForced pairQuery := by
  refine ⟨by decide, fun inside hin => ?_⟩
  have hin : inside ∈ [['k'], ['j', '#', '1'], ['k']] := hin
  simp only [List.mem_cons, List.not_mem_nil, or_false] at hin
  rcases hin with rfl | rfl | rfl
  · exact ⟨by decide, rfl⟩
  · exact ⟨by decide, rfl⟩
  · exact ⟨by decide, rfl⟩

/-- A query that holds neither two adjacent spaces nor a dollar sign. Of the two spaces in a forced
text one is lost, the brackets of a forced text are those of a tag, and its mark is that of an
article. -/
theorem pairQuery_not_literal :
    (¬ Doubled (text pairQuery) ∧ '$' ∉ text pairQuery ∧
      ∀ k j, (empty.expander (pairOf k j)).AllForced pairQuery) ∧
    ((empty.expander (pairOf "x  y" "z")).Fits pairQuery ∧
      (empty.phrase (text pairQuery) (pairOf "x  y" "z")).1 = .ok "x y z, x y".toList ∧
      (substituted (empty.expander (pairOf "x  y" "z")).forcedText pairQuery).trim
        = "x  y z, x  y".toList) ∧
    ((empty.expander (pairOf "[x]" "z")).Fits pairQuery ∧
      (empty.phrase (text pairQuery) (pairOf "[x]" "z")).1
        = .error (.expansion (.unknownKey ['x']))) ∧
    (empty.expander (pairOf "x" (String.ofList Article.opening))).Fits pairQuery ∧
      (empty.phrase (text pairQuery) (pairOf "x" (String.ofList Article.opening))).1
        = .error (.expansion .brokenArticle) := by
  refine ⟨⟨by decide, by decide, allForced_pairOf⟩, ⟨⟨?_, ?_⟩, ?_⟩, ⟨⟨?_, ?_⟩, ?_⟩, ⟨?_, ?_⟩, ?_⟩
  all_goals decide +kernel

theorem pairQuery_phrase_of_forced :
    ((empty.expander (pairOf "x y" "]  $5")).AllForced pairQuery ∧
      (empty.expander (pairOf "x y" "]  $5")).Inert pairQuery ∧
      (empty.expander (pairOf "x y" "]  $5")).Fits pairQuery ∧
      ¬ Doubled (text (fill (readAs (empty.expander (pairOf "x y" "]  $5")).forcedText
        (insides pairQuery).eraseDups.dropLast) pairQuery))) ∧
    empty.phrase (text pairQuery) (pairOf "x y" "]  $5")
      = (.ok "x y ]  $5, x y".toList, empty) := by
  have hall := allForced_pairOf "x y" "]  $5"
  have hinert : (empty.expander (pairOf "x y" "]  $5")).Inert pairQuery :=
    ⟨by decide +kernel, by decide +kernel, by decide +kernel⟩
  have hfits : (empty.expander (pairOf "x y" "]  $5")).Fits pairQuery :=
    ⟨by decide +kernel, by decide +kernel⟩
  have hspaces : ¬ Doubled (text (fill (readAs (empty.expander (pairOf "x y" "]  $5")).forcedText
      (insides pairQuery).eraseDups.dropLast) pairQuery)) := by decide +kernel
  obtain ⟨phrase, hphrase, -, -, hliteral⟩ := empty.phrase_of_forced _ hall hinert hfits
  refine ⟨⟨hall, hinert, hfits, hspaces⟩, ?_⟩
  have hvalue : (substituted (empty.expander (pairOf "x y" "]  $5")).forcedText pairQuery).trim
      = "x y ]  $5, x y".toList := by decide +kernel
  rw [hphrase, hliteral hspaces, hvalue]

end Engine

end PhraseGrammar
