import PhraseGrammar.Proofs.Letters
import PhraseGrammar.Proofs.Steps

set_option autoImplicit false

/-! # Filling in the tags of a flat text

A *reading* gives some tags a text. To fill in a reading is to replace all tags that it reads at
once (`Letter.fill`), which is what a cycle does up to runs of spaces: a tag that is shown reads
as its outcome, and a hidden tag reads as nothing and lets the tag without its marker read as its
outcome (`Letter.outcomeOf`, `Letter.fill_of_apply`). Filling in one reading after the other
fills in both, the first one taking precedence (`Letter.fill_fill`).
-/

namespace PhraseGrammar.Letter

open Text Tag

/-- The text that each of some tags reads as. -/
abbrev Reading := Text → Option Text

/-- A letter with a reading filled in. -/
def fillOne (f : Reading) : Letter → List Letter
  | char c => [char c]
  | tag inside => match f inside with
    | some t => plain t
    | none => [tag inside]

/-- The letters with a reading filled in. -/
def fill (f : Reading) (ls : List Letter) : List Letter := ls.flatMap (fillOne f)

variable {f g : Reading}

@[simp] theorem fill_append (f : Reading) (s t : List Letter) :
    fill f (s ++ t) = fill f s ++ fill f t := List.flatMap_append

theorem fill_tag_cons_of_some {inside t : Text} (h : f inside = some t) (ls : List Letter) :
    fill f (tag inside :: ls) = plain t ++ fill f ls := by
  rw [fill, List.flatMap_cons, fillOne, h, fill]

theorem fill_tag_cons_of_none {inside : Text} (h : f inside = none) (ls : List Letter) :
    fill f (tag inside :: ls) = tag inside :: fill f ls := by
  rw [fill, List.flatMap_cons, fillOne, h, fill]
  rfl

@[simp] theorem fill_plain (f : Reading) (t : Text) : fill f (plain t) = plain t := by
  induction t with
  | nil => rfl
  | cons c t ih => exact congrArg (char c :: ·) ih

@[simp] theorem insides_append (s t : List Letter) :
    insides (s ++ t) = insides s ++ insides t := List.filterMap_append

@[simp] theorem insides_plain (t : Text) : insides (plain t) = [] := by
  induction t with
  | nil => rfl
  | cons c t ih => exact ih

/-- The tags that are left are those that the reading does not read. -/
theorem insides_fill (f : Reading) (ls : List Letter) :
    insides (fill f ls) = (insides ls).filter fun inside => (f inside).isNone := by
  induction ls with
  | nil => rfl
  | cons l ls ih =>
      cases l with
      | char c => exact ih
      | tag inside =>
          cases hf : f inside with
          | none => simp [fill_tag_cons_of_none hf, hf, ih]
          | some t => simp [fill_tag_cons_of_some hf, hf, ih]

/-- Filling in twice: the first reading takes precedence. -/
theorem fill_fill (f g : Reading) (ls : List Letter) :
    fill g (fill f ls) = fill (fun inside => (f inside).or (g inside)) ls := by
  induction ls with
  | nil => rfl
  | cons l ls ih =>
      cases l with
      | char c => exact congrArg (char c :: ·) ih
      | tag inside =>
          cases hf : f inside with
          | some t =>
              rw [fill_tag_cons_of_some hf, fill_append, fill_plain, ih,
                fill_tag_cons_of_some (t := t) (by simp [hf])]
          | none =>
              cases hg : g inside with
              | some t =>
                  rw [fill_tag_cons_of_none hf, fill_tag_cons_of_some hg, ih,
                    fill_tag_cons_of_some (t := t) (by simp [hf, hg])]
              | none =>
                  rw [fill_tag_cons_of_none hf, fill_tag_cons_of_none hg, ih,
                    fill_tag_cons_of_none (by simp [hf, hg])]

theorem flat_fill {ls : List Letter} (hflat : ∀ l ∈ ls, l.Flat)
    (hf : ∀ inside t, f inside = some t → BracketFree t) : ∀ l ∈ fill f ls, l.Flat := by
  intro l hl
  obtain ⟨m, hm, hlm⟩ := List.mem_flatMap.mp hl
  cases m with
  | char c =>
      obtain rfl := List.mem_singleton.mp hlm
      exact hflat _ hm
  | tag inside =>
      rw [fillOne] at hlm
      cases ht : f inside with
      | some t =>
          rw [ht] at hlm
          exact flat_plain (hf inside t ht) l hlm
      | none =>
          rw [ht] at hlm
          obtain rfl := List.mem_singleton.mp hlm
          exact hflat _ hm

theorem flat_halve {ls : List Letter} (hflat : ∀ l ∈ ls, l.Flat) :
    ∀ l ∈ halve (char ' ') ls, l.Flat :=
  fun l hl => hflat l (halve_subset _ _ hl)

theorem insides_halve (ls : List Letter) : insides (halve (char ' ') ls) = insides ls :=
  filterMap_halve rfl ls

/-! ## Up to runs of spaces -/

theorem squeeze_fill {s t : List Letter} (f : Reading)
    (h : squeeze (char ' ') s = squeeze (char ' ') t) :
    squeeze (char ' ') (fill f s) = squeeze (char ' ') (fill f t) := by
  have hspace : fillOne f (char ' ') = [char ' '] := rfl
  exact squeeze_flatMap_congr hspace h

theorem squeeze_text {s t : List Letter} (h : squeeze (char ' ') s = squeeze (char ' ') t) :
    squeeze ' ' (text s) = squeeze ' ' (text t) := by
  have hspace : read (char ' ') = [' '] := rfl
  exact squeeze_flatMap_congr hspace h

/-! ## What a cycle fills in -/

/-- One tag reads as a text. -/
def only (inside t : Text) : Reading := fun b => if b = inside then some t else none

/-- What the outcome of a tag says about the tags: the tag reads as its outcome, but a hidden tag
reads as nothing and gives its outcome to the tag without its marker. -/
def outcomeOf : Text → Text → Reading
  | '!' :: body, t => fun b => (only ('!' :: body) [] b).or (only body t b)
  | inside, t => only inside t

theorem flat_fill_only {inside t : Text} {ls : List Letter} (ht : BracketFree t)
    (hflat : ∀ l ∈ ls, l.Flat) : ∀ l ∈ fill (only inside t) ls, l.Flat := by
  refine flat_fill hflat fun b s hb => ?_
  unfold only at hb
  split at hb
  · cases hb
    exact ht
  · cases hb

theorem outcomeOf_of_not_hidden {inside : Text} (h : (ofInside inside).kind ≠ .hidden)
    (t : Text) : outcomeOf inside t = only inside t := by
  unfold outcomeOf
  split
  · exact absurd rfl h
  · rfl

theorem replaceTag_plain (inside t : Text) (ls : List Letter) :
    replaceTag inside (plain t) ls = fill (only inside t) ls := by
  unfold replaceTag fill
  refine congrArg (List.flatMap · ls) (funext fun l => ?_)
  cases l with
  | char c => rfl
  | tag b =>
      by_cases hb : b = inside
      · rw [if_pos (by rw [hb]), fillOne, only, if_pos hb]
      · rw [if_neg (by simpa using hb), fillOne, only, if_neg hb]

/-- Replacing a tag by a text fills that text in. -/
theorem replace_plain {ls : List Letter} (hflat : ∀ l ∈ ls, l.Flat) {inside : Text}
    (hin : BracketFree inside) (t : Text) :
    replace (bracketed inside) t (text ls) = text (fill (only inside t) ls) := by
  have h := replace_text hflat hin (plain t)
  rwa [text_plain, replaceTag_plain] at h

theorem isNone_only {inside t b : Text} : (only inside t b).isNone = true ↔ b ≠ inside := by
  unfold only
  split <;> simp_all

/-- The outcome of a tag leaves alone all tags but itself and its form without marker. -/
theorem isNone_outcomeOf {inside t b : Text} :
    (outcomeOf inside t b).isNone = true ↔ b ≠ inside ∧ '!' :: b ≠ inside := by
  unfold outcomeOf
  split
  · next body =>
      rw [Option.isNone_or, Bool.and_eq_true, isNone_only, isNone_only]
      simp
  · next hne =>
      rw [isNone_only]
      exact ⟨fun h => ⟨h, fun hb => hne b hb.symm⟩, fun h => h.1⟩

/-- A tag reads as its outcome, or as nothing if it is hidden. -/
theorem outcomeOf_self (inside t : Text) :
    outcomeOf inside t inside = some (if (ofInside inside).kind = .hidden then [] else t) := by
  by_cases hk : (ofInside inside).kind = .hidden
  · obtain ⟨body, rfl⟩ := ofInside_of_hidden hk
    rw [if_pos hk]
    simp [outcomeOf, only]
  · rw [if_neg hk, outcomeOf_of_not_hidden hk, only, if_pos rfl]

/-- A hidden tag gives its outcome to the tag without its marker. -/
theorem outcomeOf_hidden (body t : Text) : outcomeOf ('!' :: body) t body = some t := by
  simp [outcomeOf, only]

theorem outcomeOf_eq_none {inside t b : Text} (h : b ≠ inside) (h' : '!' :: b ≠ inside) :
    outcomeOf inside t b = none := by
  rw [← Option.isNone_iff_eq_none, isNone_outcomeOf]
  exact ⟨h, h'⟩

/-- **What a cycle makes of a flat query**: up to runs of spaces, the outcome of the tag is
filled in. -/
theorem fill_of_apply {ls : List Letter} (hflat : ∀ l ∈ ls, l.Flat) {inside new query : Text}
    (hin : BracketFree inside) {limit : Nat}
    (h : (Expander.placing (text ls) (bracketed inside) (ofInside inside) new).apply limit
      = .ok query) :
    ∃ ls', query = text ls' ∧
      squeeze (char ' ') ls' = squeeze (char ' ') (fill (outcomeOf inside new) ls) ∧
      insides ls' = insides (fill (outcomeOf inside new) ls) ∧
      (BracketFree new → ∀ l ∈ ls', l.Flat) := by
  obtain rfl := Substitution.eq_replace_of_apply h
  by_cases hk : (ofInside inside).kind = .hidden
  · -- the hidden tag is filled in with nothing before the spaces are halved, its form without
    -- marker with the outcome behind that
    obtain ⟨body, rfl⟩ := ofInside_of_hidden hk
    have hbody := (bracketFree_cons.mp hin).2
    have htaken : ∀ l ∈ fill (only ('!' :: body) []) ls, l.Flat :=
      flat_fill_only bracketFree_nil hflat
    have hboth : fill (only body new) (fill (only ('!' :: body) []) ls)
        = fill (outcomeOf ('!' :: body) new) ls := fill_fill _ _ ls
    refine ⟨fill (only body new) (halve (char ' ') (fill (only ('!' :: body) []) ls)),
      ?_, ?_, ?_, fun hnew => flat_fill_only hnew (flat_halve htaken)⟩
    · show replace (ofInside ('!' :: body)).unmarked new
          (replace (bracketed ('!' :: body)) [] (text ls)).halveSpaces = _
      rw [unmarked_ofInside_hidden, replace_plain hflat hin, halveSpaces_text htaken,
        replace_plain (flat_halve htaken) hbody]
    · rw [← hboth]
      exact squeeze_fill _ (squeeze_halve _ _)
    · rw [← hboth, insides_fill, insides_fill, insides, filterMap_halve rfl, ← insides]
  · rw [Expander.placing_of_not_hidden hk, outcomeOf_of_not_hidden hk]
    refine ⟨fill (only inside new) (halve (char ' ') ls), ?_, ?_, ?_,
      fun hnew => flat_fill_only hnew (flat_halve hflat)⟩
    · show replace (bracketed inside) new (text ls).halveSpaces = _
      rw [halveSpaces_text hflat, replace_plain (flat_halve hflat) hin]
    · exact squeeze_fill _ (squeeze_halve _ _)
    · rw [insides_fill, insides_fill, insides, filterMap_halve rfl, ← insides]

end PhraseGrammar.Letter
