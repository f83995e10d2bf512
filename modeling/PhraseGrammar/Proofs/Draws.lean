import PhraseGrammar.Proofs.Steps
import Mathlib.Algebra.Order.BigOperators.GroupWithZero.List
import Mathlib.Algebra.Order.Ring.Nat

set_option autoImplicit false

/-! # What a tag draws

At a tag an expansion draws a coin, if the tag is optional, and then one of a number of terms,
unless there are none (`TagDraw`). Whatever text the tag stands for, the source and the estimate
behind it are those behind its draw (`Expander.textFor_draws`).

Each draw with a choice raises the lower bound by one and multiplies the upper one by its branches,
and both stay at the largest count. Many draws do the same at once (`TagDraw.bounds_foldl_take`):
a bounded operand gives the same bounded result as the one that it stands for. A tag without terms
to draw, that is a forced text, an article or a category without alternatives, is not counted at
all.
-/

namespace PhraseGrammar

open Expander Tag Text

/-! ## Bounded counts -/

namespace Count

/-- A bounded sum in a bounded sum need not be bounded. -/
theorem add_add (a b c : Nat) : add (add a b) c = add a (b + c) := by
  unfold add
  omega

/-- A bounded sum in a bounded product need not be bounded. -/
theorem mul_add {a : Nat} (ha : 1 ≤ a) (b c : Nat) : mul a (add b c) = mul a (b + c) := by
  unfold mul add
  rcases Nat.le_total (b + c) largest with h | h
  · rw [Nat.min_eq_left h]
  · rw [Nat.min_eq_right h, Nat.min_eq_right (Nat.le_mul_of_pos_left largest ha),
      Nat.min_eq_right (h.trans (Nat.le_mul_of_pos_left (b + c) ha))]

/-- A bounded product in a bounded product need not be bounded. -/
theorem mul_mul {c : Nat} (hc : 1 ≤ c) (a b : Nat) : mul (mul a b) c = mul a (b * c) := by
  unfold mul
  rw [← Nat.mul_assoc]
  rcases Nat.le_total (a * b) largest with h | h
  · rw [Nat.min_eq_left h]
  · rw [Nat.min_eq_right h, Nat.min_eq_right (Nat.le_mul_of_pos_right largest hc),
      Nat.min_eq_right (h.trans (Nat.le_mul_of_pos_right (a * b) hc))]

theorem mul_one {a : Nat} (ha : a ≤ largest) : mul a 1 = a := by
  rw [mul, Nat.mul_one, Nat.min_eq_left ha]

theorem one_le_mul {a b : Nat} (ha : 1 ≤ a) (hb : 1 ≤ b) : 1 ≤ mul a b :=
  Nat.le_min.mpr ⟨Nat.mul_pos ha hb, by decide⟩

end Count

/-! ## Counters -/

/-- No counter of an estimate is above the largest count. -/
structure Estimate.Fits (e : Estimate) : Prop where
  lower_le : e.lower ≤ Count.largest
  upper_le : e.upper ≤ Count.largest
  branches_le : e.branches ≤ Count.largest

namespace Estimate

theorem fits_first : ({} : Estimate).Fits := ⟨by decide, by decide, by decide⟩

theorem Fits.startTag {e : Estimate} (h : e.Fits) : e.startTag.Fits :=
  ⟨h.lower_le, h.upper_le, Nat.zero_le _⟩

/-- The count of branches that an omission adds to has just been set back. -/
theorem Fits.addOmission {e : Estimate} (h : e.Fits) : e.startTag.addOmission.Fits :=
  ⟨h.lower_le, h.upper_le, show 0 + 1 ≤ Count.largest by decide⟩

theorem fits_addChoice (e : Estimate) (terms : Nat) : (e.addChoice terms).Fits :=
  ⟨Count.add_le_largest _ _, Count.mul_le_largest _ _, Count.add_le_largest _ _⟩

end Estimate

/-! ## Draws -/

/-- What is drawn at a tag: a coin if the tag is optional, and a choice among a number of terms. -/
structure TagDraw where
  optional : Bool
  terms : Nat
  deriving DecidableEq, Repr

namespace TagDraw

variable {σ : Type} [WordSource σ]

/-- What a choice does. Without terms nothing is drawn, and nothing is counted. -/
def choice (terms : Nat) (d : Draws σ) : Draws σ :=
  if h : 0 < terms then ⟨(WordSource.index terms h d.source).2, d.estimate.addChoice terms⟩ else d

/-- What comes before the choice. -/
def begin (d : Draws σ) (r : TagDraw) : Draws σ :=
  let d := Draws.startTag d
  if r.optional then ⟨(WordSource.coin d.source).2, d.estimate.addOmission⟩ else d

/-- **What a draw does** to the source and to the estimate. -/
def take (d : Draws σ) (r : TagDraw) : Draws σ := choice r.terms (begin d r)

/-- The branches of a draw: its terms, and one more for the omission of an optional tag. -/
def branches (r : TagDraw) : Nat := r.terms + if r.optional then 1 else 0

/-- The draws with a choice, which are the ones that count. -/
def choices (rs : List TagDraw) : List TagDraw := rs.filter fun r => 0 < r.terms

/-- **The totals of draws**: one more than there are choices, and the product of their branches. -/
def totals (rs : List TagDraw) : Bounds where
  lower := min (1 + (choices rs).length) Count.largest
  upper := min ((choices rs).map branches).prod Count.largest

theorem one_le_branches {rs : List TagDraw} : ∀ n ∈ (choices rs).map branches, 1 ≤ n := by
  intro n hn
  obtain ⟨r, hr, rfl⟩ := List.mem_map.mp hn
  have hterms : 0 < r.terms := by simpa using (List.mem_filter.mp hr).2
  exact Nat.le_add_right_of_le hterms

theorem choices_cons_of_eq_zero {r : TagDraw} (h : r.terms = 0) (rs : List TagDraw) :
    choices (r :: rs) = choices rs := List.filter_cons_of_neg (by simp [h])

theorem choices_cons_of_pos {r : TagDraw} (h : 0 < r.terms) (rs : List TagDraw) :
    choices (r :: rs) = r :: choices rs := List.filter_cons_of_pos (by simpa using h)

theorem fits_begin {d : Draws σ} (h : d.estimate.Fits) (r : TagDraw) :
    (begin d r).estimate.Fits := by
  unfold begin
  dsimp only
  split
  · exact h.addOmission
  · exact h.startTag

theorem fits_take {d : Draws σ} (h : d.estimate.Fits) (r : TagDraw) : (take d r).estimate.Fits := by
  unfold take choice
  split
  · exact Estimate.fits_addChoice _ _
  · exact fits_begin h r

theorem bounds_take_of_eq_zero {r : TagDraw} (h : r.terms = 0) (d : Draws σ) :
    (take d r).estimate.bounds = d.estimate.bounds := by
  unfold take choice begin
  rw [dif_neg (by omega)]
  dsimp only
  split <;> rfl

theorem bounds_take_of_pos {r : TagDraw} (h : 0 < r.terms) {d : Draws σ}
    (hpos : 1 ≤ d.estimate.upper) :
    (take d r).estimate.bounds
      = ⟨Count.add d.estimate.lower 1, Count.mul d.estimate.upper r.branches⟩ := by
  have hbegin : (begin d r).estimate
      = ⟨d.estimate.lower, d.estimate.upper, if r.optional then 1 else 0⟩ := by
    unfold begin
    dsimp only
    split <;> rfl
  calc (take d r).estimate.bounds
      = ((begin d r).estimate.addChoice r.terms).bounds := by
        rw [take, choice, dif_pos h]
    _ = ⟨Count.add d.estimate.lower 1, Count.mul d.estimate.upper
          (Count.add (if r.optional then 1 else 0) r.terms)⟩ := by
        rw [hbegin]
        rfl
    _ = ⟨Count.add d.estimate.lower 1, Count.mul d.estimate.upper r.branches⟩ := by
        rw [Count.mul_add hpos, branches, Nat.add_comm]

/-- **Draws add up to their totals**, from any bounds on. -/
theorem bounds_foldl_take (rs : List TagDraw) {d : Draws σ} (h : d.estimate.Fits)
    (hpos : 1 ≤ d.estimate.upper) :
    (rs.foldl take d).estimate.bounds
      = ⟨Count.add d.estimate.lower (choices rs).length,
          Count.mul d.estimate.upper ((choices rs).map branches).prod⟩ := by
  -- the induction is on the draws, from any estimate on that fits
  induction rs generalizing d with
  | nil =>
      show d.estimate.bounds = ⟨Count.add d.estimate.lower 0, Count.mul d.estimate.upper 1⟩
      rw [Count.mul_one h.upper_le, Count.add_eq (b := 0) h.lower_le]
      rfl
  | cons r rs ih =>
      rw [List.foldl_cons]
      rcases Nat.eq_zero_or_pos r.terms with hr | hr
      · obtain ⟨hlower, hupper⟩ := Bounds.mk.inj (bounds_take_of_eq_zero hr d)
        rw [ih (fits_take h r) (hupper ▸ hpos), hlower, hupper, choices_cons_of_eq_zero hr]
      · obtain ⟨hlower, hupper⟩ := Bounds.mk.inj (bounds_take_of_pos hr hpos)
        have hbranches : 1 ≤ r.branches := Nat.le_add_right_of_le hr
        rw [ih (fits_take h r) (hupper ▸ Count.one_le_mul hpos hbranches), hlower, hupper,
          choices_cons_of_pos hr, List.length_cons, List.map_cons, List.prod_cons, Count.add_add,
          Count.mul_mul (List.one_le_prod one_le_branches), Nat.add_comm 1]

/-- The bounds behind the draws of an expansion. -/
theorem bounds_foldl_take_first (rs : List TagDraw) (source : σ) :
    (rs.foldl take { source }).estimate.bounds = totals rs := by
  have h := bounds_foldl_take rs (d := { source }) Estimate.fits_first (Nat.le_refl 1)
  rw [h]
  show (⟨Count.add 1 _, Count.mul 1 _⟩ : Bounds) = totals rs
  rw [Count.mul, Nat.one_mul]
  rfl

end TagDraw

/-! ## The draw of a tag -/

namespace Expander

variable {σ : Type} [WordSource σ] {x : Expander}

/-- The terms that a key draws one of. -/
def terms (x : Expander) (key : Text) : List Text :=
  if '/' ∈ key then key.splitOn '/'
  else
    match x.overrides.lookup key with
    | some _ => []
    | none => (x.grammar.get? key).getD []

/-- What is drawn at a tag. An optional tag that the coin leaves out draws no term, unless options
are counted. -/
def drawFor (x : Expander) (tag : Tag) (s : σ) : TagDraw where
  optional := tag.kind = .optional
  terms :=
    if tag.kind = .optional ∧ (WordSource.coin s).1 = true ∧ x.counting = false then 0
    else (x.terms tag.key).length

theorem choose_draws (ts : List Text) (d : Draws σ) :
    (choose ts d).2 = TagDraw.choice ts.length d := by
  cases ts with
  | nil => rfl
  | cons t ts => rfl

theorem meaning_draws (x : Expander) (key : Text) (d : Draws σ) :
    (x.meaning key d).2 = TagDraw.choice (x.terms key).length d := by
  unfold meaning terms
  by_cases hs : '/' ∈ key
  · rw [if_pos (by simpa using hs), if_pos hs]
    exact choose_draws _ d
  · rw [if_neg (by simpa using hs), if_neg hs]
    cases x.overrides.lookup key with
    | some text => rfl
    | none =>
        cases x.grammar.get? key with
        | some alternatives => exact choose_draws alternatives d
        | none =>
            dsimp only
            split <;> rfl

/-- **What a tag draws**, whether it stands for a text or not. -/
theorem textFor_draws (x : Expander) (tag : Tag) (d : Draws σ) :
    (x.textFor tag (Draws.startTag d)).2 = TagDraw.take d (x.drawFor tag d.source) := by
  by_cases hk : tag.kind = .optional
  · have hbegin : TagDraw.begin d (x.drawFor tag d.source)
        = ⟨(WordSource.coin d.source).2, d.estimate.startTag.addOmission⟩ := by
      simp [TagDraw.begin, drawFor, hk, Draws.startTag]
    unfold TagDraw.take
    rw [hbegin, textFor, hk]
    dsimp only [optionalMeaning, Draws.startTag]
    by_cases homitted : (WordSource.coin d.source).1 = true ∧ x.counting = false
    · rw [if_pos (by simp [homitted]), drawFor, if_pos ⟨hk, homitted⟩]
      rfl
    · rw [if_neg (by simpa using homitted), drawFor, if_neg fun h => homitted h.2]
      exact meaning_draws x tag.key _
  · have hbegin : TagDraw.begin d (x.drawFor tag d.source) = Draws.startTag d := by
      simp [TagDraw.begin, drawFor, hk]
    have hmeaning : x.textFor tag (Draws.startTag d) = x.meaning tag.key (Draws.startTag d) := by
      unfold textFor
      cases hk' : tag.kind with
      | optional => exact absurd hk' hk
      | hidden | alternation | named => rfl
    unfold TagDraw.take
    rw [hbegin, hmeaning, drawFor, if_neg fun h => hk h.1]
    exact meaning_draws x tag.key _

theorem draws_of_textFor {tag : Tag} {outcome : Except ExpansionError Text} {d d' : Draws σ}
    (h : x.textFor tag (Draws.startTag d) = (outcome, d')) :
    d' = TagDraw.take d (x.drawFor tag d.source) :=
  (congrArg Prod.snd h).symm.trans (x.textFor_draws tag d)

end Expander

end PhraseGrammar
