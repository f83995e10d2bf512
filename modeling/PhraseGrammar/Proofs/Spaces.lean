import PhraseGrammar.Proofs.Replacement
import PhraseGrammar.Text.Blank
import Mathlib.Data.List.Basic

set_option autoImplicit false

/-! # Runs of spaces

A cycle halves the runs of spaces of its query before it replaces a tag (`halve`), so that an
expansion has fewer spaces than its parts. What is left of a text when all its runs of spaces
are made single spaces (`squeeze`) is not touched by that. Two texts with the same squeezed form
keep having one when they are joined with others (`squeeze_append_congr`), when their letters are
replaced one by one (`squeeze_flatMap`), and when they are trimmed (`squeeze_trim`).

Both functions work on lists of any kind with one element as the space, since they are needed of
texts and of lists of letters alike.
-/

namespace PhraseGrammar

variable {α β : Type} [DecidableEq α]

/-! ## Halving -/

/-- Every two spaces become one, in a single pass. -/
def halve (space : α) : List α → List α
  | a :: b :: t =>
    if a = space ∧ b = space then space :: halve space t else a :: halve space (b :: t)
  | [a] => [a]
  | [] => []

theorem halve_pair (space : α) (t : List α) :
    halve space (space :: space :: t) = space :: halve space t := by
  simp [halve]

theorem halve_cons {space a : α} {t : List α} (h : ¬ (a = space ∧ t.head? = some space)) :
    halve space (a :: t) = a :: halve space t := by
  cases t with
  | nil => rfl
  | cons b t =>
      rw [halve, if_neg]
      simpa using h

theorem length_halve_le (space : α) (t : List α) : (halve space t).length ≤ t.length := by
  induction t using halve.induct space with
  | case1 a b t h ih =>
      rw [h.1, h.2, halve_pair, List.length_cons, List.length_cons, List.length_cons]
      omega
  | case2 a b t h ih =>
      rw [halve_cons (by simpa using h), List.length_cons, List.length_cons]
      omega
  | case3 a => exact Nat.le_refl _
  | case4 => exact Nat.le_refl _

/-- Halving shortens a list with two adjacent spaces. -/
theorem length_halve_lt {space : α} {t : List α} (h : [space, space] <:+: t) :
    (halve space t).length < t.length := by
  induction t using halve.induct space with
  | case1 a b t hab ih =>
      have hle := length_halve_le space t
      rw [hab.1, hab.2, halve_pair, List.length_cons, List.length_cons, List.length_cons]
      omega
  | case2 a b t hab ih =>
      -- the two spaces do not stand at the start, where there are not two of them
      have hrest : [space, space] <:+: b :: t := by
        rw [List.infix_cons_iff] at h
        refine h.resolve_left fun hp => hab ?_
        rw [List.cons_prefix_cons, List.cons_prefix_cons] at hp
        exact ⟨hp.1.symm, hp.2.1.symm⟩
      have hlt := ih hrest
      rw [halve_cons (by simpa using hab), List.length_cons, List.length_cons]
      omega
  | case3 a =>
      have hle := h.length_le
      simp at hle
  | case4 =>
      have hle := h.length_le
      simp at hle

/-- Every element of the halved list is one of the list. -/
theorem halve_subset (space : α) (t : List α) : halve space t ⊆ t := by
  induction t using halve.induct space with
  | case1 a b t h ih =>
      rw [h.1, h.2, halve_pair]
      exact List.cons_subset_cons _ (List.Subset.trans ih (List.subset_cons_self _ _))
  | case2 a b t h ih =>
      rw [halve_cons (by simpa using h)]
      exact List.cons_subset_cons _ ih
  | case3 a => exact List.Subset.refl _
  | case4 => exact List.Subset.refl _

/-- Without two adjacent spaces there is nothing to halve. -/
theorem halve_eq_self {space : α} {t : List α} (h : ¬ [space, space] <:+: t) :
    halve space t = t := by
  induction t using halve.induct space with
  | case1 a b t hab ih =>
      obtain ⟨rfl, rfl⟩ := hab
      exact absurd (List.prefix_append [b, b] t).isInfix h
  | case2 a b t hab ih =>
      have hrest : ¬ [space, space] <:+: b :: t := fun hi =>
        h (hi.trans (List.suffix_cons a (b :: t)).isInfix)
      rw [halve_cons (by simpa using hab), ih hrest]
  | case3 a => rfl
  | case4 => rfl

theorem halve_sublist (space : α) (t : List α) : (halve space t).Sublist t := by
  induction t using halve.induct space with
  | case1 a b t h ih =>
      rw [h.1, h.2, halve_pair]
      exact (ih.cons space).cons_cons space
  | case2 a b t h ih =>
      rw [halve_cons (by simpa using h)]
      exact ih.cons_cons a
  | case3 a => exact List.Sublist.refl _
  | case4 => exact List.Sublist.refl _

/-- Halving drops nothing but spaces. -/
theorem filterMap_halve {space : α} {f : α → Option β} (hf : f space = none) (t : List α) :
    (halve space t).filterMap f = t.filterMap f := by
  induction t using halve.induct space with
  | case1 a b t h ih =>
      rw [h.1, h.2, halve_pair]
      simp [hf, ih]
  | case2 a b t h ih =>
      rw [halve_cons (by simpa using h), List.filterMap_cons, ih, ← List.filterMap_cons]
  | case3 a => rfl
  | case4 => rfl

namespace Text

/-- Halving the spaces of a text is halving. -/
theorem halveSpaces_eq_halve (t : Text) : halveSpaces t = halve ' ' t := by
  unfold halveSpaces
  induction t using halve.induct ' ' with
  | case1 a b t h ih =>
      rw [h.1, h.2, halve_pair, replace_of_isPrefixOf _ (by simp) (by simp)]
      simp [ih]
  | case2 a b t h ih =>
      have hp : [' ', ' '].isPrefixOf (a :: b :: t) = false := by
        rw [Bool.eq_false_iff, Ne, List.isPrefixOf_iff_prefix, List.cons_prefix_cons,
          List.cons_prefix_cons]
        exact fun hp => h ⟨hp.1.symm, hp.2.1.symm⟩
      rw [halve_cons (by simpa using h), replace_cons _ hp, ih]
  | case3 a =>
      have hp : [' ', ' '].isPrefixOf [a] = false := by simp [List.isPrefixOf]
      rw [replace_cons _ hp, replace_nil]
      rfl
  | case4 =>
      rw [replace_nil]
      rfl

theorem halveSpaces_sublist (t : Text) : t.halveSpaces.Sublist t := by
  rw [halveSpaces_eq_halve]
  exact halve_sublist ' ' t

theorem BracketFree.halveSpaces {t : Text} (h : BracketFree t) : BracketFree t.halveSpaces :=
  h.of_subset (halveSpaces_sublist t).subset

end Text

/-! ## Squeezing -/

/-- Every run of spaces becomes one space. -/
def squeeze (space : α) : List α → List α
  | [] => []
  | a :: t => if a = space ∧ t.head? = some space then squeeze space t else a :: squeeze space t

theorem squeeze_cons_of_pair (space : α) (t : List α) :
    squeeze space (space :: space :: t) = squeeze space (space :: t) := by
  rw [squeeze, if_pos ⟨rfl, rfl⟩]

theorem squeeze_cons {space a : α} {t : List α} (h : ¬ (a = space ∧ t.head? = some space)) :
    squeeze space (a :: t) = a :: squeeze space t := by
  rw [squeeze, if_neg h]

@[simp] theorem head?_squeeze (space : α) (t : List α) :
    (squeeze space t).head? = t.head? := by
  induction t with
  | nil => rfl
  | cons a t ih =>
      by_cases h : a = space ∧ t.head? = some space
      · rw [squeeze, if_pos h, ih, h.2, List.head?_cons, h.1]
      · rw [squeeze_cons h, List.head?_cons, List.head?_cons]

@[simp] theorem mem_squeeze {space a : α} {t : List α} : a ∈ squeeze space t ↔ a ∈ t := by
  induction t with
  | nil => exact Iff.rfl
  | cons b t ih =>
      by_cases h : b = space ∧ t.head? = some space
      · obtain ⟨rfl, hhead⟩ := h
        have hmem := List.mem_of_head? hhead
        rw [squeeze, if_pos ⟨rfl, hhead⟩, ih, List.mem_cons]
        exact ⟨Or.inr, fun ha => ha.elim (fun hab => hab ▸ hmem) id⟩
      · rw [squeeze_cons h, List.mem_cons, List.mem_cons, ih]

/-- A squeezed list begins with the same elements, as far as they are no spaces. -/
theorem prefix_squeeze {space : α} {p t : List α} (hp : space ∉ p) :
    p <+: squeeze space t ↔ p <+: t := by
  induction t generalizing p with
  | nil => exact Iff.rfl
  | cons a t ih =>
      cases p with
      | nil => simp
      | cons b p =>
          rw [List.mem_cons, not_or] at hp
          by_cases h : a = space ∧ t.head? = some space
          · have hno : ∀ s : List α, s.head? = some space → ¬ b :: p <+: s := by
              rintro s hs ⟨r, rfl⟩
              exact hp.1 (Option.some.inj hs).symm
            have hsqueeze : (squeeze space (a :: t)).head? = some space := by
              rw [head?_squeeze, h.1, List.head?_cons]
            exact iff_of_false (hno _ hsqueeze) (hno _ (by rw [h.1, List.head?_cons]))
          · rw [squeeze_cons h, List.cons_prefix_cons, List.cons_prefix_cons, ih hp.2]

/-- What holds no space occurs in the squeezed list if it occurs in the list. -/
theorem infix_squeeze {space : α} {p t : List α} (hp : space ∉ p) :
    p <:+: squeeze space t ↔ p <:+: t := by
  induction t with
  | nil => exact Iff.rfl
  | cons a t ih =>
      have hprefix := prefix_squeeze (t := a :: t) hp
      by_cases h : a = space ∧ t.head? = some space
      · rw [squeeze, if_pos h, prefix_squeeze hp] at hprefix
        rw [squeeze, if_pos h, ih, List.infix_cons_iff, ← hprefix]
        exact (or_iff_right_of_imp List.IsPrefix.isInfix).symm
      · rw [squeeze_cons h] at hprefix ⊢
        rw [List.infix_cons_iff, List.infix_cons_iff, ih, hprefix]

theorem squeeze_append_congr_right {space : α} (s : List α) {t t' : List α}
    (h : squeeze space t = squeeze space t') :
    squeeze space (s ++ t) = squeeze space (s ++ t') := by
  -- the squeezed forms begin alike, so the lists do
  have hhead : t.head? = t'.head? := by
    rw [← head?_squeeze space t, h, head?_squeeze]
  induction s with
  | nil => exact h
  | cons a s ih => simp only [List.cons_append, squeeze, List.head?_append, hhead, ih]

/-- Squeezing the left half first makes no difference. -/
theorem squeeze_squeeze_append (space : α) (s t : List α) :
    squeeze space (squeeze space s ++ t) = squeeze space (s ++ t) := by
  induction s with
  | nil => rfl
  | cons a s ih =>
      by_cases h : a = space ∧ s.head? = some space
      · have h' : a = space ∧ (s ++ t).head? = some space := ⟨h.1, by simp [h.2]⟩
        rw [squeeze, if_pos h, ih, List.cons_append, squeeze, if_pos h']
      · rw [squeeze_cons h, List.cons_append, List.cons_append, squeeze, squeeze, ih]
        simp only [List.head?_append, head?_squeeze]

/-- **Squeezed forms are kept by joining.** -/
theorem squeeze_append_congr {space : α} {s s' t t' : List α}
    (hs : squeeze space s = squeeze space s') (ht : squeeze space t = squeeze space t') :
    squeeze space (s ++ t) = squeeze space (s' ++ t') := by
  calc squeeze space (s ++ t)
      = squeeze space (squeeze space s ++ t) := (squeeze_squeeze_append space s t).symm
    _ = squeeze space (squeeze space s' ++ t) := by rw [hs]
    _ = squeeze space (s' ++ t) := squeeze_squeeze_append space s' t
    _ = squeeze space (s' ++ t') := squeeze_append_congr_right s' ht

/-- Halving does not touch the squeezed form. -/
theorem squeeze_halve (space : α) (t : List α) :
    squeeze space (halve space t) = squeeze space t := by
  induction t using halve.induct space with
  | case1 a b t h ih =>
      rw [h.1, h.2, halve_pair, squeeze_cons_of_pair]
      exact squeeze_append_congr_right [space] ih
  | case2 a b t h ih =>
      rw [halve_cons (by simpa using h)]
      exact squeeze_append_congr_right [a] ih
  | case3 a => rfl
  | case4 => rfl

theorem Text.squeeze_halveSpaces (t : Text) : squeeze ' ' t.halveSpaces = squeeze ' ' t := by
  rw [Text.halveSpaces_eq_halve, squeeze_halve]

/-- **Squeezed forms are kept by a substitution** that leaves the spaces in place. -/
theorem squeeze_flatMap [DecidableEq β] {space : α} {space' : β} {f : α → List β}
    (hf : f space = [space']) (t : List α) :
    squeeze space' ((squeeze space t).flatMap f) = squeeze space' (t.flatMap f) := by
  induction t with
  | nil => rfl
  | cons a t ih =>
      by_cases h : a = space ∧ t.head? = some space
      · obtain ⟨t, rfl⟩ : ∃ t', t = space :: t' := by
          cases t with
          | nil => simp at h
          | cons b t => exact ⟨t, by simpa using h.2⟩
        rw [squeeze, if_pos h, ih, h.1]
        simp only [List.flatMap_cons, hf, List.singleton_append]
        rw [squeeze_cons_of_pair]
      · rw [squeeze_cons h, List.flatMap_cons, List.flatMap_cons]
        exact squeeze_append_congr_right _ ih

theorem squeeze_flatMap_congr [DecidableEq β] {space : α} {space' : β} {f : α → List β}
    (hf : f space = [space']) {s t : List α} (h : squeeze space s = squeeze space t) :
    squeeze space' (s.flatMap f) = squeeze space' (t.flatMap f) := by
  rw [← squeeze_flatMap hf s, h, squeeze_flatMap hf]

/-! ## Squeezing and trimming -/

theorem squeeze_append_cons {space a b : α} (h : ¬ (b = space ∧ a = space)) (s t : List α) :
    squeeze space (s ++ b :: a :: t) = squeeze space (s ++ [b]) ++ squeeze space (a :: t) := by
  induction s with
  | nil =>
      rw [List.nil_append, squeeze_cons (by simpa using h)]
      simp [squeeze]
  | cons c s ih =>
      have hhead : (s ++ b :: a :: t).head? = (s ++ [b]).head? := by cases s <;> rfl
      simp only [List.cons_append, squeeze.eq_2 space c, hhead, ih]
      split <;> rfl

theorem squeeze_reverse (space : α) (t : List α) :
    squeeze space t.reverse = (squeeze space t).reverse := by
  induction t with
  | nil => rfl
  | cons a t ih =>
      cases t with
      | nil => simp [squeeze]
      | cons b t =>
          have hrev : (a :: b :: t).reverse = t.reverse ++ [b, a] := by simp
          rw [List.reverse_cons] at ih
          by_cases h : a = space ∧ b = space
          · -- the first two spaces are one run, also from behind
            obtain ⟨rfl, rfl⟩ := h
            rw [squeeze_cons_of_pair, ← ih, hrev]
            exact squeeze_append_congr_right _ (squeeze_cons_of_pair _ [])
          · rw [squeeze_cons (by simpa using h), hrev,
              squeeze_append_cons (fun hba => h hba.symm), ih, List.reverse_cons]
            simp [squeeze]

namespace Text

theorem squeeze_trimStart (t : Text) : squeeze ' ' t.trimStart = trimStart (squeeze ' ' t) := by
  unfold trimStart
  induction t with
  | nil => rfl
  | cons c t ih =>
      by_cases hc : isBlank c = true
      · rw [List.dropWhile_cons_of_pos hc, ih, squeeze]
        split
        · rfl
        · rw [List.dropWhile_cons_of_pos hc]
      · have hne : c ≠ ' ' := by
          rintro rfl
          exact hc (by decide)
        rw [List.dropWhile_cons_of_neg hc, squeeze_cons (by simp [hne]),
          List.dropWhile_cons_of_neg hc]

/-- Trimming a squeezed text squeezes the trimmed text. -/
theorem squeeze_trim (t : Text) : squeeze ' ' t.trim = trim (squeeze ' ' t) := by
  have hend : ∀ s : Text, squeeze ' ' s.trimEnd = trimEnd (squeeze ' ' s) := by
    intro s
    show squeeze ' ' (trimStart s.reverse).reverse = (trimStart (squeeze ' ' s).reverse).reverse
    rw [squeeze_reverse, squeeze_trimStart, squeeze_reverse]
  rw [trim, hend, squeeze_trimStart, trim]

theorem squeeze_trim_congr {s t : Text} (h : squeeze ' ' s = squeeze ' ' t) :
    squeeze ' ' s.trim = squeeze ' ' t.trim := by
  rw [squeeze_trim, h, squeeze_trim]

/-! ## Trimming fewer characters -/

theorem trimStart_sublist {s t : Text} (h : s.Sublist t) : s.trimStart.Sublist t.trimStart := by
  unfold trimStart
  induction h with
  | slnil => exact List.Sublist.refl _
  | @cons s t c h ih =>
      by_cases hc : isBlank c = true
      · rw [List.dropWhile_cons_of_pos hc]
        exact ih
      · rw [List.dropWhile_cons_of_neg hc]
        exact (List.dropWhile_sublist _).trans (h.cons c)
  | @cons_cons s t c h ih =>
      by_cases hc : isBlank c = true
      · rw [List.dropWhile_cons_of_pos hc, List.dropWhile_cons_of_pos hc]
        exact ih
      · rw [List.dropWhile_cons_of_neg hc, List.dropWhile_cons_of_neg hc]
        exact h.cons_cons c

theorem trim_sublist {s t : Text} (h : s.Sublist t) : s.trim.Sublist t.trim := by
  have hend : (trimStart s.trimStart.reverse).Sublist (trimStart t.trimStart.reverse) :=
    trimStart_sublist (trimStart_sublist h).reverse
  exact hend.reverse

/-- Trimming only takes characters away. -/
theorem trim_sublist_self (t : Text) : t.trim.Sublist t := by
  have hstart : ∀ s : Text, s.trimStart.Sublist s := fun s => List.dropWhile_sublist isBlank
  have hend : ∀ s : Text, s.trimEnd.Sublist s := by
    intro s
    have hrev := (hstart s.reverse).reverse
    rwa [List.reverse_reverse] at hrev
  exact (hend _).trans (hstart t)

/-- A text of which trimming leaves nothing is made of blanks. -/
theorem isBlank_of_trim_eq_nil {t : Text} (h : t.trim = []) : ∀ c ∈ t, isBlank c = true := by
  intro c hc
  by_contra hblank
  -- a character that is no blank would be left
  have hself : trim [c] = [c] := by
    simp [trim, trimEnd, trimStart, hblank]
  have hsublist : (trim [c]).Sublist t.trim := trim_sublist (List.singleton_sublist.mpr hc)
  rw [hself, h] at hsublist
  cases hsublist

end Text

end PhraseGrammar
