import PhraseGrammar.Expansion.Substitution
import PhraseGrammar.Tag
import Mathlib.Data.List.Infix

set_option autoImplicit false

/-! # Replacement and concatenation

A replacement acts on the two halves of a text alone unless an occurrence of the target lies
across the seam between them (`Text.Seam`, `Text.replace_append`). Two seams are free of
occurrences for a reason that can be read off one character: what begins the right half stands
nowhere in the target but at its start, or what ends the left half stands nowhere in the target
but at its end. Brackets are such characters for every tag, and all characters but the space are
such characters for two spaces. So a tag within a text is untouched by every replacement but its
own (`Text.replace_around`).
-/

namespace PhraseGrammar

namespace Text

/-! ## Seams -/

/-- No occurrence of `target` begins at the end of `u` and ends at the start of `w`. -/
def Seam (target u w : Text) : Prop :=
  ∀ p s : Text, p ++ s = target → p ≠ [] → s ≠ [] → p <:+ u → ¬ s <+: w

theorem Seam.of_suffix {target u v w : Text} (h : Seam target u w) (hv : v <:+ u) :
    Seam target v w :=
  fun p s hps hp hs hpv => h p s hps hp hs (hpv.trans hv)

/-- Across a free seam the target is a prefix only if it is one of the left half. -/
theorem Seam.isPrefix {target u w : Text} (h : Seam target u w) (hu : u ≠ [])
    (hp : target <+: u ++ w) : target <+: u := by
  obtain ⟨r, hr⟩ := hp
  -- the target ends within the left half, or the rest of it begins the right half
  rcases List.append_eq_append_iff.mp hr with ⟨a, ha, -⟩ | ⟨s, hs, hw⟩
  · exact ⟨a, ha.symm⟩
  · by_cases hnil : s = []
    · subst hnil
      exact ⟨[], by simpa using hs⟩
    · exact absurd ⟨r, hw.symm⟩ (h u s hs.symm hu hnil (List.suffix_refl _))

/-- What begins the right half stands nowhere in the target but at its start. -/
theorem seam_of_not_mem_tail {target : Text} {c : Char} (h : c ∉ target.tail) (u w : Text) :
    Seam target u (c :: w) := by
  intro p s hps hp hs _ hsw
  obtain ⟨a, p, rfl⟩ := List.exists_cons_of_ne_nil hp
  obtain ⟨b, s, rfl⟩ := List.exists_cons_of_ne_nil hs
  have hbc : b = c := (List.cons_prefix_cons.mp hsw).1
  subst hbc hps
  exact h (by simp)

/-- What ends the left half stands nowhere in the target but at its end. -/
theorem seam_of_not_mem_dropLast {target : Text} {c : Char} (h : c ∉ target.dropLast)
    (u w : Text) : Seam target (u ++ [c]) w := by
  intro p s hps hp hs hpu _
  obtain ⟨p, a, rfl⟩ : ∃ p' a, p = p' ++ [a] := ⟨_, _, (List.dropLast_append_getLast hp).symm⟩
  have hac : a = c := by
    obtain ⟨r, hr⟩ := hpu
    rw [← List.append_assoc] at hr
    exact (List.append_inj_right' hr rfl |> List.cons.inj).1
  subst hac hps
  refine h ?_
  rw [List.dropLast_append_of_ne_nil hs]
  simp

/-- The left half does not hold the first character of the target. -/
theorem seam_of_head_not_mem {c : Char} {t u : Text} (h : c ∉ u) (w : Text) :
    Seam (c :: t) u w := by
  intro p s hps hp _ hpu _
  obtain ⟨a, p, rfl⟩ := List.exists_cons_of_ne_nil hp
  have hac : a = c := (List.cons.inj hps).1
  subst hac
  exact h (hpu.mem (by simp))

/-! ## Replacement -/

theorem replace_nil_target (new t : Text) : replace [] new t = t := by
  simp [replace, cut, Cut.join]

private theorem isPrefixOf_append {target u : Text} (w : Text)
    (h : target.isPrefixOf u = true) : target.isPrefixOf (u ++ w) = true := by
  rw [List.isPrefixOf_iff_prefix] at h ⊢
  exact h.trans (List.prefix_append u w)

/-- **A replacement acts on the two halves alone** if no occurrence lies across the seam. -/
theorem replace_append {target u w : Text} (new : Text) (h : Seam target u w) :
    replace target new (u ++ w) = replace target new u ++ replace target new w := by
  by_cases ht : target = []
  · subst ht
    simp only [replace_nil_target]
  induction hn : u.length using Nat.strongRecOn generalizing u with
  | _ n ih =>
      cases u with
      | nil => simp
      | cons c u =>
          by_cases hp : target.isPrefixOf (c :: u ++ w) = true
          · -- the occurrence lies within the left half, since it does not cross the seam
            obtain ⟨a, ha⟩ := h.isPrefix (by simp) (List.isPrefixOf_iff_prefix.mp hp)
            rw [← ha] at h hn ⊢
            have hpos := List.length_pos_iff.mpr ht
            have hlt : a.length < n := by
              rw [← hn, List.length_append]
              omega
            have hrec := ih a.length hlt (h.of_suffix (List.suffix_append target a)) rfl
            have hfull : replace target new (target ++ (a ++ w))
                = new ++ replace target new (a ++ w) := by
              rw [replace_of_isPrefixOf new ht (by simp), List.drop_left]
            have hpart : replace target new (target ++ a) = new ++ replace target new a := by
              rw [replace_of_isPrefixOf new ht (by simp), List.drop_left]
            rw [List.append_assoc, hfull, hpart, hrec, List.append_assoc]
          · have hp' : target.isPrefixOf (c :: u) = false :=
              Bool.eq_false_iff.mpr fun hc => hp (isPrefixOf_append w hc)
            have hrec := ih u.length (by simp at hn; omega) (h.of_suffix (List.suffix_cons c u)) rfl
            have hq : target.isPrefixOf (c :: (u ++ w)) = false := Bool.eq_false_iff.mpr hp
            rw [List.cons_append, replace_cons new hq, replace_cons new hp', hrec,
              List.cons_append]

/-- Replacing the whole text. -/
theorem replace_target {target : Text} (ht : target ≠ []) (new : Text) :
    replace target new target = new := by
  rw [replace_of_isPrefixOf new ht (by simp)]
  simp

/-- A text without an occurrence stays as it is. -/
theorem replace_eq_self {target t : Text} (new : Text) (h : ¬ target <:+: t) :
    replace target new t = t := by
  induction t with
  | nil => simp
  | cons c t ih =>
      have hp : target.isPrefixOf (c :: t) = false :=
        Bool.eq_false_iff.mpr fun hc => h (List.isPrefixOf_iff_prefix.mp hc).isInfix
      rw [replace_cons new hp, ih fun hi => h (hi.trans (List.suffix_cons c t).isInfix)]

/-- A replacement brings in no character but those of the new text. -/
theorem mem_replace {target new t : Text} {c : Char} (h : c ∈ replace target new t) :
    c ∈ new ∨ c ∈ t := by
  by_cases ht : target = []
  · rw [ht, replace_nil_target] at h
    exact Or.inr h
  -- the induction is on the length, since an occurrence is passed over as a whole
  induction hn : t.length using Nat.strongRecOn generalizing t with
  | _ n ih =>
      cases t with
      | nil => simp at h
      | cons a t =>
          by_cases hp : target.isPrefixOf (a :: t) = true
          · rw [replace_of_isPrefixOf new ht hp] at h
            rcases List.mem_append.mp h with hnew | hrest
            · exact Or.inl hnew
            · have hpos := List.length_pos_iff.mpr ht
              have hlt : ((a :: t).drop target.length).length < n := by
                rw [← hn, List.length_drop, List.length_cons]
                omega
              exact (ih _ hlt hrest rfl).imp_right List.mem_of_mem_drop
          · rw [replace_cons new (Bool.eq_false_iff.mpr hp)] at h
            rcases List.mem_cons.mp h with rfl | hrest
            · exact Or.inr List.mem_cons_self
            · have hlt : t.length < n := by
                rw [← hn, List.length_cons]
                omega
              exact (ih _ hlt hrest rfl).imp_right (List.mem_cons_of_mem a)

theorem not_mem_cut {c a : Char} {u v : Text} (h : c ∉ u ++ a :: v) : c ∉ u ∧ c ∉ v := by
  rw [List.mem_append, List.mem_cons, not_or, not_or] at h
  exact ⟨h.1, h.2.2⟩

/-! ## Texts without brackets -/

/-- A text that holds no bracket. -/
def BracketFree (t : Text) : Prop := '[' ∉ t ∧ ']' ∉ t

instance (t : Text) : Decidable (BracketFree t) := inferInstanceAs (Decidable (_ ∧ _))

@[simp] theorem bracketFree_nil : BracketFree [] := by simp [BracketFree]

@[simp] theorem bracketFree_append {s t : Text} :
    BracketFree (s ++ t) ↔ BracketFree s ∧ BracketFree t := by
  simp only [BracketFree, List.mem_append]
  tauto

theorem bracketFree_cons {c : Char} {t : Text} :
    BracketFree (c :: t) ↔ (c ≠ '[' ∧ c ≠ ']') ∧ BracketFree t := by
  simp only [BracketFree, List.mem_cons]
  tauto

theorem BracketFree.cut {u v : Text} {c : Char} (h : BracketFree (u ++ c :: v)) :
    BracketFree u ∧ BracketFree v :=
  ⟨(bracketFree_append.mp h).1, (bracketFree_cons.mp (bracketFree_append.mp h).2).2⟩

theorem BracketFree.of_subset {s t : Text} (h : BracketFree t) (hst : s ⊆ t) : BracketFree s :=
  ⟨fun hc => h.1 (hst hc), fun hc => h.2 (hst hc)⟩

/-! ## Adjacent spaces -/

/-- A text that holds two adjacent spaces. -/
def Doubled (t : Text) : Prop := [' ', ' '] <:+: t

instance (t : Text) : Decidable (Doubled t) := inferInstanceAs (Decidable (_ <:+: _))

theorem halveSpaces_eq_self {t : Text} (h : ¬ Doubled t) : halveSpaces t = t :=
  replace_eq_self _ h

/-- Two adjacent spaces stand on one side of a character that is no space. -/
theorem doubled_append_cons {s t : Text} {c : Char} (hc : c ≠ ' ') :
    Doubled (s ++ c :: t) ↔ Doubled s ∨ Doubled t := by
  have hstart : ¬ [' ', ' '] <+: c :: t := fun h => hc (List.cons_prefix_cons.mp h).1.symm
  unfold Doubled
  constructor
  · intro h
    rcases List.infix_append_iff.mp h with hs | ht | ⟨p, q, hpq, hp, hq⟩
    · exact Or.inl hs
    · exact Or.inr ((List.infix_cons_iff.mp ht).resolve_left hstart)
    · -- what lies behind the seam is nothing, or begins with the character
      cases q with
      | nil =>
          rw [List.append_nil] at hpq
          exact Or.inl (hpq ▸ hp.isInfix)
      | cons a q =>
          obtain rfl := (List.cons_prefix_cons.mp hq).1
          have hmem : a ∈ [' ', ' '] := by simp [hpq]
          exact absurd (by simpa using hmem) hc
  · rintro (hs | ht)
    · exact hs.trans (List.prefix_append s _).isInfix
    · exact ht.trans ((List.suffix_cons c t).trans (List.suffix_append s _)).isInfix

end Text

/-! ## Tags within a text -/

namespace Tag

open Text

@[simp] theorem bracketed_ne_nil (b : Text) : bracketed b ≠ [] := by simp [bracketed]

/-- A tag within a text, seen from its opening bracket. -/
theorem append_bracketed_append (u b v : Text) :
    u ++ bracketed b ++ v = u ++ '[' :: (b ++ ']' :: v) := by
  simp [bracketed]

/-- A tag at the end of a text, seen from its closing bracket. -/
theorem append_bracketed (u b : Text) : u ++ bracketed b = (u ++ '[' :: b) ++ [']'] := by
  simp [bracketed]

theorem bracketed_injective {b b' : Text} (h : bracketed b = bracketed b') : b = b' := by
  simpa [bracketed] using h

theorem opening_not_mem_tail {b : Text} (hb : BracketFree b) : '[' ∉ (bracketed b).tail := by
  simp [bracketed, hb.1]

theorem closing_not_mem_dropLast {b : Text} (hb : BracketFree b) :
    ']' ∉ (bracketed b).dropLast := by
  have h : bracketed b = ('[' :: b) ++ [']'] := append_bracketed [] b
  rw [h, List.dropLast_concat]
  simp [hb.2]

/-- A tag within the text of a tag is that tag. -/
theorem eq_of_infix_bracketed {b b' : Text} (hb : BracketFree b')
    (h : bracketed b <:+: bracketed b') : b = b' := by
  obtain ⟨u, v, huv⟩ := h
  have hu : u = [] := by
    cases u with
    | nil => rfl
    | cons c u =>
        have hmem : '[' ∈ (bracketed b').tail := by
          rw [← huv]
          simp [bracketed]
        exact absurd hmem (opening_not_mem_tail hb)
  have hv : v = [] := by
    by_contra hv
    refine closing_not_mem_dropLast hb ?_
    rw [← huv, List.dropLast_append_of_ne_nil hv]
    simp [bracketed]
  subst hu hv
  exact bracketed_injective (by simpa using huv)

end Tag

namespace Text

open Tag

/-- What replacing a tag makes of another one. -/
theorem replace_bracketed {b b' : Text} (hb' : BracketFree b') (new : Text) :
    replace (bracketed b) new (bracketed b') = if b' = b then new else bracketed b' := by
  split
  · next h =>
      subst h
      exact replace_target (bracketed_ne_nil b') new
  · next h => exact replace_eq_self new fun hi => h (eq_of_infix_bracketed hb' hi).symm

/-- Where brackets of one kind are missing there is no tag to replace. -/
theorem replace_bracketed_of_not_mem {b t : Text} (new : Text) (h : '[' ∉ t ∨ ']' ∉ t) :
    replace (bracketed b) new t = t := by
  refine replace_eq_self new fun hi => ?_
  rcases h with h | h
  · exact h (hi.subset (by simp [bracketed]))
  · exact h (hi.subset (by simp [bracketed]))

/-- A replacement of a tag acts alone on what stands before a tag, on the tag, and on what
stands behind it. -/
theorem replace_around {b b' : Text} (hb : BracketFree b) (new u v : Text) :
    replace (bracketed b) new (u ++ bracketed b' ++ v)
      = replace (bracketed b) new u ++ replace (bracketed b) new (bracketed b')
        ++ replace (bracketed b) new v := by
  have hleft : Seam (bracketed b) u (bracketed b') :=
    seam_of_not_mem_tail (opening_not_mem_tail hb) u _
  have hright : Seam (bracketed b) (u ++ bracketed b') v := by
    rw [append_bracketed]
    exact seam_of_not_mem_dropLast (closing_not_mem_dropLast hb) _ v
  rw [replace_append new hright, replace_append new hleft]

/-- Halving the spaces acts alone on the two sides of a character that is no space. -/
theorem halveSpaces_append_cons (u : Text) {c : Char} (hc : c ≠ ' ') (v : Text) :
    halveSpaces (u ++ c :: v) = halveSpaces u ++ c :: halveSpaces v := by
  have hseam : Seam [' ', ' '] u (c :: v) := seam_of_not_mem_tail (by simpa using hc) u v
  have hp : [' ', ' '].isPrefixOf (c :: v) = false := by
    simp [List.isPrefixOf, Ne.symm hc]
  unfold halveSpaces
  rw [replace_append _ hseam, replace_cons _ hp]

/-- Halving the spaces acts alone on what stands before a tag, on the tag, and on what stands
behind it. -/
theorem halveSpaces_around (u b v : Text) :
    halveSpaces (u ++ bracketed b ++ v)
      = halveSpaces u ++ halveSpaces (bracketed b) ++ halveSpaces v := by
  have hleft : Seam [' ', ' '] u (bracketed b) := seam_of_not_mem_tail (by decide) u _
  have hright : Seam [' ', ' '] (u ++ bracketed b) v := by
    rw [append_bracketed]
    exact seam_of_not_mem_dropLast (by decide) _ v
  unfold halveSpaces
  rw [replace_append _ hright, replace_append _ hleft]

/-- Halving the spaces of a tag halves those inside of it. -/
theorem halveSpaces_bracketed (b : Text) : (bracketed b).halveSpaces = bracketed b.halveSpaces := by
  have hend : Seam [' ', ' '] b [']'] := seam_of_not_mem_tail (by decide) b []
  have hstart : [' ', ' '].isPrefixOf ('[' :: (b ++ [']'])) = false := by simp [List.isPrefixOf]
  unfold bracketed halveSpaces
  rw [replace_cons _ hstart, replace_append _ hend, replace_eq_self (t := [']']) _ (by decide)]

/-- Brackets add no adjacent spaces. -/
theorem doubled_bracketed {b : Text} : Doubled (bracketed b) ↔ Doubled b := by
  have hend : ∀ t : Text, [' ', ' '] ≠ t ++ [']'] := by
    intro t ht
    simpa using congrArg List.getLast? ht
  unfold Doubled bracketed
  rw [List.infix_cons_iff, List.infix_concat_iff, List.suffix_concat_iff]
  simp [hend]

/-- A tag in a text survives the replacement of another tag, and its own puts the new text in
its place. -/
theorem infix_replace {b b' q : Text} (hb : BracketFree b) (hb' : BracketFree b') (new : Text)
    (h : bracketed b' <:+: q) :
    (if b' = b then new else bracketed b') <:+: replace (bracketed b) new q := by
  obtain ⟨u, v, rfl⟩ := h
  rw [replace_around hb, replace_bracketed hb']
  exact List.infix_append _ _ _

/-- A tag without adjacent spaces survives the halving of spaces. -/
theorem infix_halveSpaces {b q : Text} (hb : ¬ Doubled b) (h : bracketed b <:+: q) :
    bracketed b <:+: q.halveSpaces := by
  obtain ⟨u, v, rfl⟩ := h
  rw [halveSpaces_around, halveSpaces_eq_self (mt doubled_bracketed.mp hb)]
  exact List.infix_append _ _ _

end Text

end PhraseGrammar
