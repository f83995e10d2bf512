import PhraseGrammar.Text.Basic

set_option autoImplicit false

/-! # Pieces of a text

`Text.pieces target t` is what is left of `t` between the occurrences of `target`, found from
left to right and never overlapping. One cut serves for all that a replacement needs to know: how
many occurrences there are, and the text with every occurrence replaced (`Text.replace`).

A cut keeps the pieces from the last to the first, and the piece behind the last occurrence is
not copied. The list of pieces, in order, is the view that the main statements are about: how the
pieces arise (`pieces_of_isPrefixOf`, `pieces_cons`), that a replacement joins them
(`replace_eq_intercalate`), and that joining them with the target gives the text back
(`intercalate_pieces`).
-/

namespace PhraseGrammar.Text

/-- A text that is cut at the occurrences of a target: the pieces that stand before an
occurrence, the last one first, and what stands behind the last occurrence. -/
structure Cut where
  before : List Text
  rest : Text

namespace Cut

/-- The number of occurrences. -/
def occurrences (c : Cut) : Nat := c.before.length

/-- The pieces, in order. -/
def pieces (c : Cut) : List Text := c.before.reverse ++ [c.rest]

/-- The text with `new` in the place of every occurrence. -/
def join (new : Text) (c : Cut) : Text := c.before.foldl (fun t piece => piece ++ (new ++ t)) c.rest

theorem length_pieces (c : Cut) : c.pieces.length = c.occurrences + 1 := by
  simp [pieces, occurrences]

/-- The pieces with `new` between them. -/
theorem join_eq_intercalate (new : Text) (c : Cut) :
    c.join new = List.intercalate new c.pieces := by
  obtain ⟨before, rest⟩ := c
  simp only [join, pieces]
  induction before generalizing rest with
  | nil => simp [List.intercalate]
  | cons piece before ih =>
    rw [List.foldl_cons, ih]
    have split : ∀ ps : List Text,
        List.intercalate new (ps ++ [piece ++ (new ++ rest)])
          = List.intercalate new (ps ++ [piece, rest]) := by
      intro ps
      induction ps with
      | nil => simp [List.intercalate]
      | cons p ps ih => cases ps <;> simp_all [List.intercalate]
    simpa using split before.reverse

end Cut

/-! ## Cutting -/

/-- The cut, from a place within a text: `skip` characters of an occurrence are still to be
passed over, the current piece is the first `n` characters of `start`, and `before` holds the
pieces that are finished. -/
def cutFrom (target : Text) : (skip : Nat) → (start : Text) → (n : Nat) → List Text → Text → Cut
  | _, start, _, before, [] => ⟨before, start⟩
  | skip + 1, start, n, before, _ :: t => cutFrom target skip start n before t
  | 0, start, n, before, c :: t =>
    if target.isPrefixOf (c :: t) then
      cutFrom target (target.length - 1) ((c :: t).drop target.length) 0 (start.take n :: before) t
    else
      cutFrom target 0 start (n + 1) before t

/-- A text cut at the occurrences of `target`. The empty target does not occur. -/
def cut (target t : Text) : Cut :=
  if target.isEmpty then ⟨[], t⟩ else cutFrom target 0 t 0 [] t

/-- The pieces of a text between the occurrences of `target`. -/
def pieces (target t : Text) : List Text := (cut target t).pieces

/-- A text with every occurrence of `target` replaced. -/
def replace (target new t : Text) : Text := (cut target t).join new

/-- A replacement joins the pieces with the new text. -/
theorem replace_eq_intercalate (target new t : Text) :
    replace target new t = List.intercalate new (pieces target t) :=
  Cut.join_eq_intercalate new _

/-! ## How the pieces arise -/

/-- From any place the cut goes on with the current piece and the finished ones. -/
private theorem pieces_cutFrom {target : Text} (ht : target ≠ []) (t : Text) (skip : Nat)
    (piece : Text) (before : List Text) :
    (cutFrom target skip (piece ++ t.drop skip) piece.length before t).pieces
      = before.reverse
        ++ (cutFrom target 0 (t.drop skip) 0 [] (t.drop skip)).pieces.modifyHead (piece ++ ·) := by
  induction t generalizing skip piece before with
  | nil => simp [cutFrom, Cut.pieces]
  | cons c t ih =>
    cases skip with
    | succ skip =>
      simp only [cutFrom, List.drop_succ_cons]
      exact ih skip piece before
    | zero =>
      simp only [cutFrom, List.drop_zero, Nat.zero_add]
      split
      · obtain ⟨k, hk⟩ : ∃ k, target.length = k + 1 :=
          ⟨target.length - 1, by have := List.length_pos_iff.2 ht; omega⟩
        have h1 := ih k [] (piece :: before)
        have h2 := ih k [] [[]]
        simp only [List.nil_append, List.length_nil] at h1 h2
        simp only [hk, Nat.add_sub_cancel, List.drop_succ_cons, List.take_left, List.take_zero]
        rw [h1, h2]
        simp
      · have h1 := ih 0 (piece ++ [c]) before
        have h2 := ih 0 [c] []
        simp only [List.drop_zero, List.append_assoc, List.singleton_append, List.length_append,
          List.length_cons, List.length_nil, Nat.zero_add] at h1 h2
        rw [h1, h2]
        cases (cutFrom target 0 t 0 [] t).pieces <;> simp

@[simp] theorem pieces_nil (target : Text) : pieces target [] = [[]] := by
  by_cases h : target.isEmpty <;> simp [pieces, cut, h, cutFrom, Cut.pieces]

theorem pieces_ne_nil (target t : Text) : pieces target t ≠ [] := by
  simp [pieces, Cut.pieces]

/-- At an occurrence a piece ends, and the cut goes on behind it. -/
theorem pieces_of_isPrefixOf {target t : Text} (ht : target ≠ [])
    (h : target.isPrefixOf t = true) :
    pieces target t = [] :: pieces target (t.drop target.length) := by
  have he : target.isEmpty = false := by simpa using ht
  cases t with
  | nil => cases target <;> simp_all
  | cons c t =>
    obtain ⟨k, hk⟩ : ∃ k, target.length = k + 1 :=
      ⟨target.length - 1, by have := List.length_pos_iff.2 ht; omega⟩
    have h1 := pieces_cutFrom ht t k [] [[]]
    simp only [List.nil_append, List.length_nil] at h1
    simp only [pieces, cut, he, Bool.false_eq_true, if_false]
    rw [cutFrom, if_pos h]
    simp only [hk, Nat.add_sub_cancel, List.drop_succ_cons, List.take_zero]
    rw [h1]
    cases (cutFrom target 0 (t.drop k) 0 [] (t.drop k)).pieces <;> simp

/-- Elsewhere a character belongs to the current piece. -/
theorem pieces_cons {target t : Text} {c : Char} (h : target.isPrefixOf (c :: t) = false) :
    pieces target (c :: t) = (pieces target t).modifyHead (c :: ·) := by
  have ht : target ≠ [] := by
    rintro rfl
    simp at h
  have he : target.isEmpty = false := by simpa using ht
  have h1 := pieces_cutFrom ht t 0 [c] []
  simp only [List.drop_zero, List.singleton_append, List.length_cons, List.length_nil,
    Nat.zero_add] at h1
  simp only [pieces, cut, he, Bool.false_eq_true, if_false, cutFrom, h, Nat.zero_add]
  simpa using h1

/-! ## Joining the pieces -/

private theorem intercalate_cons_of_ne_nil (sep a : Text) {ps : List Text} (h : ps ≠ []) :
    List.intercalate sep (a :: ps) = a ++ sep ++ List.intercalate sep ps := by
  cases ps with
  | nil => exact absurd rfl h
  | cons p ps => simp [List.intercalate]

private theorem intercalate_modifyHead (sep : Text) (c : Char) {ps : List Text} (h : ps ≠ []) :
    List.intercalate sep (ps.modifyHead (c :: ·)) = c :: List.intercalate sep ps := by
  cases ps with
  | nil => exact absurd rfl h
  | cons p ps => cases ps <;> simp [List.intercalate]

/-- Joining the pieces with the target gives the text back. -/
theorem intercalate_pieces (target t : Text) :
    List.intercalate target (pieces target t) = t := by
  by_cases ht : target = []
  · simp [pieces, cut, Cut.pieces, ht, List.intercalate]
  · induction h : t.length using Nat.strongRecOn generalizing t with
    | _ n ih =>
      by_cases hp : target.isPrefixOf t = true
      · obtain ⟨r, rfl⟩ := List.isPrefixOf_iff_prefix.1 hp
        have hpos := List.length_pos_iff.2 ht
        rw [pieces_of_isPrefixOf ht hp, intercalate_cons_of_ne_nil _ _ (pieces_ne_nil _ _)]
        simp only [List.drop_left, List.nil_append]
        rw [ih r.length (by simp at h; omega) r rfl]
      · cases t with
        | nil => simp [List.intercalate]
        | cons c t =>
          rw [pieces_cons (Bool.eq_false_iff.2 hp), intercalate_modifyHead _ _ (pieces_ne_nil _ _),
            ih t.length (by simp at h; omega) t rfl]

/-! ## How a replacement arises -/

@[simp] theorem replace_nil (target new : Text) : replace target new [] = [] := by
  simp [replace_eq_intercalate, List.intercalate]

/-- An occurrence is replaced, and the replacement goes on behind it. -/
theorem replace_of_isPrefixOf {target t : Text} (new : Text) (ht : target ≠ [])
    (h : target.isPrefixOf t = true) :
    replace target new t = new ++ replace target new (t.drop target.length) := by
  simp only [replace_eq_intercalate]
  rw [pieces_of_isPrefixOf ht h, intercalate_cons_of_ne_nil _ _ (pieces_ne_nil _ _)]
  simp

/-- Elsewhere a character stays. -/
theorem replace_cons {target t : Text} {c : Char} (new : Text)
    (h : target.isPrefixOf (c :: t) = false) :
    replace target new (c :: t) = c :: replace target new t := by
  simp only [replace_eq_intercalate]
  rw [pieces_cons h, intercalate_modifyHead _ _ (pieces_ne_nil _ _)]

end PhraseGrammar.Text
