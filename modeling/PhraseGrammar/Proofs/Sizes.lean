import PhraseGrammar.Expansion.Substitution
import Mathlib.Algebra.Order.Ring.Nat

set_option autoImplicit false

/-! # The size of a replacement

The size that is compared with the limit before a replacement is made is computed from the number
of occurrences. The pieces of the query make it exact: query and outcome consist of the same
pieces, with the target between them in the one and the new text in the other
(`Text.byteSize_eq_pieces`, `Text.byteSize_replace`). So a replacement whose outcome keeps to the
limit is made (`Substitution.apply_of_le`).
-/

namespace PhraseGrammar

namespace Text

theorem byteSize_le_of_sublist {s t : Text} (h : s.Sublist t) : s.byteSize ≤ t.byteSize := by
  induction h with
  | slnil => exact Nat.le_refl _
  | cons c _ ih =>
      rw [byteSize_cons]
      omega
  | cons_cons c _ ih =>
      rw [byteSize_cons, byteSize_cons]
      omega

theorem byteSize_intercalate (sep : Text) {ps : List Text} (h : ps ≠ []) :
    byteSize (List.intercalate sep ps)
      = (ps.map byteSize).sum + (ps.length - 1) * sep.byteSize := by
  induction ps with
  | nil => exact absurd rfl h
  | cons p ps ih =>
      cases ps with
      | nil => simp [List.intercalate]
      | cons q ps =>
          have ih := ih (by simp)
          rw [List.length_cons, Nat.add_sub_cancel] at ih
          have hsum : ((p :: q :: ps).map byteSize).sum
              = p.byteSize + ((q :: ps).map byteSize).sum := rfl
          rw [List.intercalate_cons_cons, byteSize_append, byteSize_append, ih, hsum,
            List.length_cons, List.length_cons, Nat.add_sub_cancel, Nat.add_mul]
          omega

theorem length_pieces (target t : Text) :
    (pieces target t).length - 1 = (cut target t).occurrences := by
  rw [pieces, Cut.length_pieces, Nat.add_sub_cancel]

/-- A text has the size of its pieces and of the occurrences between them. -/
theorem byteSize_eq_pieces (target t : Text) :
    t.byteSize
      = ((pieces target t).map byteSize).sum + (cut target t).occurrences * target.byteSize := by
  have h := byteSize_intercalate target (pieces_ne_nil target t)
  rwa [intercalate_pieces, length_pieces] at h

/-- A replacement keeps the pieces, and puts the new text between them. -/
theorem byteSize_replace (target new t : Text) :
    (replace target new t).byteSize
      = ((pieces target t).map byteSize).sum + (cut target t).occurrences * new.byteSize := by
  rw [replace_eq_intercalate, byteSize_intercalate new (pieces_ne_nil target t), length_pieces]

end Text

namespace Substitution

open Text

/-- **The projected size is the size of the outcome**, as far as there are counts. -/
theorem projectedSize_eq (query target new : Text) :
    projectedSize query target new (cut target query).occurrences
      = min (replace target new query).byteSize Count.largest := by
  have hquery := byteSize_eq_pieces target query
  rw [byteSize_replace, projectedSize, hquery, Nat.add_sub_cancel, Count.add, Count.mul]
  omega

/-- A replacement whose outcome keeps to the limit is made. -/
theorem apply_of_le {s : Substitution} {limit : Nat}
    (h : (replace s.target s.new s.query.halveSpaces).byteSize ≤ limit) :
    s.apply limit = .ok (replace s.target s.new s.query.halveSpaces) := by
  simp only [apply]
  rw [if_neg]
  · rfl
  · rw [projectedSize_eq]
    omega

end Substitution

end PhraseGrammar
