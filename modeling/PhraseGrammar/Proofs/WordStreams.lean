import PhraseGrammar.Proofs.TagValues
import Mathlib.Data.Stream.Init

set_option autoImplicit false

/-! # Streams of words

An infinite stream of words is a random source, and nothing of it is hidden: whatever is to be
drawn, a stream can be written down that has it drawn. For an index among fewer than `2 ^ 32` choices
one word is enough, or two (`WordSource.exists_words_index`). They can stand before any other stream,
and are all that is taken from it, so that draws are put together by putting their words together.
-/

namespace PhraseGrammar

/-- A stream hands out its words in order. -/
instance : WordSource (Stream' UInt32) where
  next words := (words.head, words.tail)

namespace WordSource

theorem nextNumber_cons (number : Fin UInt32.size) (rest : Stream' UInt32) :
    nextNumber ([UInt32.ofFin number] ++ₛ rest) = (number, rest) := rfl

/-! ## Every index is drawn -/

/-- The least number that is scaled to an index. -/
def numberFor (n i : Nat) : Nat := (i * UInt32.size + (n - 1)) / n

/-- It exceeds the start of what is scaled to the index by less than one step. -/
theorem numberFor_mul {n : Nat} (hn : 0 < n) (i : Nat) :
    ∃ r < n, numberFor n i * n = i * UInt32.size + r := by
  have hdiv := Nat.div_add_mod' (i * UInt32.size + (n - 1)) n
  have hmod := Nat.mod_lt (i * UInt32.size + (n - 1)) hn
  refine ⟨n - 1 - (i * UInt32.size + (n - 1)) % n, by omega, ?_⟩
  unfold numberFor
  omega

theorem numberFor_lt {n i : Nat} (hi : i < n) (h : n < UInt32.size) :
    numberFor n i < UInt32.size := by
  obtain ⟨r, hr, hmul⟩ := numberFor_mul (by omega : 0 < n) i
  refine Nat.lt_of_mul_lt_mul_right (a := n) ?_
  calc numberFor n i * n
      = i * UInt32.size + r := hmul
    _ < i * UInt32.size + UInt32.size := Nat.add_lt_add_left (Nat.lt_trans hr h) _
    _ = (i + 1) * UInt32.size := (Nat.succ_mul _ _).symm
    _ ≤ n * UInt32.size := Nat.mul_le_mul_right _ hi
    _ = UInt32.size * n := Nat.mul_comm _ _

/-- **Every index can be drawn**, by one word, and by a second one where that is asked for. -/
theorem exists_words_index {n : Nat} (hn : 0 < n) (h : n < UInt32.size) (i : Fin n) :
    ∃ words : List UInt32, ∀ rest : Stream' UInt32, index n hn (words ++ₛ rest) = (i, rest) := by
  obtain ⟨r, hr, hmul⟩ := numberFor_mul hn i
  have hsize : r < UInt32.size := Nat.lt_trans hr h
  have hhigh : (i * UInt32.size + r) / UInt32.size = i := by
    rw [Nat.add_comm, Nat.add_mul_div_right _ _ (by decide), Nat.div_eq_of_lt hsize, Nat.zero_add]
  have hlow : (i * UInt32.size + r) % UInt32.size = r := by
    rw [Nat.add_comm, Nat.add_mul_mod_self_right, Nat.mod_eq_of_lt hsize]
  let first : Fin UInt32.size := ⟨numberFor n i, numberFor_lt i.isLt h⟩
  have hfirst : (first : Nat) * n = i * UInt32.size + r := hmul
  have hindex : ∀ words : Stream' UInt32,
      index n hn words = scale n UInt32.size hn nextNumber words := fun _ => if_pos h
  simp only [hindex, scale]
  by_cases hcarry : UInt32.size - n < r
  · -- the second number is zero, so that it carries nothing over
    refine ⟨[UInt32.ofFin first, UInt32.ofFin 0], fun rest => ?_⟩
    have hnext : nextNumber ([UInt32.ofFin first, UInt32.ofFin 0] ++ₛ rest)
        = (first, [UInt32.ofFin 0] ++ₛ rest) := rfl
    rw [hnext]
    dsimp only
    rw [if_pos (by rwa [hfirst, hlow]), nextNumber_cons]
    refine Prod.ext (Fin.ext ?_) rfl
    show (first * n + 0 * n / UInt32.size) / UInt32.size = i
    rw [Nat.zero_mul, Nat.zero_div, Nat.add_zero, hfirst, hhigh]
  · refine ⟨[UInt32.ofFin first], fun rest => ?_⟩
    rw [nextNumber_cons]
    dsimp only
    rw [if_neg (by rwa [hfirst, hlow])]
    refine Prod.ext (Fin.ext ?_) rfl
    show first * n / UInt32.size = i
    rw [hfirst, hhigh]

end WordSource

/-- **Every term can be picked.** -/
theorem Expander.exists_words_pick {terms : List Text} {term : Text} (hterm : term ∈ terms)
    (h : terms.length < UInt32.size) :
    ∃ words : List UInt32, ∀ rest : Stream' UInt32, pick terms (words ++ₛ rest) = (term, rest) := by
  obtain ⟨i, rfl⟩ := List.get_of_mem hterm
  have hpos : 0 < terms.length := Nat.zero_lt_of_lt i.isLt
  obtain ⟨words, hwords⟩ := WordSource.exists_words_index hpos h i
  refine ⟨words, fun rest => ?_⟩
  unfold pick
  rw [dif_pos hpos, hwords rest]

end PhraseGrammar
