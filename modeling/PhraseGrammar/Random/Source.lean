set_option autoImplicit false

/-! # Random sources

A random source hands out 32-bit words, one after the other. All randomness of an expansion
comes from two kinds of draw on such a source: a fair coin, which takes two words
(`WordSource.coin`), and an index among `n` choices, which takes one word and at times a
second one (`WordSource.index`).

Nothing here depends on which source it is, so what is proved of a draw holds of every source.
-/

namespace PhraseGrammar

/-- A random source: each state yields a word and the state after it. -/
class WordSource (σ : Type) where
  /-- The next word, and the source after it. -/
  next : σ → UInt32 × σ

namespace WordSource

variable {σ : Type} [WordSource σ]

/-- A fair coin on two words: `true` when the number they form, the low word first, lies in the
lower half of its range. Only the highest bit counts, so the first word is of no account. -/
def coin (s : σ) : Bool × σ :=
  let (_, s) := next s
  let (high, s) := next s
  (decide (high < 0x80000000), s)

/-! ## An index among `n` choices

A drawn number is scaled to the range `0, …, n - 1` by multiplying with `n` and keeping
the high part. Only where the low part is so large that further digits could carry into the high
part is a second number drawn, and its scaled value added to the low part. -/

/-- The high part of the scaled number, with the carry of the second one. -/
private theorem scaled_lt {n range first second : Nat} (hn : 0 < n) (hf : first < range)
    (hs : second < range) : (first * n + second * n / range) / range < n := by
  have hr : 0 < range := by omega
  have h1 : second * n / range < n := by
    rw [Nat.div_lt_iff_lt_mul hr, Nat.mul_comm n range]
    exact Nat.mul_lt_mul_of_pos_right hs hn
  rw [Nat.div_lt_iff_lt_mul hr]
  have h2 : (first + 1) * n ≤ range * n := Nat.mul_le_mul_right n hf
  rw [Nat.add_mul, Nat.one_mul] at h2
  rw [Nat.mul_comm n range]
  omega

/-- The scaled first number alone. -/
private theorem unscaled_lt {n range first : Nat} (hn : 0 < n) (hf : first < range) :
    first * n / range < n := by
  have hr : 0 < range := by omega
  rw [Nat.div_lt_iff_lt_mul hr, Nat.mul_comm n range]
  exact Nat.mul_lt_mul_of_pos_right hf hn

/-- The next word, as a number. -/
def nextNumber (s : σ) : Fin UInt32.size × σ :=
  let (word, s) := next s
  (word.toFin, s)

private theorem wide_lt (low high : Fin UInt32.size) :
    low + high * UInt32.size < UInt64.size := by
  have hl := low.isLt
  have hh := high.isLt
  simp only [UInt32.size, UInt64.size] at hl hh ⊢
  omega

/-- The next two words as one number, the low word first. -/
def nextWide (s : σ) : Fin UInt64.size × σ :=
  let (low, s) := nextNumber s
  let (high, s) := nextNumber s
  (⟨low + high * UInt32.size, wide_lt low high⟩, s)

/-- An index among `n` choices from numbers below `range`, which `draw` takes from the source. -/
def scale (n range : Nat) (hn : 0 < n) (draw : σ → Fin range × σ) (s : σ) : Fin n × σ :=
  let (first, s) := draw s
  if range - n < first * n % range then
    let (second, s) := draw s
    (⟨(first * n + second * n / range) / range, scaled_lt hn first.isLt second.isLt⟩, s)
  else
    (⟨first * n / range, unscaled_lt hn first.isLt⟩, s)

/-- An index among `n` choices: one word serves unless there are more choices than words. -/
def index (n : Nat) (hn : 0 < n) (s : σ) : Fin n × σ :=
  if n < UInt32.size then scale n UInt32.size hn nextNumber s
  else scale n UInt64.size hn nextWide s

end WordSource

end PhraseGrammar
