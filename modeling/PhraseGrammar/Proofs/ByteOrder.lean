import PhraseGrammar.Text.Basic
import Mathlib.Data.Char
import Mathlib.Data.List.Lex
import Mathlib.Tactic.SplitIfs

set_option autoImplicit false

/-! # The order of bytes

Names are kept in the order of their code points. Their UTF-8 forms are in the same order, byte by
byte (`Text.utf8_lt`): a longer form of a character begins with a larger byte, and among forms
of one length the larger code point has the larger digits. What stands behind a character is not
reached, since the forms of two characters differ before either of them ends.
-/

namespace PhraseGrammar.Text

/-- The bytes of the UTF-8 form of a text. -/
def utf8 (t : Text) : List UInt8 := (String.ofList t).toUTF8.data.toList

/-- They are the bytes of its characters. -/
theorem utf8_eq (t : Text) : utf8 t = t.flatMap String.utf8EncodeChar := by
  show (String.ofList t).toByteArray.data.toList = _
  rw [String.toByteArray_ofList, List.utf8Encode, List.data_toByteArray]

theorem utf8_cons (c : Char) (t : Text) : utf8 (c :: t) = String.utf8EncodeChar c ++ utf8 t := by
  rw [utf8_eq, utf8_eq, List.flatMap_cons]

/-! ## Numbers in marked digits -/

/-- What is left of a number above its last `k` digits to the base 64. -/
def aboveDigits : (k : Nat) → Nat → Nat
  | 0, n => n
  | k + 1, n => aboveDigits k (n / 64)

/-- The bytes of a number: what is left above its last `k` digits to the base 64, with a mark
that tells `k`, and the digits, each with the mark of a byte that begins no character. -/
def digitBytes (mark : Nat) : (k : Nat) → Nat → List UInt8
  | 0, n => [UInt8.ofNat (n + mark)]
  | k + 1, n => digitBytes mark k (n / 64) ++ [UInt8.ofNat (n % 64 + 128)]

theorem digitBytes_eq_cons (mark k n : Nat) :
    ∃ rest, digitBytes mark k n = UInt8.ofNat (aboveDigits k n + mark) :: rest := by
  induction k generalizing n with
  | zero => exact ⟨[], rfl⟩
  | succ k ih =>
      obtain ⟨rest, hrest⟩ := ih (n / 64)
      exact ⟨rest ++ [UInt8.ofNat (n % 64 + 128)], by rw [digitBytes, hrest]; rfl⟩

theorem cons_lt_cons {m n : Nat} (h : m < n) (hn : n < UInt8.size) (s t : List UInt8) :
    UInt8.ofNat m :: s < UInt8.ofNat n :: t := by
  rw [List.cons_lt_cons_iff, UInt8.lt_ofNat_iff hn, UInt8.toNat_ofNat_of_lt' (by omega)]
  exact Or.inl h

/-- **The larger number has the larger bytes**, whatever stands behind them. -/
theorem digitBytes_lt {mark k m n : Nat} (h : m < n) (hn : aboveDigits k n + mark < UInt8.size)
    (s t : List UInt8) : digitBytes mark k m ++ s < digitBytes mark k n ++ t := by
  induction k generalizing m n s t with
  | zero => exact cons_lt_cons (Nat.add_lt_add_right h mark) hn s t
  | succ k ih =>
      rw [digitBytes, digitBytes, List.append_assoc, List.append_assoc]
      by_cases hdigits : m / 64 = n / 64
      · -- the numbers differ in the last digit only
        rw [hdigits]
        refine List.append_left_lt (cons_lt_cons ?_ ?_ s t)
        · omega
        · show n % 64 + 128 < 256
          omega
      · exact ih (by omega) hn _ _

/-! ## Characters -/

/-- How many bytes stand behind the first byte of a character. -/
def furtherBytes (n : Nat) : Nat :=
  if n ≤ 127 then 0 else if n ≤ 2047 then 1 else if n ≤ 65535 then 2 else 3

/-- The mark of a first byte. -/
def firstMark : Nat → Nat
  | 0 => 0
  | 1 => 192
  | 2 => 224
  | _ => 240

/-- The first byte of a character, as a number. -/
def firstByte (n : Nat) : Nat := aboveDigits (furtherBytes n) n + firstMark (furtherBytes n)

theorem toNat_lt (c : Char) : c.val.toNat < 1114112 := by
  rcases c.valid with h | ⟨-, h⟩
  · exact lt_trans h (by decide)
  · exact h

theorem utf8EncodeChar_eq (c : Char) :
    String.utf8EncodeChar c
      = digitBytes (firstMark (furtherBytes c.val.toNat)) (furtherBytes c.val.toNat)
          c.val.toNat := by
  have hc := toNat_lt c
  unfold String.utf8EncodeChar furtherBytes
  generalize c.val.toNat = n at hc
  dsimp only
  split_ifs with h1 h2 h3
  · rfl
  · have hfirst : n / 64 % 32 = n / 64 := by omega
    rw [hfirst]
    rfl
  · have hfirst : n / 4096 % 16 = n / 64 / 64 := by omega
    rw [hfirst]
    rfl
  · have hfirst : n / 262144 % 8 = n / 64 / 64 / 64 := by omega
    have hsecond : n / 4096 % 64 = n / 64 / 64 % 64 := by omega
    rw [hfirst, hsecond]
    rfl

theorem utf8EncodeChar_eq_cons (c : Char) :
    ∃ rest, String.utf8EncodeChar c = UInt8.ofNat (firstByte c.val.toNat) :: rest := by
  rw [utf8EncodeChar_eq]
  exact digitBytes_eq_cons _ _ _

theorem firstByte_lt_size {n : Nat} (h : n < 1114112) : firstByte n < UInt8.size := by
  show firstByte n < 256
  unfold firstByte furtherBytes
  split_ifs <;> simp only [aboveDigits, firstMark] <;> omega

/-- A longer form begins with a larger byte. -/
theorem firstByte_lt {m n : Nat} (h : furtherBytes m < furtherBytes n) :
    firstByte m < firstByte n := by
  revert h
  unfold firstByte furtherBytes
  split_ifs <;> simp only [aboveDigits, firstMark] <;> omega

theorem furtherBytes_le {m n : Nat} (h : m ≤ n) : furtherBytes m ≤ furtherBytes n := by
  unfold furtherBytes
  split_ifs <;> omega

/-- **The larger character has the larger bytes**, whatever stands behind them. -/
theorem utf8EncodeChar_lt {c d : Char} (h : c < d) (s t : List UInt8) :
    String.utf8EncodeChar c ++ s < String.utf8EncodeChar d ++ t := by
  have hlt : c.val.toNat < d.val.toNat := h
  have hsize := firstByte_lt_size (toNat_lt d)
  by_cases hfurther : furtherBytes c.val.toNat = furtherBytes d.val.toNat
  · rw [utf8EncodeChar_eq, utf8EncodeChar_eq, hfurther]
    exact digitBytes_lt hlt hsize s t
  · have hfirst := firstByte_lt (lt_of_le_of_ne (furtherBytes_le hlt.le) hfurther)
    obtain ⟨rest, hrest⟩ := utf8EncodeChar_eq_cons c
    obtain ⟨rest', hrest'⟩ := utf8EncodeChar_eq_cons d
    rw [hrest, hrest']
    exact cons_lt_cons hfirst hsize _ _

/-! ## Texts -/

/-- **The smaller text has the smaller bytes.** -/
theorem utf8_lt {s t : Text} (h : s < t) : utf8 s < utf8 t := by
  induction h with
  | @nil d t =>
      obtain ⟨rest, hrest⟩ := utf8EncodeChar_eq_cons d
      rw [utf8_cons, hrest]
      exact List.nil_lt_cons _ _
  | cons _ ih =>
      rw [utf8_cons, utf8_cons]
      exact List.append_left_lt ih
  | rel h =>
      rw [utf8_cons, utf8_cons]
      exact utf8EncodeChar_lt h _ _

end PhraseGrammar.Text
