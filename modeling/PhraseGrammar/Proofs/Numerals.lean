import PhraseGrammar.Proofs.Sources
import PhraseGrammar.Text.Decimal
import Mathlib.Data.List.TakeWhile
import Mathlib.Data.Nat.Digits.Defs

set_option autoImplicit false

/-! # Numerals

What a text has to be to be read as a number of 64 bits once the blanks around it are removed: blanks,
at most one `+`, digits, and blanks again (`Text.Numeral`). The digits are those of ASCII, and the
blanks all of `White_Space`. Zeros in front do not count, so that it is the value which must fit in 64
bits, and not the number of digits (`Text.toUInt64?_trim_eq_some`).
-/

namespace PhraseGrammar.Text

/-! ## The value of digits -/

/-- The number that digits stand for in base ten, the first one being the highest. -/
def decimalValue (digits : Text) : Nat :=
  Nat.ofDigits 10 (digits.reverse.map fun c => c.toNat - '0'.toNat)

/-- Reading the digits from the first to the last one gives their value. -/
theorem digitsValue_eq (digits : Text) : digitsValue digits = decimalValue digits := by
  unfold digitsValue decimalValue
  rw [Nat.ofDigits_eq_foldr, List.foldr_map, List.foldr_reverse]
  congr 1
  funext n c
  rw [Nat.cast_id, Nat.add_comm]

/-- **A text that stands for a number**, with blanks around it. -/
inductive Numeral : Text → UInt64 → Prop
  | intro {lead sign digits behind : Text} {n : UInt64} :
      (∀ c ∈ lead, isBlank c = true) → (∀ c ∈ behind, isBlank c = true) →
      sign = [] ∨ sign = ['+'] → digits ≠ [] → (∀ c ∈ digits, c.isDigit = true) →
      n.toNat = decimalValue digits →
      Numeral (lead ++ (sign ++ digits) ++ behind) n

/-! ## Signs and digits -/

theorem exists_sign (t : Text) : ∃ sign, (sign = [] ∨ sign = ['+']) ∧ t = sign ++ dropPlus t := by
  unfold dropPlus
  split
  · exact ⟨['+'], Or.inr rfl, rfl⟩
  · exact ⟨[], Or.inl rfl, rfl⟩

theorem dropPlus_append {sign digits : Text} (hsign : sign = [] ∨ sign = ['+'])
    (hdigits : ∀ c ∈ digits, c.isDigit = true) : dropPlus (sign ++ digits) = digits := by
  rcases hsign with rfl | rfl
  · -- a sign is no digit
    show dropPlus digits = digits
    unfold dropPlus
    split
    · cases hdigits '+' List.mem_cons_self
    · rfl
  · rfl

theorem toUInt64?_eq_some {t : Text} {n : UInt64} :
    t.toUInt64? = some n ↔
      dropPlus t ≠ [] ∧ (∀ c ∈ dropPlus t, c.isDigit = true) ∧
        n.toNat = decimalValue (dropPlus t) := by
  unfold toUInt64?
  rw [← digitsValue_eq]
  dsimp only
  by_cases hdigits : dropPlus t ≠ [] ∧ ∀ c ∈ dropPlus t, c.isDigit = true
  · have hread : ((dropPlus t).isEmpty || !(dropPlus t).all Char.isDigit) = false := by
      simpa using hdigits
    rw [hread, if_neg (by simp)]
    split
    · next h =>
        rw [Option.some.injEq, ← UInt64.toNat_inj, UInt64.toNat_ofNatLT, eq_comm]
        exact ⟨fun hn => ⟨hdigits.1, hdigits.2, hn⟩, fun hn => hn.2.2⟩
    · next h =>
        refine ⟨nofun, fun hn => absurd ?_ h⟩
        rw [← hn.2.2]
        exact n.toNat_lt
  · have hread : ((dropPlus t).isEmpty || !(dropPlus t).all Char.isDigit) = true := by
      by_contra hnot
      exact hdigits (by simpa using hnot)
    rw [if_pos hread]
    exact ⟨nofun, fun hn => absurd ⟨hn.1, hn.2.1⟩ hdigits⟩

/-! ## Blanks around a text -/

theorem not_isBlank_of_isDigit {c : Char} (h : c.isDigit = true) : isBlank c = false := by
  have hcode : 48 ≤ c.toNat ∧ c.toNat ≤ 57 := by
    rw [Char.isDigit, Bool.and_eq_true, decide_eq_true_iff, decide_eq_true_iff] at h
    exact ⟨UInt32.le_iff_toNat_le.mp h.1, UInt32.le_iff_toNat_le.mp h.2⟩
  rw [Bool.eq_false_iff]
  intro hblank
  obtain ⟨range, hrange, hbounds⟩ := List.any_eq_true.mp hblank
  rw [Bool.and_eq_true, decide_eq_true_iff, decide_eq_true_iff] at hbounds
  have hapart : ∀ range ∈ blankRanges, range.2 < 48 ∨ 57 < range.1 := by decide
  have := hapart range hrange
  omega

/-- A text is what trimming leaves of it, with blanks around it. -/
theorem exists_blanks (t : Text) :
    ∃ lead behind, (∀ c ∈ lead, isBlank c = true) ∧ (∀ c ∈ behind, isBlank c = true) ∧
      t = lead ++ t.trim ++ behind := by
  have hstart : t = t.takeWhile isBlank ++ t.trimStart :=
    (List.takeWhile_append_dropWhile (p := isBlank) (l := t)).symm
  have hend : t.trimStart = t.trim ++ (t.trimStart.reverse.takeWhile isBlank).reverse := by
    have hreverse := List.takeWhile_append_dropWhile (p := isBlank) (l := t.trimStart.reverse)
    have hboth := congrArg List.reverse hreverse
    rw [List.reverse_append, List.reverse_reverse] at hboth
    exact hboth.symm
  refine ⟨t.takeWhile isBlank, (t.trimStart.reverse.takeWhile isBlank).reverse,
    fun c hc => List.mem_takeWhile_imp hc,
    fun c hc => List.mem_takeWhile_imp (List.mem_reverse.mp hc), ?_⟩
  rw [List.append_assoc, ← hend, ← hstart]

/-- Blanks around a text without blanks are removed. -/
theorem trim_append {lead core behind : Text} (hlead : ∀ c ∈ lead, isBlank c = true)
    (hbehind : ∀ c ∈ behind, isBlank c = true) (hcore : ∀ c ∈ core, isBlank c = false)
    (hne : core ≠ []) : trim (lead ++ core ++ behind) = core := by
  obtain ⟨first, rest, rfl⟩ := List.exists_cons_of_ne_nil hne
  have hfirst : isBlank first = false := hcore first List.mem_cons_self
  have hlast : ∀ c ∈ (first :: rest).getLast?, isBlank c = false :=
    fun c hc => hcore c (List.mem_of_getLast? hc)
  have hstart : trimStart (lead ++ (first :: rest) ++ behind) = first :: rest ++ behind := by
    rw [trimStart, List.append_assoc, List.dropWhile_append_of_pos hlead, List.cons_append,
      List.dropWhile_cons_of_neg (by simp [hfirst])]
  have hend : ∀ t : Text, (∀ c ∈ behind, isBlank c = true) → trimEnd (t ++ behind) = trimEnd t := by
    intro t hbehind
    rw [trimEnd, List.reverse_append,
      List.dropWhile_append_of_pos fun c hc => hbehind c (List.mem_reverse.mp hc), trimEnd]
  rw [trim, hstart, hend _ hbehind, trimEnd_eq_self hlast]

/-! ## Reading a numeral -/

/-- **A number is read exactly from the numerals of it.** -/
theorem toUInt64?_trim_eq_some {value : Text} {n : UInt64} :
    value.trim.toUInt64? = some n ↔ Numeral value n := by
  rw [toUInt64?_eq_some]
  constructor
  · rintro ⟨hne, hdigits, hn⟩
    obtain ⟨lead, behind, hlead, hbehind, hvalue⟩ := exists_blanks value
    obtain ⟨sign, hsign, htrim⟩ := exists_sign value.trim
    rw [htrim] at hvalue
    rw [hvalue]
    exact .intro hlead hbehind hsign hne hdigits hn
  · intro h
    cases h with
    | @intro lead sign digits behind _ hlead hbehind hsign hne hdigits hn =>
        have hcore : ∀ c ∈ sign ++ digits, isBlank c = false := by
          intro c hc
          rcases List.mem_append.mp hc with hc | hc
          · rcases hsign with rfl | rfl
            · cases hc
            · obtain rfl := List.mem_singleton.mp hc
              decide
          · exact not_isBlank_of_isDigit (hdigits c hc)
        rw [trim_append hlead hbehind hcore (List.append_ne_nil_of_right_ne_nil sign hne),
          dropPlus_append hsign hdigits]
        exact ⟨hne, hdigits, hn⟩

/-- A text is a numeral of one number at most. -/
theorem Numeral.unique {value : Text} {n m : UInt64} (hn : Numeral value n)
    (hm : Numeral value m) : n = m := by
  rw [← toUInt64?_trim_eq_some] at hn hm
  rw [hn] at hm
  exact Option.some.inj hm

end PhraseGrammar.Text
