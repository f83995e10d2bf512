import PhraseGrammar.Text.Basic

set_option autoImplicit false

/-! # Blank characters

The characters with the Unicode property `White_Space`, and the removal of blanks at the two
ends of a text.
-/

namespace PhraseGrammar.Text

/-- The ranges of code points with the property `White_Space`. -/
def blankRanges : List (Nat × Nat) :=
  [(0x09, 0x0D), (0x20, 0x20), (0x85, 0x85), (0xA0, 0xA0), (0x1680, 0x1680), (0x2000, 0x200A),
   (0x2028, 0x2029), (0x202F, 0x202F), (0x205F, 0x205F), (0x3000, 0x3000)]

/-- A blank character. -/
def isBlank (c : Char) : Bool :=
  blankRanges.any (fun r => r.1 ≤ c.toNat && c.toNat ≤ r.2)

/-- A text without the blanks at its start. -/
def trimStart (t : Text) : Text := t.dropWhile isBlank

/-- A text without the blanks at its end. -/
def trimEnd (t : Text) : Text := (t.reverse.dropWhile isBlank).reverse

/-- A text without the blanks at its two ends. -/
def trim (t : Text) : Text := trimEnd (trimStart t)

theorem trimStart_trimStart (t : Text) : t.trimStart.trimStart = t.trimStart := by
  unfold trimStart
  induction t with
  | nil => rfl
  | cons c t ih =>
      by_cases hc : isBlank c = true
      · rw [List.dropWhile_cons_of_pos hc, ih]
      · rw [List.dropWhile_cons_of_neg hc, List.dropWhile_cons_of_neg hc]

theorem trimEnd_cons {c : Char} (hc : isBlank c = false) (t : Text) :
    trimEnd (c :: t) = c :: trimEnd t := by
  have hlast : [c].dropWhile isBlank = [c] := List.dropWhile_cons_of_neg (by simp [hc])
  unfold trimEnd
  rw [List.reverse_cons, List.dropWhile_append, hlast]
  cases t.reverse.dropWhile isBlank with
  | nil => rfl
  | cons d rest => simp

/-- A text that begins with a character other than a blank is trimmed behind it only. -/
theorem trim_cons {c : Char} (hc : isBlank c = false) (t : Text) :
    trim (c :: t) = c :: trimEnd t := by
  rw [trim, trimStart, List.dropWhile_cons_of_neg (by simp [hc]), trimEnd_cons hc]

/-- A trimmed text has no blanks at its ends. -/
theorem trim_trim (t : Text) : t.trim.trim = t.trim := by
  have htrim : t.trim = trimEnd t.trimStart := rfl
  rw [htrim]
  cases ht : t.trimStart with
  | nil => rfl
  | cons c rest =>
      have hc : isBlank c = false := by
        have hhead := List.head?_dropWhile_not isBlank t
        rw [← trimStart, ht] at hhead
        simpa using hhead
      have hend : trimEnd (trimEnd rest) = trimEnd rest := by
        have hstart := trimStart_trimStart rest.reverse
        unfold trimStart at hstart
        rw [trimEnd, trimEnd, List.reverse_reverse, hstart]
      rw [trimEnd_cons hc, trim_cons hc, hend]

end PhraseGrammar.Text
