import PhraseGrammar.Text.Basic

set_option autoImplicit false

/-! # Decimal numbers of 64 bits

A number is written with one or more of the ten digits of ASCII, and may have one `+` in front.
Zeros in front do not count, and a number must fit in 64 bits.
-/

namespace PhraseGrammar.Text

/-- The value of a list of digits. -/
def digitsValue (digits : Text) : Nat :=
  digits.foldl (fun n c => 10 * n + (c.toNat - '0'.toNat)) 0

/-- A text without one `+` at its start. -/
def dropPlus : Text → Text
  | '+' :: t => t
  | t => t

/-- Reads a number of 64 bits. -/
def toUInt64? (t : Text) : Option UInt64 :=
  let digits := dropPlus t
  if digits.isEmpty || !digits.all Char.isDigit then none
  else if h : digitsValue digits < UInt64.size then some (UInt64.ofNatLT (digitsValue digits) h)
  else none

end PhraseGrammar.Text
