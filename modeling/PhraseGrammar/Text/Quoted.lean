import PhraseGrammar.Text.Printable

set_option autoImplicit false

/-! # Quoted texts

A quoted text stands between double quotes. Inside, the double quote and the backslash follow a
backslash, four control characters have a letter or a digit of their own, and any other character
that cannot be shown is given by its code point in hexadecimal digits.
-/

namespace PhraseGrammar.Text

/-- The written form of a character in quotes. -/
def quotedChar (c : Char) : Text :=
  if c == '\x00' then ['\\', '0']
  else if c == '\t' then ['\\', 't']
  else if c == '\r' then ['\\', 'r']
  else if c == '\n' then ['\\', 'n']
  else if c == '"' || c == '\\' then ['\\', c]
  else if isPrintable c then [c]
  else ['\\', 'u', '\x7b'] ++ Nat.toDigits 16 c.toNat ++ ['\x7d']

/-- A text in quotes. -/
def quoted (t : Text) : Text := '"' :: (t.flatMap quotedChar ++ ['"'])

end PhraseGrammar.Text
