import PhraseGrammar.Text.Basic

set_option autoImplicit false

/-! # JSON values

The values that the server answers and accepts, and their written form without blanks. In a
written string the quote, the backslash and the control characters are escaped, and every other
character stands for itself.
-/

namespace PhraseGrammar

/-- A JSON value. Fields keep their order. -/
inductive Json where
  | number (n : Nat)
  | string (t : Text)
  | array (items : List Json)
  | object (fields : List (Text × Json))

namespace Json

/-- The sixteen digits. -/
def hexDigit (n : Nat) : Char := Nat.digitChar (n % 16)

/-- The written form of a character in a string. -/
def escape (c : Char) : Text :=
  if c == '"' then ['\\', '"']
  else if c == '\\' then ['\\', '\\']
  else if c == '\n' then ['\\', 'n']
  else if c == '\r' then ['\\', 'r']
  else if c == '\t' then ['\\', 't']
  else if c.toNat == 8 then ['\\', 'b']
  else if c.toNat == 12 then ['\\', 'f']
  else if c.toNat < 32 then ['\\', 'u', '0', '0', hexDigit (c.toNat / 16), hexDigit c.toNat]
  else [c]

/-- A string in quotes. -/
def quote (t : Text) : Text := '"' :: (t.flatMap escape ++ ['"'])

mutual

/-- The written form of a value. -/
def render : Json → Text
  | .number n => (toString n).toList
  | .string t => quote t
  | .array items => '[' :: (List.intercalate [','] (renderItems items) ++ [']'])
  | .object fields => '\x7b' :: (List.intercalate [','] (renderFields fields) ++ ['\x7d'])

/-- The written forms of the items of an array. -/
def renderItems : List Json → List Text
  | [] => []
  | item :: rest => render item :: renderItems rest

/-- The written forms of the fields of an object. -/
def renderFields : List (Text × Json) → List Text
  | [] => []
  | (name, value) :: rest => (quote name ++ ':' :: render value) :: renderFields rest

end

/-! ## Reading values -/

/-- The text of a string. -/
def text? : Json → Option Text
  | .string t => some t
  | _ => none

/-- The texts of an array of strings. -/
def texts? : Json → Option (List Text)
  | .array items => items.mapM text?
  | _ => none

end Json

end PhraseGrammar
