import PhraseGrammar.Expansion.Error

set_option autoImplicit false

/-! # Tags

A tag stands in brackets: a marker, a key, and a label behind the first `#`. The marker is `!`
for a hidden tag, `?` for an optional one, and absent otherwise; a tag without a marker whose key
contains `/` lists its terms in the key. The label makes a tag differ from others with the same
key and takes part in no look-up.

`Tag.parse` reads a tag and `Tag.render` writes it.
-/

namespace PhraseGrammar

/-- What a tag asks for. -/
inductive Tag.Kind where
  /-- Drawn now, shown only where the same tag stands without its marker. -/
  | hidden
  /-- Left out half of the time. -/
  | optional
  /-- A choice among the terms in the key. -/
  | alternation
  /-- A forced value, a draw from a category, or an article. -/
  | named
  deriving DecidableEq, Repr

/-- A tag without its brackets. -/
structure Tag where
  kind : Tag.Kind
  key : Text
  label : Option Text
  deriving DecidableEq, Repr

namespace Tag

/-- The marker that a kind of tag begins with. -/
def Kind.marker : Kind → Text
  | .hidden => ['!']
  | .optional => ['?']
  | .alternation | .named => []

/-- The key with its label. -/
def body (tag : Tag) : Text :=
  match tag.label with
  | some label => tag.key ++ '#' :: label
  | none => tag.key

/-- A text in brackets. -/
def bracketed (t : Text) : Text := '[' :: (t ++ [']'])

/-- The tag as it reads without its marker. -/
def unmarked (tag : Tag) : Text := bracketed tag.body

/-- The tag as it reads. -/
def render (tag : Tag) : Text := bracketed (tag.kind.marker ++ tag.body)

/-! ## Reading -/

/-- A bracket of either direction. -/
def isBracket (c : Char) : Bool := c == '[' || c == ']'

/-- What stands between the opening bracket at the start and the closing bracket at the end. -/
def inside? : Text → Option Text
  | '[' :: rest => if rest.getLast? = some ']' then some rest.dropLast else none
  | _ => none

/-- The key and the label of a body: the label starts behind the first `#`. -/
def splitLabel (body : Text) : Text × Option Text :=
  match body.span (· != '#') with
  | (key, []) => (key, none)
  | (key, _ :: label) => (key, some label)

/-- The tag with the given marker, or without one, and the given body. -/
def ofBody (marker : Option Kind) (body : Text) : Tag :=
  let (key, label) := splitLabel body
  let kind := marker.getD (if key.contains '/' then .alternation else .named)
  { kind, key, label }

/-- Reads the inside of a tag. -/
def ofInside : Text → Tag
  | '!' :: body => ofBody (some .hidden) body
  | '?' :: body => ofBody (some .optional) body
  | body => ofBody none body

/-- Reads a tag in its brackets. -/
def parse (expression : Text) : Except ExpansionError Tag :=
  match inside? expression with
  | none => .error (.notBracketed expression)
  | some inside =>
    match inside.columnOf? isBracket with
    | some column => .error (.nestedBracket column expression)
    | none => .ok (ofInside inside)

end Tag

end PhraseGrammar
