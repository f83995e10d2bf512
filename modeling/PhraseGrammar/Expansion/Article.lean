import PhraseGrammar.Expansion.Error
import PhraseGrammar.Text.Blank

set_option autoImplicit false

/-! # Articles

Whether an article reads `a` or `an` depends on the word behind it, which is known only when all
tags are gone. Until then a mark without brackets stands in its place, and `Article.settle`
replaces the marks from left to right.
-/

namespace PhraseGrammar.Article

/-- The start of a mark. -/
def opening : Text := ['\x7b', '\x7b', '$', 'A', 'A', 'N', '$', '\x7b', '\x7b']

/-- The end of a mark. -/
def closing : Text := ['\x7d', '\x7d', '$', 'A', 'A', 'N', '$', '\x7d', '\x7d']

/-- The keys of articles. -/
def isKey (key : Text) : Bool := key == ['a'] || key == ['a', 'n']

/-- The mark that stands for an article until its word is known. -/
def mark (key : Text) : Text := opening ++ key ++ closing

/-- A vowel, of either case: it asks for `an`. -/
def asksForN (c : Char) : Bool := ['a', 'e', 'i', 'o', 'u'].contains c.toLower

/-- The article before a text: `an` if the first character that is not blank is a vowel. -/
def before (text : Text) : Text :=
  match text.trimStart with
  | c :: _ => if asksForN c then ['a', 'n'] else ['a']
  | [] => ['a']

private theorem length_before_le (text : Text) : (before text).length ≤ 2 := by
  unfold before
  split
  · split <;> simp
  · simp

/-- Settles the first mark: the text with its article in place, or nothing if no mark is left.
The first closing mark must stand behind the first opening one. -/
def settleFirst (text : Text) : Except ExpansionError (Option Text) :=
  match Text.breakOn opening text with
  | none => .ok none
  | some (start, _) =>
    match Text.breakOn closing text with
    | none => .error .brokenArticle
    | some (upTo, rest) =>
      if start.length < upTo.length then .ok (some (start ++ before rest ++ rest))
      else .error .brokenArticle

/-- Settling a mark shortens the text. -/
theorem length_lt_of_settleFirst {text next : Text} (h : settleFirst text = .ok (some next)) :
    next.length < text.length := by
  unfold settleFirst at h
  split at h
  · cases h
  · next start _ _ =>
    split at h
    · cases h
    · next upTo rest hc =>
      split at h
      · next hlt =>
        cases h
        have hl := congrArg List.length (Text.eq_of_breakOn hc)
        have ha := length_before_le rest
        simp only [List.length_append, closing, List.length_cons, List.length_nil] at hl ⊢
        omega
      · cases h

/-- Replaces every mark by its article. -/
def settle (text : Text) : Except ExpansionError Text :=
  match h : settleFirst text with
  | .error e => .error e
  | .ok none => .ok text
  | .ok (some next) =>
    have := length_lt_of_settleFirst h
    settle next
termination_by text.length

end PhraseGrammar.Article
