set_option autoImplicit false

/-! # Estimating options

While a query is expanded, an estimate is kept of how many phrases it has. Both bounds start at
one. A choice among `n` terms raises the lower bound by one and multiplies the upper bound by the
branches of the tag that is being replaced: `n`, and one more for an optional tag, which may be
left out.

Counts have 64 bits and **stay at the largest count** instead of overflowing.
-/

namespace PhraseGrammar

namespace Count

/-- The largest count. -/
def largest : Nat := UInt64.size - 1

/-- A sum that stays at the largest count. -/
def add (a b : Nat) : Nat := min (a + b) largest

/-- A product that stays at the largest count. -/
def mul (a b : Nat) : Nat := min (a * b) largest

theorem add_le_largest (a b : Nat) : add a b ≤ largest := Nat.min_le_right _ _

theorem mul_le_largest (a b : Nat) : mul a b ≤ largest := Nat.min_le_right _ _

theorem add_eq {a b : Nat} (h : a + b ≤ largest) : add a b = a + b := Nat.min_eq_left h

end Count

/-- How many phrases a query has, roughly. -/
structure Bounds where
  lower : Nat
  upper : Nat
  deriving DecidableEq, Repr

/-- The estimate of an expansion under way: the two bounds so far, and the branches of the
current tag. -/
structure Estimate where
  lower : Nat := 1
  upper : Nat := 1
  branches : Nat := 0
  deriving DecidableEq, Repr

namespace Estimate

/-- A new tag begins. -/
def startTag (e : Estimate) : Estimate := { e with branches := 0 }

/-- The current tag may be left out. -/
def addOmission (e : Estimate) : Estimate := { e with branches := e.branches + 1 }

/-- A choice was made among a number of terms. -/
def addChoice (e : Estimate) (terms : Nat) : Estimate :=
  let branches := Count.add e.branches terms
  { lower := Count.add e.lower 1, upper := Count.mul e.upper branches, branches }

/-- The bounds so far. -/
def bounds (e : Estimate) : Bounds := ⟨e.lower, e.upper⟩

end Estimate

end PhraseGrammar
