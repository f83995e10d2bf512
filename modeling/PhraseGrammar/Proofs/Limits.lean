import PhraseGrammar.Proofs.Steps
import PhraseGrammar.Random.Keystream

set_option autoImplicit false

/-! # The limits of an expansion

The two limits never change what an expansion does, they only end it. Under lower limits an
expansion takes the same cycles and makes the same draws until a limit is reached, and then it
says which one (`Expander.CutOff`). So every outcome but these two errors is the outcome under
all higher limits too, with the same draws behind it (`Expander.limits_cutOff`).
-/

namespace PhraseGrammar

variable {σ : Type} {α β : Type}

namespace Expander

open Tag

/-- The expander with other limits. -/
def withLimits (x : Expander) (cycleLimit sizeLimit : Nat) : Expander :=
  { x with cycleLimit, sizeLimit }

/-! ## Cut off by a limit -/

/-- **What the limits can do to an outcome**: nothing, or end it with the error of a limit. The
first outcome is the one under the given limits, the second one is what it is compared with. -/
inductive CutOff (cycleLimit sizeLimit : Nat) :
    Except ExpansionError α × Draws σ → Except ExpansionError α × Draws σ → Prop
  | same (r : Except ExpansionError α × Draws σ) : CutOff cycleLimit sizeLimit r r
  | cycles {d : Draws σ} {r : Except ExpansionError α × Draws σ} :
      CutOff cycleLimit sizeLimit (.error (.tooManyCycles cycleLimit), d) r
  | size {d : Draws σ} {r : Except ExpansionError α × Draws σ} :
      CutOff cycleLimit sizeLimit (.error (.tooLarge sizeLimit), d) r

theorem CutOff.of_eq {m l : Nat} {r r' : Except ExpansionError α × Draws σ} (h : r = r') :
    CutOff m l r r' := h ▸ .same r

/-- What follows is cut off, too, if it passes errors on. -/
theorem CutOff.andThen {m l : Nat} {r r' : Except ExpansionError α × Draws σ}
    {f : Draws σ → Except ExpansionError α → Except ExpansionError β}
    (hf : ∀ d e, f d (.error e) = .error e) (h : CutOff m l r r') :
    CutOff m l (f r.2 r.1, r.2) (f r'.2 r'.1, r'.2) := by
  cases h with
  | same => exact .same _
  | cycles =>
      rw [hf]
      exact .cycles
  | size =>
      rw [hf]
      exact .size

/-- A success is not cut off. -/
theorem CutOff.eq_of_ok {m l : Nat} {r r' : Except ExpansionError α × Draws σ} {a : α}
    (h : CutOff m l r r') (hr : r.1 = .ok a) : r' = r := by
  cases h with
  | same => rfl
  | cycles => cases hr
  | size => cases hr

/-! ## One cycle -/

/-- A higher limit admits every replacement that a lower one admits, with the same outcome. -/
theorem apply_of_le (s : Substitution) {l l' : Nat} (h : l ≤ l') :
    s.apply l = s.apply l' ∨ s.apply l = .error (.tooLarge l) := by
  unfold Substitution.apply
  dsimp only
  by_cases hl : l < Substitution.projectedSize s.query.halveSpaces s.target s.new
      (Text.cut s.target s.query.halveSpaces).occurrences
  · exact Or.inr (if_pos hl)
  · have hl' := mt (Nat.lt_of_le_of_lt h) hl
    exact Or.inl (by rw [if_neg hl, if_neg hl'])

variable [WordSource σ]

/-- What a tag asks for does not depend on the limits. -/
theorem substitution_withLimits (x : Expander) (m l : Nat) (query found : Text) (tag : Tag)
    (d : Draws σ) :
    (x.withLimits m l).substitution query found tag d = x.substitution query found tag d := rfl

/-- A cycle is the same under a higher limit, unless its outcome is too large. -/
theorem cycle_of_le (x : Expander) (m m' : Nat) {l l' : Nat} (h : l ≤ l') (query found : Text)
    (d : Draws σ) :
    (x.withLimits m l).cycle query found d = (x.withLimits m' l').cycle query found d ∨
      ∃ d', (x.withLimits m l).cycle query found d = (.error (.tooLarge l), d') := by
  unfold cycle
  cases Tag.parse found with
  | error e => exact Or.inl rfl
  | ok tag =>
      simp only [substitution_withLimits]
      cases x.substitution query found tag d with
      | mk drawn d' =>
          cases drawn with
          | error e => exact Or.inl rfl
          | ok s =>
              rcases apply_of_le s h with hs | hs
              · left
                show (s.apply l, d') = (s.apply l', d')
                rw [hs]
              · right
                exact ⟨d', congrArg (·, d') hs⟩

/-! ## Whole expansions -/

/-- **The cycles under lower limits** are those under higher ones, or they are cut off. -/
theorem cycles_cutOff (x : Expander) (m m' : Nat) {l l' n n' : Nat} (hl : l ≤ l') (hn : n ≤ n')
    (progress : Progress) (query : Text) (d : Draws σ) :
    CutOff m l ((x.withLimits m l).cycles n progress query d)
      ((x.withLimits m' l').cycles n' progress query d) := by
  -- the two runs go side by side, and the one with fewer cycles left is the one to end first
  induction n generalizing n' progress query d with
  | zero =>
      by_cases hm : '[' ∈ query
      · cases hp : progress.next? query with
        | none =>
            exact .of_eq (by rw [cycles_of_stalled _ _ d hm hp, cycles_of_stalled _ _ d hm hp])
        | some next =>
            rw [cycles_zero _ d hm hp]
            exact .cycles
      · exact .of_eq (by rw [cycles_of_not_mem _ _ _ d hm, cycles_of_not_mem _ _ _ d hm])
  | succ n ih =>
      obtain ⟨n', rfl⟩ : ∃ k, n' = k + 1 := ⟨n' - 1, by omega⟩
      have hn : n ≤ n' := by omega
      cases ho : Query.firstOpening? query with
      | none =>
          have hm := Query.firstOpening?_eq_none.mp ho
          exact .of_eq (by rw [cycles_of_not_mem _ _ _ d hm, cycles_of_not_mem _ _ _ d hm])
      | some opening =>
          have hm := Query.opening_mem_of_firstOpening? ho
          cases hp : progress.next? query with
          | none =>
              exact .of_eq (by rw [cycles_of_stalled _ _ d hm hp, cycles_of_stalled _ _ d hm hp])
          | some next =>
              rw [cycles_succ _ n d ho hp, cycles_succ _ n' d ho hp]
              cases Query.tagAt opening query with
              | error e => exact .same _
              | ok found =>
                  dsimp only
                  rcases cycle_of_le x m m' hl query found d with hc | ⟨d', hc⟩
                  · rw [hc]
                    split
                    · exact .same _
                    · exact ih hn _ _ _
                  · rw [hc]
                    exact .size

theorem expand_cutOff (x : Expander) {m m' l l' : Nat} (hm : m ≤ m') (hl : l ≤ l')
    (query : Text) (source : σ) :
    CutOff m l ((x.withLimits m l).expand query source)
      ((x.withLimits m' l').expand query source) := by
  have hcycles := x.cycles_cutOff m m' hl (Nat.sub_le_sub_right hm 1) {} query { source }
  exact hcycles.andThen (f := fun _ tagless => tagless.bind finish) fun _ _ => rfl

/-- **The limits only cut off.** Under lower limits an expansion and a count either end exactly
as under higher ones, with the same draws, or with the error of a lower limit. So what succeeds
under lower limits succeeds with the same outcome under higher ones. -/
theorem limits_cutOff (x : Expander) {m m' l l' : Nat} (hm : m ≤ m') (hl : l ≤ l')
    (query : Text) (source : σ) :
    (CutOff m l ((x.withLimits m l).expand query source)
        ((x.withLimits m' l').expand query source) ∧
      CutOff m l ((x.withLimits m l).countOptions query source)
        ((x.withLimits m' l').countOptions query source)) ∧
    (∀ phrase, ((x.withLimits m l).expand query source).1 = .ok phrase →
      (x.withLimits m' l').expand query source = (x.withLimits m l).expand query source) ∧
    ∀ bounds, ((x.withLimits m l).countOptions query source).1 = .ok bounds →
      (x.withLimits m' l').countOptions query source
        = (x.withLimits m l).countOptions query source := by
  have hexpand := x.expand_cutOff hm hl query source
  have hcount : CutOff m l ((x.withLimits m l).countOptions query source)
      ((x.withLimits m' l').countOptions query source) := by
    have hcounting := ({ x with counting := true } : Expander).expand_cutOff hm hl query source
    exact hcounting.andThen (f := fun d phrase => phrase.map fun _ => d.estimate.bounds)
      fun _ _ => rfl
  exact ⟨⟨hexpand, hcount⟩, fun _ hok => hexpand.eq_of_ok hok, fun _ hok => hcount.eq_of_ok hok⟩

/-! ### Two tags and two limits on cycles -/

/-- No category and no forced text. -/
def bare : Expander := { grammar := {}, cycleLimit := 1024, sizeLimit := 4096 }

/-- The query `[x/y][z/z]`. -/
def twoChoices : Text := bracketed ['x', '/', 'y'] ++ bracketed ['z', '/', 'z']

theorem twoChoices_limits_cutOff :
    ((2 ≤ 3 ∧ 8 ≤ 64) ∧
      ((bare.withLimits 2 8).expand twoChoices (Keystream.ofSeed 7)).1
        = .error (.tooManyCycles 2)) ∧
    CutOff 2 8 ((bare.withLimits 2 8).expand twoChoices (Keystream.ofSeed 7))
        ((bare.withLimits 3 64).expand twoChoices (Keystream.ofSeed 7)) ∧
      CutOff 2 8 ((bare.withLimits 2 8).countOptions twoChoices (Keystream.ofSeed 7))
        ((bare.withLimits 3 64).countOptions twoChoices (Keystream.ofSeed 7)) :=
  ⟨⟨by decide, by decide +kernel⟩,
    (bare.limits_cutOff (by decide) (by decide) twoChoices (Keystream.ofSeed 7)).1⟩

end Expander

end PhraseGrammar
