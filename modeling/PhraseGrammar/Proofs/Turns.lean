import PhraseGrammar.Proofs.Marks

set_option autoImplicit false

/-! # The turns of settling

Articles are settled in turns, and each turn looks for the first opening and for the first closing
of a mark in the whole text, whatever stands before, between and behind them. The two never overlap
if the closing begins behind the place where the opening begins, since no opening holds the brace
that a closing begins with (`Article.exists_inside`). So a turn takes at least two whole tokens out
of the text and puts at most two bytes in their place, and the text is at least sixteen bytes
shorter (`Article.Turn.byteSize_add_le`), although the new text may hold an opening that was not
there before.

Therefore every text, well-formed or not, is settled after finitely many turns, or comes to a text
whose first opening has no closing behind it (`Article.settle_ends`).
-/

namespace PhraseGrammar

/-! ## First occurrences -/

namespace Text

/-- The first occurrence of a mark, by what stands before it and what stands behind it. -/
structure FirstOccurrence (mark t upTo behind : Text) : Prop where
  eq : t = upTo ++ mark ++ behind
  first : ∀ u v, t = u ++ mark ++ v → upTo.length ≤ u.length

theorem FirstOccurrence.isInfix {mark t upTo behind : Text}
    (h : FirstOccurrence mark t upTo behind) : mark <:+: t := ⟨upTo, behind, h.eq.symm⟩

theorem FirstOccurrence.unique {mark t u v u' v' : Text} (h : FirstOccurrence mark t u v)
    (h' : FirstOccurrence mark t u' v') : u = u' ∧ v = v' := by
  have hlength : u.length = u'.length :=
    Nat.le_antisymm (h.first u' v' h'.eq) (h'.first u v h.eq)
  have heq : u ++ (mark ++ v) = u' ++ (mark ++ v') := by
    rw [← List.append_assoc, ← List.append_assoc, ← h.eq, ← h'.eq]
  obtain ⟨hu, hrest⟩ := List.append_inj heq hlength
  exact ⟨hu, List.append_cancel_left hrest⟩

theorem firstOccurrence_of_breakOn {mark t u v : Text} (h : breakOn mark t = some (u, v)) :
    FirstOccurrence mark t u v := by
  refine ⟨eq_of_breakOn h, ?_⟩
  induction t generalizing u with
  | nil =>
      have hnil := eq_of_breakOn h
      have hu : u = [] := by simp_all
      intro u' v' _
      rw [hu]
      exact Nat.zero_le _
  | cons c t ih =>
      intro u' v' heq
      by_cases hp : mark.isPrefixOf (c :: t) = true
      · rw [breakOn, breakFrom, if_pos hp] at h
        cases h
        exact Nat.zero_le _
      · rw [breakOn_cons (Bool.eq_false_iff.mpr hp)] at h
        obtain ⟨⟨w, v⟩, hw, hcons⟩ := Option.map_eq_some_iff.mp h
        obtain ⟨rfl, rfl⟩ := Prod.mk.inj hcons
        -- the other occurrence does not begin here either
        cases u' with
        | nil => exact absurd (List.isPrefixOf_iff_prefix.mpr ⟨v', heq.symm⟩) hp
        | cons d u' =>
            obtain ⟨-, htail⟩ := List.cons.inj heq
            exact Nat.succ_le_succ (ih hw u' v' htail)

/-- **What a search finds** is the first occurrence. -/
theorem breakOn_eq_some {mark t u v : Text} :
    breakOn mark t = some (u, v) ↔ FirstOccurrence mark t u v := by
  refine ⟨firstOccurrence_of_breakOn, fun h => ?_⟩
  cases hb : breakOn mark t with
  | none => exact absurd h.isInfix (breakOn_eq_none.mp hb)
  | some p =>
      obtain ⟨hu, hv⟩ := h.unique (firstOccurrence_of_breakOn hb)
      rw [hu, hv]

end Text

namespace Article

open Text

/-! ## One turn -/

/-- **One turn**: an article takes the place of the first opening, of the first closing, which
stands behind it, and of what is between them. -/
inductive Turn (t : Text) : Text → Prop
  | intro {start inside rest : Text} :
      FirstOccurrence opening t start (inside ++ closing ++ rest) →
      FirstOccurrence closing t (start ++ opening ++ inside) rest →
      Turn t (start ++ before rest ++ rest)

/-- There is an opening, and the first closing, if there is one, is not behind the first opening. -/
structure Broken (t : Text) : Prop where
  opened : opening <:+: t
  unclosed : ∀ start behind upTo rest, FirstOccurrence opening t start behind →
    FirstOccurrence closing t upTo rest → upTo.length ≤ start.length

/-- **Tokens do not overlap**: a closing that begins behind the beginning of an opening begins
behind its end. -/
theorem exists_inside {t start behind upTo rest : Text} (ho : t = start ++ opening ++ behind)
    (hc : t = upTo ++ closing ++ rest) (hlt : start.length < upTo.length) :
    ∃ inside, upTo = start ++ opening ++ inside ∧ behind = inside ++ closing ++ rest := by
  have heq : start ++ (opening ++ behind) = upTo ++ (closing ++ rest) := by
    rw [← List.append_assoc, ← ho, hc, List.append_assoc]
  rcases List.append_eq_append_iff.mp heq with ⟨a, rfl, ha⟩ | ⟨a, rfl, -⟩
  · rcases List.append_eq_append_iff.mp ha with ⟨b, rfl, rfl⟩ | ⟨b, hopening, hb⟩
    · exact ⟨b, (List.append_assoc start opening b).symm, (List.append_assoc b closing rest).symm⟩
    · cases b with
      | nil =>
          rw [List.append_nil] at hopening
          exact ⟨[], by rw [hopening, List.append_nil], by simpa using hb.symm⟩
      | cons c b =>
          -- the closing would begin within the opening, which holds no closing brace
          obtain ⟨hc, -⟩ := List.cons.inj hb
          have hmem : '\x7d' ∈ opening := by
            rw [hopening, ← hc]
            exact List.mem_append_right a List.mem_cons_self
          exact absurd hmem (by decide)
  · rw [List.length_append] at hlt
    omega

theorem settleFirst_eq_none {t : Text} : settleFirst t = .ok none ↔ ¬ opening <:+: t := by
  unfold settleFirst
  cases ho : breakOn opening t with
  | none => simp [breakOn_eq_none.mp ho]
  | some p =>
      have hopened := (firstOccurrence_of_breakOn ho).isInfix
      cases hc : breakOn closing t with
      | none => simp [hopened]
      | some q =>
          dsimp only
          split <;> simp [hopened]

theorem settleFirst_of_turn {t next : Text} (h : Turn t next) :
    settleFirst t = .ok (some next) := by
  obtain ⟨ho, hc⟩ := h
  next start inside rest =>
    have hlt : start.length < (start ++ opening ++ inside).length := by
      have hopening : opening.length = 9 := by decide
      rw [List.length_append, List.length_append]
      omega
    unfold settleFirst
    rw [breakOn_eq_some.mpr ho, breakOn_eq_some.mpr hc]
    dsimp only
    rw [if_pos hlt]

theorem settleFirst_of_broken {t : Text} (h : Broken t) :
    settleFirst t = .error .brokenArticle := by
  unfold settleFirst
  cases ho : breakOn opening t with
  | none => exact absurd h.opened (breakOn_eq_none.mp ho)
  | some p =>
      obtain ⟨start, behind⟩ := p
      cases hc : breakOn closing t with
      | none => rfl
      | some q =>
          obtain ⟨upTo, rest⟩ := q
          have hle := h.unclosed start behind upTo rest (breakOn_eq_some.mp ho)
            (breakOn_eq_some.mp hc)
          dsimp only
          rw [if_neg (Nat.not_lt.mpr hle)]

/-- A text without an opening is settled, and another one is broken or has a turn. -/
theorem broken_or_turn {t : Text} (h : opening <:+: t) : Broken t ∨ ∃ next, Turn t next := by
  cases ho : breakOn opening t with
  | none => exact absurd h (breakOn_eq_none.mp ho)
  | some p =>
      obtain ⟨start, behind⟩ := p
      have hopening := firstOccurrence_of_breakOn ho
      cases hc : breakOn closing t with
      | none =>
          refine .inl ⟨h, fun _ _ upTo rest _ hclosing => ?_⟩
          exact absurd hclosing.isInfix (breakOn_eq_none.mp hc)
      | some q =>
          obtain ⟨upTo, rest⟩ := q
          have hclosing := firstOccurrence_of_breakOn hc
          by_cases hlt : start.length < upTo.length
          · obtain ⟨inside, rfl, rfl⟩ := exists_inside hopening.eq hclosing.eq hlt
            exact .inr ⟨_, .intro hopening hclosing⟩
          · refine .inl ⟨h, fun start' _ upTo' _ hopening' hclosing' => ?_⟩
            rw [(hopening'.unique hopening).1, (hclosing'.unique hclosing).1]
            exact Nat.not_lt.mp hlt

theorem byteSize_before_le (t : Text) : (before t).byteSize ≤ 2 := by
  unfold before
  split
  · split <;> decide
  · decide

/-- **A turn makes the text at least sixteen bytes shorter.** -/
theorem Turn.byteSize_add_le {t next : Text} (h : Turn t next) :
    next.byteSize + 16 ≤ t.byteSize := by
  obtain ⟨ho, -⟩ := h
  next start inside rest =>
    have harticle := byteSize_before_le rest
    have hopening : opening.byteSize = 9 := by decide
    have hclosing : closing.byteSize = 9 := by decide
    rw [ho.eq]
    simp only [byteSize_append]
    omega

/-! ## All turns -/

/-- A number of turns, one after the other. -/
inductive Turns : Nat → Text → Text → Prop
  | refl (t : Text) : Turns 0 t t
  | head {n : Nat} {t next last : Text} : Turn t next → Turns n next last → Turns (n + 1) t last

theorem Turns.byteSize_add_le {n : Nat} {t last : Text} (h : Turns n t last) :
    last.byteSize + 16 * n ≤ t.byteSize := by
  induction h with
  | refl t => exact Nat.le_refl _
  | head hturn _ ih =>
      have hstep := hturn.byteSize_add_le
      omega

/-- A text and what turns make of it settle alike. -/
theorem Turns.settle_eq {n : Nat} {t last : Text} (h : Turns n t last) :
    settle t = settle last := by
  induction h with
  | refl t => rfl
  | head hturn _ ih => rw [settle_of_some (settleFirst_of_turn hturn), ih]

/-- Turns come to an end: at a text without an opening, or at a broken one. -/
theorem exists_turns (t : Text) :
    ∃ n last, Turns n t last ∧ (¬ opening <:+: last ∨ Broken last) := by
  induction hsize : t.byteSize using Nat.strongRecOn generalizing t with
  | _ size ih =>
      by_cases hopening : opening <:+: t
      · rcases broken_or_turn hopening with hbroken | ⟨next, hturn⟩
        · exact ⟨0, t, .refl t, .inr hbroken⟩
        · have hstep := hturn.byteSize_add_le
          obtain ⟨n, last, hturns, hend⟩ := ih next.byteSize (by omega) next rfl
          exact ⟨n + 1, last, .head hturn hturns, hend⟩
      · exact ⟨0, t, .refl t, .inl hopening⟩

/-- What the search for the first mark says of a text, whatever tokens stand in it. -/
theorem settleFirst_cases (t : Text) :
    (settleFirst t = .ok none ∧ ¬ opening <:+: t) ∨
      (settleFirst t = .error .brokenArticle ∧ Broken t) ∨
      ∃ next, settleFirst t = .ok (some next) ∧ Turn t next := by
  by_cases hopening : opening <:+: t
  · rcases broken_or_turn hopening with hbroken | ⟨next, hturn⟩
    · exact .inr (.inl ⟨settleFirst_of_broken hbroken, hbroken⟩)
    · exact .inr (.inr ⟨next, settleFirst_of_turn hturn, hturn⟩)
  · exact .inl ⟨settleFirst_eq_none.mpr hopening, hopening⟩

/-- Settling gives the text behind the last turn, or fails if that text is broken. -/
theorem settle_cases (t : Text) :
    ∃ n last, Turns n t last ∧
      ((settle t = .ok last ∧ ¬ opening <:+: last) ∨
        (settle t = .error .brokenArticle ∧ Broken last)) := by
  obtain ⟨n, last, hturns, hend⟩ := exists_turns t
  refine ⟨n, last, hturns, ?_⟩
  rw [hturns.settle_eq]
  rcases hend with hdone | hbroken
  · exact .inl ⟨settle_of_none (settleFirst_eq_none.mpr hdone), hdone⟩
  · exact .inr ⟨settle_of_error (settleFirst_of_broken hbroken), hbroken⟩

theorem byteSize_le_of_settle {t settled : Text} (h : settle t = .ok settled) :
    settled.byteSize ≤ t.byteSize := by
  obtain ⟨n, last, hturns, ⟨hok, -⟩ | ⟨herror, -⟩⟩ := settle_cases t
  · have hsize := hturns.byteSize_add_le
    rw [hok] at h
    cases h
    omega
  · rw [herror] at h
    cases h

/-- **Settling ends on every text.** Each turn either finds no opening, or fails because no closing
stands behind the first opening, or puts an article in the place of two tokens that do not overlap,
and of what is between them, and leaves at least sixteen bytes less. So no sequence of turns is
longer than a sixteenth of the text, and the sequence of all turns ends: at a text without an
opening, which is the outcome, or at a broken text, and then settling fails. An outcome holds no
opening and is no larger than the text that was given. -/
theorem settle_ends (t : Text) :
    ((settleFirst t = .ok none ∧ ¬ opening <:+: t) ∨
      (settleFirst t = .error .brokenArticle ∧ Broken t) ∨
      ∃ next, settleFirst t = .ok (some next) ∧ Turn t next ∧
        next.byteSize + 16 ≤ t.byteSize) ∧
    (∀ n last, Turns n t last → last.byteSize + 16 * n ≤ t.byteSize) ∧
    ∃ n last, Turns n t last ∧
      ((settle t = .ok last ∧ ¬ opening <:+: last ∧ last.byteSize ≤ t.byteSize) ∨
        (settle t = .error .brokenArticle ∧ Broken last)) := by
  refine ⟨?_, fun n last => Turns.byteSize_add_le, ?_⟩
  · rcases settleFirst_cases t with hdone | hbroken | ⟨next, hfirst, hturn⟩
    · exact .inl hdone
    · exact .inr (.inl hbroken)
    · exact .inr (.inr ⟨next, hfirst, hturn, hturn.byteSize_add_le⟩)
  · obtain ⟨n, last, hturns, ⟨hok, hdone⟩ | hbroken⟩ := settle_cases t
    · exact ⟨n, last, hturns, .inl ⟨hok, hdone, byteSize_le_of_settle hok⟩⟩
    · exact ⟨n, last, hturns, .inr hbroken⟩

/-- A whole mark is not enough: a closing before it is the first one. -/
example : settle (closing ++ mark ['a']) = .error .brokenArticle := by cbv

end Article

end PhraseGrammar
