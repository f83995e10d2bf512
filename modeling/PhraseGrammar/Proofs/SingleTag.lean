import PhraseGrammar.Engine.Basic
import PhraseGrammar.Proofs.Marks

set_option autoImplicit false

/-! # A single tag

A query that is one tag is expanded in one cycle: the tag draws a term and is replaced by it. But
the spaces of the query are halved between the two, and the tag is looked for as it read before.
So a tag with two adjacent spaces inside is drawn and stays (`Expander.apply_of_doubled`), and a
tag is consumed by its own draw (`Expander.ConsumedOnce`) exactly if it has no two adjacent
spaces.
-/

namespace PhraseGrammar

open Tag Text

/-! ## What a single tag chooses among -/

/-- The key names a category with the given alternatives, or it lists the given terms. -/
inductive KeyOf (g : Grammar) : Text → List Text → Prop
  | category {key : Text} {terms : List Text} :
      '/' ∉ key → g.get? key = some terms → terms ≠ [] → KeyOf g key terms
  | alternation {terms : List Text} :
      2 ≤ terms.length → (∀ t ∈ terms, '/' ∉ t) → KeyOf g (['/'].intercalate terms) terms

/-- A key without brackets, marker and label, and with terms that hold no tag and no article
mark. -/
structure SingleTag (g : Grammar) (key : Text) (terms : List Text) : Prop where
  keyOf : KeyOf g key terms
  bracketFree : BracketFree key
  no_label : '#' ∉ key
  no_marker : ∀ c ∈ key.head?, c ≠ '!' ∧ c ≠ '?'
  terms_free : ∀ t ∈ terms, BracketFree t ∧ '$' ∉ t

theorem KeyOf.terms_ne_nil {g : Grammar} {key : Text} {terms : List Text}
    (h : KeyOf g key terms) : terms ≠ [] := by
  cases h with
  | category _ _ hne => exact hne
  | alternation hlen _ =>
      rintro rfl
      simp at hlen

/-- A single tag is read as its key, without marker and label. -/
theorem SingleTag.ofInside_eq {g : Grammar} {key : Text} {terms : List Text}
    (h : SingleTag g key terms) :
    ofInside key = ⟨if key.contains '/' then .alternation else .named, key, none⟩ := by
  rw [ofInside_of_no_marker h.no_marker, ofBody, splitLabel_of_not_mem h.no_label]
  rfl

namespace Expander

variable {σ : Type} [WordSource σ] {x : Expander} {key : Text} {terms : List Text}

theorem meaning_of_keyOf (ho : x.overrides = []) (h : KeyOf x.grammar key terms) (d : Draws σ) :
    x.meaning key d = (.ok (choose terms d).1, (choose terms d).2) := by
  unfold meaning
  cases h with
  | category hs hg _ =>
      rw [if_neg (by simpa using hs), ho, List.lookup_nil]
      simp only [hg]
  | alternation hlen hterms =>
      have hne : terms ≠ [] := by
        rintro rfl
        simp at hlen
      have hs : '/' ∈ ['/'].intercalate terms := by
        obtain ⟨a, rest, rfl⟩ := List.exists_cons_of_ne_nil hne
        obtain ⟨b, rest, rfl⟩ : ∃ b rest', rest = b :: rest' := by
          refine List.exists_cons_of_ne_nil ?_
          rintro rfl
          simp at hlen
        rw [List.intercalate_cons_cons]
        simp
      rw [if_pos (by simpa using hs), List.splitOn_intercalate '/' hterms hne]

theorem textFor_of_singleTag (ho : x.overrides = []) (h : SingleTag x.grammar key terms)
    (d : Draws σ) :
    x.textFor (ofInside key) d = (.ok (choose terms d).1, (choose terms d).2) := by
  rw [h.ofInside_eq]
  unfold textFor
  cases key.contains '/' with
  | true => exact meaning_of_keyOf ho h.keyOf d
  | false => exact meaning_of_keyOf ho h.keyOf d

theorem kind_ne_hidden_of_singleTag {g : Grammar} (h : SingleTag g key terms) :
    (ofInside key).kind ≠ .hidden := by
  rw [h.ofInside_eq]
  cases key.contains '/' <;> simp

/-! ## The cycle of a single tag -/

/-- A tag without adjacent spaces is replaced, if its term is not too large. -/
theorem apply_of_single {new : Text} {limit : Nat} (hkey : ¬ Doubled key)
    (hsize : new.byteSize ≤ limit) :
    (Substitution.mk (bracketed key) (bracketed key) new).apply limit = .ok new := by
  have hpieces : pieces (bracketed key) (bracketed key) = [[], []] := by
    rw [pieces_of_isPrefixOf (bracketed_ne_nil key) (by simp)]
    simp
  have honce : (cut (bracketed key) (bracketed key)).occurrences = 1 := by
    have hlen := Cut.length_pieces (cut (bracketed key) (bracketed key))
    rw [← pieces, hpieces] at hlen
    simpa using hlen.symm
  -- the one occurrence is all of the query, so the new size is that of the term
  have hprojected : ¬ limit < Substitution.projectedSize (bracketed key) (bracketed key) new 1 := by
    unfold Substitution.projectedSize Count.add Count.mul
    omega
  unfold Substitution.apply
  dsimp only
  rw [halveSpaces_eq_self (mt doubled_bracketed.mp hkey), honce, if_neg hprojected]
  exact congrArg Except.ok (replace_target (bracketed_ne_nil key) new)

/-- **A tag with adjacent spaces is not replaced.** Its spaces are halved, and then it is not
found any more. -/
theorem apply_of_doubled {new query : Text} {limit : Nat} (hfree : BracketFree key)
    (hkey : Doubled key)
    (h : (Substitution.mk (bracketed key) (bracketed key) new).apply limit = .ok query) :
    query = bracketed key.halveSpaces := by
  obtain rfl := Substitution.eq_replace_of_apply h
  -- the halved key is shorter, so it is another one
  have hne : key.halveSpaces ≠ key := by
    intro heq
    have hlt := length_halve_lt hkey
    rw [← halveSpaces_eq_halve, heq] at hlt
    omega
  show replace (bracketed key) new (bracketed key).halveSpaces = _
  rw [halveSpaces_bracketed, replace_bracketed hfree.halveSpaces, if_neg hne]

/-- The draws of an expansion that begins with a tag. -/
def Draws.first (source : σ) : Draws σ := Draws.startTag { source }

theorem firstTag_bracketed (hfree : BracketFree key) :
    Query.FirstTag (bracketed key) key :=
  ⟨[], [], by simp, bracketFree_nil, hfree⟩

/-- One cycle expands a tag without adjacent spaces. -/
theorem expand_of_single (ho : x.overrides = []) (h : SingleTag x.grammar key terms)
    (hkey : ¬ Doubled key) (hlimit : 2 ≤ x.cycleLimit)
    (hsize : ∀ t ∈ terms, t.byteSize ≤ x.sizeLimit) (source : σ) :
    x.expand (bracketed key) source
      = (.ok (choose terms (Draws.first source)).1.trim,
          (choose terms (Draws.first source)).2) := by
  have hmem : (choose terms (Draws.first source)).1 ∈ terms :=
    (choose_mem terms (Draws.first source)).resolve_right h.keyOf.terms_ne_nil
  obtain ⟨hterm, hdollar⟩ := h.terms_free _ hmem
  obtain ⟨n, hn⟩ : ∃ n, x.cycleLimit - 1 = n + 1 := ⟨x.cycleLimit - 2, by omega⟩
  have hcycles : x.cycles (x.cycleLimit - 1) {} (bracketed key) { source }
      = (.ok (choose terms (Draws.first source)).1, (choose terms (Draws.first source)).2) := by
    rw [hn, cycles_firstTag x n _ (firstTag_bracketed h.bracketFree) (next?_of_ne (bracketed_ne_nil key)),
      ← Draws.first, textFor_of_singleTag ho h]
    dsimp only
    rw [placing_of_not_hidden (kind_ne_hidden_of_singleTag h), apply_of_single hkey (hsize _ hmem)]
    exact cycles_of_not_mem x n _ _ hterm.1
  unfold expand
  rw [hcycles]
  show ((finish (choose terms (Draws.first source)).1), _) = _
  rw [finish_of_not_mem hdollar]

/-- One cycle does not expand a tag with adjacent spaces. -/
theorem expand_of_doubled (ho : x.overrides = []) (h : SingleTag x.grammar key terms)
    (hkey : Doubled key) (hlimit : x.cycleLimit = 2) (source : σ) :
    ∃ e, (x.expand (bracketed key) source).1 = .error e := by
  have hcycles : ∃ e, (x.cycles (0 + 1) {} (bracketed key) { source }).1 = .error e := by
    rw [cycles_firstTag x 0 _ (firstTag_bracketed h.bracketFree) (next?_of_ne (bracketed_ne_nil key)),
      ← Draws.first, textFor_of_singleTag ho h]
    dsimp only
    rw [placing_of_not_hidden (kind_ne_hidden_of_singleTag h)]
    split
    · next e he => exact ⟨e, rfl⟩
    · next query hq =>
        rw [apply_of_doubled h.bracketFree hkey hq]
        exact cycles_zero_error x _ _ (by simp [bracketed])
  obtain ⟨e, he⟩ := hcycles
  refine ⟨e, ?_⟩
  unfold expand
  rw [hlimit]
  show ((x.cycles (0 + 1) {} (bracketed key) { source }).1.bind finish) = _
  rw [he]
  rfl

/-! ## Consumption -/

/-- The phrase of a single tag is one of its terms, trimmed, and the count of its options has
seen one choice among them. -/
def ConsumedOnce (x : Expander) (key : Text) (terms : List Text) (source : σ) : Prop :=
  (∃ t ∈ terms, (x.expand (bracketed key) source).1 = .ok t.trim) ∧
    (x.countOptions (bracketed key) source).1 = .ok ⟨2, min terms.length Count.largest⟩

theorem bounds_choose_first (hne : terms ≠ []) (source : σ) :
    (choose terms (Draws.first source)).2.estimate.bounds
      = ⟨2, min terms.length Count.largest⟩ := by
  obtain ⟨term, rest, rfl⟩ := List.exists_cons_of_ne_nil hne
  show (⟨Count.add 1 1, Count.mul 1 (Count.add 0 (rest.length + 1))⟩ : Bounds) = _
  have hlower : Count.add 1 1 = 2 := by decide
  have hupper : Count.mul 1 (Count.add 0 (rest.length + 1))
      = min (term :: rest).length Count.largest := by
    unfold Count.mul Count.add
    rw [List.length_cons]
    omega
  rw [hlower, hupper]

theorem consumedOnce_of_single (ho : x.overrides = []) (h : SingleTag x.grammar key terms)
    (hkey : ¬ Doubled key) (hlimit : 2 ≤ x.cycleLimit)
    (hsize : ∀ t ∈ terms, t.byteSize ≤ x.sizeLimit) (source : σ) :
    x.ConsumedOnce key terms source := by
  have hne := h.keyOf.terms_ne_nil
  constructor
  · refine ⟨(choose terms (Draws.first source)).1, (choose_mem _ _).resolve_right hne, ?_⟩
    rw [expand_of_single ho h hkey hlimit hsize]
  · have hexpand := expand_of_single (x := { x with counting := true }) ho h hkey hlimit hsize
      source
    unfold countOptions
    rw [hexpand]
    exact congrArg Except.ok (bounds_choose_first hne source)

/-- **A tag is consumed by its own draw exactly if it has no two adjacent spaces inside.** No
override is given, two cycles and the sizes of the query and of every term are within the limits,
and beyond that limits and source are arbitrary. -/
theorem consumedOnce_iff {g : Grammar} (h : SingleTag g key terms) (source : σ) :
    (∀ x : Expander, x.grammar = g → x.overrides = [] → 2 ≤ x.cycleLimit →
      (bracketed key).byteSize ≤ x.sizeLimit → (∀ t ∈ terms, t.byteSize ≤ x.sizeLimit) →
      x.ConsumedOnce key terms source) ↔ ¬ Doubled key := by
  constructor
  · intro hall hkey
    -- with the least number of cycles, the halved tag is left
    obtain ⟨largest, hsizes⟩ : ∃ n, ∀ t ∈ bracketed key :: terms, t.byteSize ≤ n :=
      ⟨((bracketed key :: terms).map byteSize).max (by simp),
        fun t ht => List.le_max_of_mem (List.mem_map_of_mem ht)⟩
    let x : Expander := { grammar := g, cycleLimit := 2, sizeLimit := largest }
    obtain ⟨⟨t, -, hok⟩, -⟩ := hall x rfl rfl (Nat.le_refl 2) (hsizes _ List.mem_cons_self)
      fun t ht => hsizes t (List.mem_cons_of_mem _ ht)
    obtain ⟨e, he⟩ := expand_of_doubled (x := x) rfl h hkey rfl source
    rw [he] at hok
    cases hok
  · rintro hkey x rfl ho hlimit - hsize
    exact consumedOnce_of_single ho h hkey hlimit hsize source

/-! ### Names with one space and with two -/

/-- The category `b  c`, with two spaces in its name. -/
def wide : Grammar where
  categories := [(['b', ' ', ' ', 'c'], [['l'], ['t']])]

/-- The category `b c`, with one. -/
def narrow : Grammar where
  categories := [(['b', ' ', 'c'], [['l'], ['t']])]

theorem wide_singleTag : SingleTag wide ['b', ' ', ' ', 'c'] [['l'], ['t']] :=
  ⟨.category (by decide) rfl (by decide), by decide, by decide, by simp, by decide⟩

theorem narrow_singleTag : SingleTag narrow ['b', ' ', 'c'] [['l'], ['t']] :=
  ⟨.category (by decide) rfl (by decide), by decide, by decide, by simp, by decide⟩

theorem narrow_consumedOnce_wide_not :
    (∀ x : Expander, x.grammar = narrow → x.overrides = [] → 2 ≤ x.cycleLimit →
      (bracketed ['b', ' ', 'c']).byteSize ≤ x.sizeLimit →
      (∀ t ∈ [['l'], ['t']], byteSize t ≤ x.sizeLimit) →
      x.ConsumedOnce ['b', ' ', 'c'] [['l'], ['t']] (Keystream.ofSeed 7)) ∧
    ¬ ∀ x : Expander, x.grammar = wide → x.overrides = [] → 2 ≤ x.cycleLimit →
      (bracketed ['b', ' ', ' ', 'c']).byteSize ≤ x.sizeLimit →
      (∀ t ∈ [['l'], ['t']], byteSize t ≤ x.sizeLimit) →
      x.ConsumedOnce ['b', ' ', ' ', 'c'] [['l'], ['t']] (Keystream.ofSeed 7) := by
  constructor
  · exact (consumedOnce_iff narrow_singleTag (Keystream.ofSeed 7)).mpr (by decide)
  · intro hall
    exact (consumedOnce_iff wide_singleTag (Keystream.ofSeed 7)).mp hall (by decide)

/-- An engine with the category `b  c` does not know it in a tag. -/
theorem wide_unknownKey :
    SingleTag wide ['b', ' ', ' ', 'c'] [['l'], ['t']] ∧
      (Engine.phrase ⟨wide, .default, Keystream.ofSeed 7⟩ (bracketed ['b', ' ', ' ', 'c'])).1
        = .error (.expansion (.unknownKey ['b', ' ', 'c'])) :=
  ⟨wide_singleTag, by decide +kernel⟩

end Expander

end PhraseGrammar
