import PhraseGrammar.Proofs.FirstTag

set_option autoImplicit false

/-! # The syntax of tags

Reading and writing tags are inverse to each other. What is read as a tag is the written form of
that tag, and a tag is read from its written form exactly if it is *legible* (`Tag.Legible`): its
body holds no bracket, its key no label mark, and without a marker it neither begins like one nor
has another kind than its key asks for. So the tags that are read are the legible ones
(`Tag.parse_eq_ok_iff`), and every other text fails for one of two reasons (`Tag.Unreadable`).

The marker may stand before a body that begins like a marker, and then the tag without its marker
is no longer the tag with the same key. Everywhere else it is (`Tag.parse_unmarked`).
-/

namespace PhraseGrammar.Tag

open Text

/-! ## Bodies and markers -/

/-- A body that does not begin like a marker. -/
def NoMarker (body : Text) : Prop := ∀ c ∈ body.head?, c ≠ '!' ∧ c ≠ '?'

instance : DecidablePred NoMarker
  | [] => .isTrue (by simp [NoMarker])
  | c :: _ => decidable_of_iff (c ≠ '!' ∧ c ≠ '?') (by simp [NoMarker])

/-- The kind of a tag without a marker. -/
def kindOf (key : Text) : Kind := if '/' ∈ key then .alternation else .named

/-- A tag that is what its written form says. -/
structure Legible (tag : Tag) : Prop where
  bracketFree : BracketFree tag.body
  /-- The label starts behind the first `#`. -/
  no_label_mark : '#' ∉ tag.key
  /-- Without a marker the key settles the kind. -/
  unmarked : tag.kind.marker = [] →
    NoMarker tag.body ∧ (tag.kind = .alternation ↔ '/' ∈ tag.key)

theorem kindOf_eq_alternation {key : Text} : kindOf key = .alternation ↔ '/' ∈ key := by
  unfold kindOf
  split <;> simp_all

theorem marker_kindOf (key : Text) : (kindOf key).marker = [] := by
  unfold kindOf
  split <;> rfl

/-- Without a marker there are two kinds, and a slash tells them apart. -/
theorem eq_kindOf {tag : Tag} (hmarker : tag.kind.marker = [])
    (hslash : tag.kind = .alternation ↔ '/' ∈ tag.key) : tag.kind = kindOf tag.key := by
  unfold kindOf
  split
  · next h => exact hslash.mpr h
  · next h =>
      cases hkind : tag.kind with
      | hidden => simp [hkind, Kind.marker] at hmarker
      | optional => simp [hkind, Kind.marker] at hmarker
      | alternation => exact absurd (hslash.mp hkind) h
      | named => rfl

theorem not_mem_key_ofBody (marker : Option Kind) (b : Text) : '#' ∉ (ofBody marker b).key := by
  intro h
  rw [key_ofBody] at h
  simpa using List.mem_takeWhile_imp h

theorem kind_ofBody (b : Text) : (ofBody none b).kind = kindOf (ofBody none b).key := by
  show (if (splitLabel b).1.contains '/' then _ else _) = kindOf (splitLabel b).1
  simp [kindOf]

/-- A body with its marker, or without one, is read as the tag with this body. -/
theorem ofBody_body {tag : Tag} (h : '#' ∉ tag.key) (marker : Option Kind) :
    ofBody marker tag.body
      = { tag with kind := marker.getD (kindOf tag.key) } := by
  unfold ofBody
  rw [splitLabel_body h]
  simp [kindOf]

/-! ## Reading what was written -/

/-- The inside of a tag, with its marker and without its brackets. -/
def inside (tag : Tag) : Text := tag.kind.marker ++ tag.body

theorem render_eq (tag : Tag) : tag.render = bracketed tag.inside := rfl

/-- Reading the inside of a legible tag gives the tag back. -/
theorem ofInside_inside {tag : Tag} (h : tag.Legible) : ofInside tag.inside = tag := by
  have hbody := ofBody_body h.no_label_mark
  cases hkind : tag.kind with
  | hidden =>
      have hinside : tag.inside = '!' :: tag.body := by rw [inside, hkind]; rfl
      rw [hinside, ofInside, hbody, Option.getD_some, ← hkind]
  | optional =>
      have hinside : tag.inside = '?' :: tag.body := by rw [inside, hkind]; rfl
      rw [hinside, ofInside, hbody, Option.getD_some, ← hkind]
  | alternation | named =>
      have hmarker : tag.kind.marker = [] := by rw [hkind]; rfl
      obtain ⟨hno, hslash⟩ := h.unmarked hmarker
      have hinside : tag.inside = tag.body := by rw [inside, hmarker, List.nil_append]
      rw [hinside, ofInside_of_no_marker hno, hbody, Option.getD_none, ← eq_kindOf hmarker hslash]

theorem bracketFree_inside {tag : Tag} : BracketFree tag.inside ↔ BracketFree tag.body := by
  unfold inside
  rw [bracketFree_append]
  exact and_iff_right (by cases tag.kind <;> decide)

/-- A legible tag is read from its written form. -/
theorem parse_render {tag : Tag} (h : tag.Legible) : parse tag.render = .ok tag := by
  rw [render_eq, parse_bracketed (bracketFree_inside.mpr h.bracketFree), ofInside_inside h]

/-! ## Writing what was read -/

/-- Nothing of the inside is lost. -/
theorem inside_ofInside (b : Text) : (ofInside b).inside = b := by
  unfold ofInside inside
  split
  · rw [body_ofBody]
    rfl
  · rw [body_ofBody]
    rfl
  · rw [body_ofBody, kind_ofBody, marker_kindOf, List.nil_append]

/-- What is read is legible. -/
theorem legible_ofInside {b : Text} (h : BracketFree b) : (ofInside b).Legible where
  bracketFree := by rwa [← bracketFree_inside, inside_ofInside]
  no_label_mark := by
    unfold ofInside
    split <;> exact not_mem_key_ofBody _ _
  unmarked := by
    intro hmarker
    unfold ofInside at hmarker ⊢
    split at hmarker
    · cases hmarker
    · cases hmarker
    · next hhidden hoptional =>
        rw [body_ofBody, kind_ofBody]
        refine ⟨?_, kindOf_eq_alternation⟩
        rintro c hc
        obtain ⟨rest, rfl⟩ := List.head?_eq_some_iff.mp hc
        exact ⟨fun h => hhidden rest (h ▸ rfl), fun h => hoptional rest (h ▸ rfl)⟩

/-- **Reading is the inverse of writing**, on the legible tags. -/
theorem parse_eq_ok_iff {t : Text} {tag : Tag} :
    parse t = .ok tag ↔ tag.Legible ∧ t = tag.render := by
  constructor
  · intro h
    obtain ⟨b, rfl, hb, rfl⟩ := eq_bracketed_of_parse h
    exact ⟨legible_ofInside hb, by rw [render_eq, inside_ofInside]⟩
  · rintro ⟨h, rfl⟩
    exact parse_render h

/-! ## Texts that are not read -/

/-- Why a text is not read as a tag: a bracket stands in it, at the column of the first one, or
the text does not stand in brackets. -/
inductive Unreadable : Text → ExpansionError → Prop
  | nestedBracket {lead : Text} {c : Char} (rest : Text) :
      BracketFree lead → c = '[' ∨ c = ']' →
      Unreadable (bracketed (lead ++ c :: rest))
        (.nestedBracket lead.byteSize (bracketed (lead ++ c :: rest)))
  | notBracketed {t : Text} : (∀ b, t ≠ bracketed b) → Unreadable t (.notBracketed t)

/-- A text that is not free of brackets has a first one. -/
theorem exists_first_bracket {b : Text} (h : ¬ BracketFree b) :
    ∃ lead c rest, b = lead ++ c :: rest ∧ BracketFree lead ∧ (c = '[' ∨ c = ']') := by
  induction b with
  | nil => exact absurd bracketFree_nil h
  | cons a b ih =>
      by_cases ha : a = '[' ∨ a = ']'
      · exact ⟨[], a, b, rfl, bracketFree_nil, ha⟩
      · rw [bracketFree_cons, ← not_or] at h
        obtain ⟨lead, c, rest, rfl, hlead, hc⟩ := ih fun hb => h ⟨ha, hb⟩
        exact ⟨a :: lead, c, rest, rfl, bracketFree_cons.mpr ⟨not_or.mp ha, hlead⟩, hc⟩

theorem parse_of_unreadable {t : Text} {error : ExpansionError} (h : Unreadable t error) :
    parse t = .error error := by
  unfold parse
  cases h with
  | @nestedBracket lead c rest hlead hc =>
      have hbracket : isBracket c = true := by
        rcases hc with rfl | rfl <;> rfl
      rw [inside?_bracketed]
      dsimp only
      rw [columnOf?_append_cons (bracketFree_iff.mp hlead) hbracket]
  | notBracketed hnot =>
      have hnone : inside? t = none := by
        rw [Option.eq_none_iff_forall_not_mem]
        intro b hb
        exact hnot b (eq_bracketed_of_inside hb)
      rw [hnone]

/-- A text in brackets is read exactly if no bracket stands between them. -/
theorem exists_parse_eq_ok_iff {t : Text} :
    (∃ tag, parse t = .ok tag) ↔ ∃ b, t = bracketed b ∧ BracketFree b := by
  constructor
  · rintro ⟨tag, h⟩
    obtain ⟨b, ht, hb, -⟩ := eq_bracketed_of_parse h
    exact ⟨b, ht, hb⟩
  · rintro ⟨b, rfl, hb⟩
    exact ⟨ofInside b, parse_bracketed hb⟩

theorem exists_unreadable {t : Text} (h : ¬ ∃ b, t = bracketed b ∧ BracketFree b) :
    ∃ error, Unreadable t error := by
  by_cases ht : ∃ b, t = bracketed b
  · obtain ⟨b, rfl⟩ := ht
    obtain ⟨lead, c, rest, rfl, hlead, hc⟩ := exists_first_bracket fun hb => h ⟨b, rfl, hb⟩
    exact ⟨_, .nestedBracket rest hlead hc⟩
  · exact ⟨_, .notBracketed (not_exists.mp ht)⟩

/-- **The two reasons** are the only ones, and each of them has its error. -/
theorem parse_eq_error_iff {t : Text} {error : ExpansionError} :
    parse t = .error error ↔ Unreadable t error := by
  constructor
  · intro h
    have hnot : ¬ ∃ b, t = bracketed b ∧ BracketFree b := by
      intro hb
      obtain ⟨tag, htag⟩ := exists_parse_eq_ok_iff.mpr hb
      rw [h] at htag
      cases htag
    obtain ⟨error', hreason⟩ := exists_unreadable hnot
    rw [parse_of_unreadable hreason] at h
    obtain rfl : error' = error := Except.error.inj h
    exact hreason
  · exact parse_of_unreadable

/-! ## The tag without its marker -/

/-- The tag without its marker, as a tag. -/
def withoutMarker (tag : Tag) : Tag := { tag with kind := kindOf tag.key }

theorem render_withoutMarker (tag : Tag) : tag.withoutMarker.render = tag.unmarked := by
  show bracketed ((kindOf tag.key).marker ++ tag.body) = bracketed tag.body
  rw [marker_kindOf, List.nil_append]

/-- Without its marker a tag is the tag with the same key and the same label, unless its body
begins like a marker. -/
theorem parse_unmarked {tag : Tag} (h : tag.Legible) (hno : NoMarker tag.body) :
    parse tag.unmarked = .ok tag.withoutMarker := by
  rw [← render_withoutMarker]
  exact parse_render
    { bracketFree := h.bracketFree
      no_label_mark := h.no_label_mark
      unmarked := fun _ => ⟨hno, kindOf_eq_alternation⟩ }

/-! ## The syntax -/

/-- **What a text shows of the tag** that it is read as. -/
structure Shows (t : Text) (tag : Tag) : Prop where
  /-- The first character tells hidden and optional tags. -/
  hidden : tag.kind = .hidden ↔ ∃ rest, t = '[' :: '!' :: rest
  optional : tag.kind = .optional ↔ ∃ rest, t = '[' :: '?' :: rest
  /-- The tag without its marker is the rest of the text. -/
  unmarked : ∃ rest, t = '[' :: (tag.kind.marker ++ rest) ∧ tag.unmarked = '[' :: rest
  reread : NoMarker tag.body → parse tag.unmarked = .ok tag.withoutMarker

/-- The inside of a legible tag begins with a marker exactly if the tag has it. -/
theorem Legible.head?_inside {tag : Tag} (h : tag.Legible) :
    (tag.kind = .hidden ↔ tag.inside.head? = some '!') ∧
      (tag.kind = .optional ↔ tag.inside.head? = some '?') := by
  unfold inside
  cases hkind : tag.kind with
  | hidden => simp [Kind.marker]
  | optional => simp [Kind.marker]
  | alternation | named =>
      obtain ⟨hno, -⟩ := h.unmarked (by rw [hkind]; rfl)
      have hhidden : tag.body.head? ≠ some '!' := fun hc => (hno '!' hc).1 rfl
      have hoptional : tag.body.head? ≠ some '?' := fun hc => (hno '?' hc).2 rfl
      simp [Kind.marker, hhidden, hoptional]

theorem head?_eq_some_iff_bracketed {b : Text} {c : Char} (hc : c ≠ ']') :
    b.head? = some c ↔ ∃ rest, bracketed b = '[' :: c :: rest := by
  cases b with
  | nil => simp [bracketed, hc.symm]
  | cons a b => simp [bracketed]

theorem Legible.shows {tag : Tag} (h : tag.Legible) : Shows tag.render tag where
  hidden := by
    rw [h.head?_inside.1]
    exact head?_eq_some_iff_bracketed (by decide)
  optional := by
    rw [h.head?_inside.2]
    exact head?_eq_some_iff_bracketed (by decide)
  unmarked := ⟨tag.body ++ [']'], by simp [render, bracketed], rfl⟩
  reread := parse_unmarked h

/-- **The syntax of tags.** A text is read as a tag exactly if it stands in brackets with no
bracket between them. Reading is then the inverse of writing: the tag is legible and the text is
its written form, and every legible tag is read from its written form. The text shows the kind of
the tag, and without its marker it is read as the tag with the same key and label, unless that
begins like a marker. Every other text fails for one of two reasons, and tells it. -/
theorem parse_spec (t : Text) :
    ((∃ tag, parse t = .ok tag) ↔ ∃ b, t = bracketed b ∧ BracketFree b) ∧
    (∀ tag, parse t = .ok tag ↔ tag.Legible ∧ t = tag.render) ∧
    (∀ tag, parse t = .ok tag → Shows t tag) ∧
    ∀ error, parse t = .error error ↔ Unreadable t error := by
  refine ⟨exists_parse_eq_ok_iff, fun _ => parse_eq_ok_iff, ?_, fun _ => parse_eq_error_iff⟩
  intro tag h
  obtain ⟨hlegible, rfl⟩ := parse_eq_ok_iff.mp h
  exact hlegible.shows

/-! ### A tag with all its parts -/

/-- An optional tag with a slash in its key, and a slash and a label mark in its label. -/
def fullTag : Tag := ⟨.optional, ['ä', '/', 'b'], some ['c', '/', '#', '!']⟩

example : fullTag.render = "[?ä/b#c/#!]".toList := by decide

theorem fullTag_parse_spec :
    (fullTag.Legible ∧ NoMarker fullTag.body) ∧
    parse fullTag.render = .ok fullTag ∧
    parse fullTag.unmarked = .ok { fullTag with kind := .alternation } ∧
    parse (bracketed ['ä', ']', '[']) = .error (.nestedBracket 2 (bracketed ['ä', ']', '['])) := by
  obtain ⟨-, hread, hshows, -⟩ := parse_spec fullTag.render
  obtain ⟨-, -, -, herror⟩ := parse_spec (bracketed ['ä', ']', '['])
  have hlegible : fullTag.Legible := ⟨by decide, by decide, by decide⟩
  have hno : NoMarker fullTag.body := by decide
  have hparse : parse fullTag.render = .ok fullTag := (hread fullTag).mpr ⟨hlegible, rfl⟩
  refine ⟨⟨hlegible, hno⟩, hparse, (hshows fullTag hparse).reread hno, (herror _).mpr ?_⟩
  exact @Unreadable.nestedBracket ['ä'] ']' ['['] (by decide) (Or.inr rfl)

end PhraseGrammar.Tag
