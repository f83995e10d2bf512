import PhraseGrammar.Expansion.Basic
import PhraseGrammar.Proofs.Replacement
import Mathlib.Data.List.TakeWhile

set_option autoImplicit false

/-! # The first tag of a query

A cycle takes the text from the first opening bracket to the first closing one. If that text is
read as a tag, then no bracket stands before it and none inside of it: the query has a *first
tag* (`Query.FirstTag`). Conversely a first tag is what the cycle finds. All that is known of a
tag's marker, key and label is read off its inside.
-/

namespace PhraseGrammar

/-! ## Reading a tag -/

namespace Text

theorem bracketFree_iff {t : Text} : BracketFree t ↔ ∀ c ∈ t, Tag.isBracket c = false := by
  simp only [BracketFree, Tag.isBracket, Bool.or_eq_false_iff, beq_eq_false_iff_ne]
  constructor
  · intro h c hc
    exact ⟨fun h1 => h.1 (h1 ▸ hc), fun h2 => h.2 (h2 ▸ hc)⟩
  · intro h
    exact ⟨fun hc => (h _ hc).1 rfl, fun hc => (h _ hc).2 rfl⟩

theorem beq_eq_false_of_not_mem {t : Text} {c : Char} (h : c ∉ t) :
    ∀ a ∈ t, (a == c) = false := by
  intro a ha
  rw [beq_eq_false_iff_ne]
  rintro rfl
  exact h ha

theorem bne_of_not_mem {t : Text} {c : Char} (h : c ∉ t) : ∀ a ∈ t, (a != c) = true :=
  fun a ha => by rw [bne, beq_eq_false_of_not_mem h a ha, Bool.not_false]

/-- The column of a character is the size of what stands before it. -/
theorem columnOf?_append_cons {p : Char → Bool} {lead rest : Text} {c : Char}
    (hlead : ∀ a ∈ lead, p a = false) (hc : p c = true) :
    columnOf? p (lead ++ c :: rest) = some lead.byteSize := by
  have hany : (lead ++ c :: rest).any p = true := by simp [hc]
  rw [columnOf?_eq, if_pos hany, List.takeWhile_append_of_pos (by simpa using hlead)]
  simp [hc]

/-- What is kept by cutting at a character holds of all pieces of a text cut there. -/
theorem forall_mem_splitOn {P : Text → Prop} {c : Char}
    (hP : ∀ u v : Text, P (u ++ c :: v) → P u ∧ P v) {t : Text} (h : P t) :
    ∀ s ∈ t.splitOn c, P s := by
  have hall : ∀ pieces : List Text, P ([c].intercalate pieces) → ∀ s ∈ pieces, P s := by
    intro pieces
    induction pieces with
    | nil => simp
    | cons a pieces ih =>
        intro h s hs
        cases pieces with
        | nil =>
            obtain rfl := List.mem_singleton.mp hs
            simpa using h
        | cons b pieces =>
            rw [List.intercalate_cons_cons, List.append_assoc] at h
            obtain ⟨ha, hrest⟩ := hP _ _ h
            rcases List.mem_cons.mp hs with rfl | hs
            · exact ha
            · exact ih hrest s hs
  exact hall _ (by rwa [List.intercalate_splitOn])

end Text

namespace Tag

open Text

@[simp] theorem inside?_bracketed (b : Text) : inside? (bracketed b) = some b := by
  simp [inside?, bracketed]

theorem parse_bracketed {b : Text} (hb : BracketFree b) :
    parse (bracketed b) = .ok (ofInside b) := by
  simp only [parse, inside?_bracketed]
  rw [columnOf?_eq_none.mpr (bracketFree_iff.mp hb)]

/-- Only a text in brackets has an inside. -/
theorem eq_bracketed_of_inside {t b : Text} (h : inside? t = some b) : t = bracketed b := by
  unfold inside? at h
  split at h
  · next rest =>
      split at h
      · next hlast =>
          cases h
          have hne : rest ≠ [] := by
            rintro rfl
            simp at hlast
          have hget : rest.getLast hne = ']' := by
            rw [List.getLast?_eq_some_getLast hne] at hlast
            exact Option.some.inj hlast
          rw [bracketed, ← hget, List.dropLast_append_getLast]
      · cases h
  · cases h

/-- What is read as a tag stands in brackets and holds no other bracket. -/
theorem eq_bracketed_of_parse {t : Text} {tag : Tag} (h : parse t = .ok tag) :
    ∃ b, t = bracketed b ∧ BracketFree b ∧ tag = ofInside b := by
  unfold parse at h
  split at h
  · cases h
  · next inside hin =>
      split at h
      · cases h
      · next hcol =>
          cases h
          exact ⟨inside, eq_bracketed_of_inside hin,
            bracketFree_iff.mpr (columnOf?_eq_none.mp hcol), rfl⟩

/-- A body is a key and a label: nothing is lost. -/
@[simp] theorem body_ofBody (marker : Option Kind) (b : Text) : (ofBody marker b).body = b := by
  have hb := List.takeWhile_append_dropWhile (p := (· != '#')) (l := b)
  simp only [body, ofBody, splitLabel, List.span_eq_takeWhile_dropWhile]
  cases hd : b.dropWhile (· != '#') with
  | nil => simpa [hd] using hb
  | cons c label =>
      have hc : c = '#' := by
        have h := List.head?_dropWhile_not (· != '#') b
        rw [hd] at h
        simpa using h
      rw [hd, hc] at hb
      exact hb

/-- The key is what stands before the first label mark. -/
theorem key_ofBody (marker : Option Kind) (b : Text) :
    (ofBody marker b).key = b.takeWhile (· != '#') := by
  show (splitLabel b).1 = _
  unfold splitLabel
  rw [List.span_eq_takeWhile_dropWhile]
  cases b.dropWhile (· != '#') <;> rfl

/-- The key and the label of a body whose key holds no label mark. -/
theorem splitLabel_body {tag : Tag} (h : '#' ∉ tag.key) :
    splitLabel tag.body = (tag.key, tag.label) := by
  have hkey := bne_of_not_mem h
  obtain ⟨kind, key, label⟩ := tag
  simp only [splitLabel, body, List.span_eq_takeWhile_dropWhile]
  cases label with
  | none =>
      dsimp only at hkey ⊢
      rw [List.takeWhile_eq_self_iff.mpr hkey, List.dropWhile_eq_nil_iff.mpr hkey]
  | some label =>
      dsimp only at hkey ⊢
      rw [List.takeWhile_append_of_pos hkey, List.dropWhile_append_of_pos hkey]
      simp

/-- Without a label mark, all of the body is the key. -/
theorem splitLabel_of_not_mem {t : Text} (h : '#' ∉ t) : splitLabel t = (t, none) := by
  have hsplit : splitLabel (body ⟨.named, t, none⟩) = (t, none) := splitLabel_body h
  exact hsplit

/-- Without a marker, all of the inside is the body. -/
theorem ofInside_of_no_marker {b : Text} (h : ∀ c ∈ b.head?, c ≠ '!' ∧ c ≠ '?') :
    ofInside b = ofBody none b := by
  unfold ofInside
  split
  · exact absurd rfl (h '!' rfl).1
  · exact absurd rfl (h '?' rfl).2
  · rfl

/-- What is kept by cutting at the marker and at the label holds of the key of a tag. -/
theorem key_of_cut {P : Text → Prop}
    (hP : ∀ c ∈ ['!', '?', '#'], ∀ u v : Text, P (u ++ c :: v) → P u ∧ P v) {inside : Text}
    (h : P inside) : P (ofInside inside).key := by
  have hbody : ∀ marker body, P body → P (ofBody marker body).key := by
    intro marker body hb
    rw [← body_ofBody marker body, Tag.body] at hb
    cases hlabel : (ofBody marker body).label with
    | none => simpa [hlabel] using hb
    | some label =>
        rw [hlabel] at hb
        exact (hP '#' (by decide) _ _ hb).1
  unfold ofInside
  split
  · exact hbody _ _ (hP '!' (by decide) [] _ h).2
  · exact hbody _ _ (hP '?' (by decide) [] _ h).2
  · exact hbody _ _ h

theorem ofInside_of_hidden {b : Text} (h : (ofInside b).kind = .hidden) :
    ∃ body, b = '!' :: body := by
  unfold ofInside at h
  split at h
  · exact ⟨_, rfl⟩
  · simp [ofBody] at h
  · simp only [ofBody, Option.getD_none] at h
    split at h <;> cases h

theorem ofInside_of_optional {b : Text} (h : (ofInside b).kind = .optional) :
    ∃ body, b = '?' :: body := by
  unfold ofInside at h
  split at h
  · simp [ofBody] at h
  · exact ⟨_, rfl⟩
  · simp only [ofBody, Option.getD_none] at h
    split at h <;> cases h

@[simp] theorem unmarked_ofInside_hidden (body : Text) :
    (ofInside ('!' :: body)).unmarked = bracketed body := by
  simp [unmarked, ofInside]

end Tag

/-! ## The first tag of a query -/

namespace Query

open Text Tag

/-- The query holds a tag with the given inside, and no bracket before it. -/
def FirstTag (query inside : Text) : Prop :=
  ∃ lead rest, query = lead ++ bracketed inside ++ rest ∧ BracketFree lead ∧ BracketFree inside

theorem FirstTag.bracketFree {query inside : Text} (h : FirstTag query inside) :
    BracketFree inside := by
  obtain ⟨-, -, -, -, hinside⟩ := h
  exact hinside

/-- The first opening bracket is that of the first tag. -/
theorem FirstTag.opening_mem {query inside : Text} (h : FirstTag query inside) :
    '[' ∈ query := by
  obtain ⟨lead, rest, rfl, -, -⟩ := h
  rw [append_bracketed_append]
  simp

theorem firstOpening?_append_cons {lead rest : Text} (h : '[' ∉ lead) :
    firstOpening? (lead ++ '[' :: rest) = some lead.byteSize :=
  columnOf?_append_cons (beq_eq_false_of_not_mem h) rfl

theorem firstClosing?_append_cons {lead rest : Text} (h : ']' ∉ lead) :
    firstClosing? (lead ++ ']' :: rest) = some lead.byteSize :=
  columnOf?_append_cons (beq_eq_false_of_not_mem h) rfl

theorem firstOpening?_eq_none {query : Text} : firstOpening? query = none ↔ '[' ∉ query := by
  unfold firstOpening?
  rw [columnOf?_eq_none]
  simp only [beq_eq_false_iff_ne]
  exact ⟨fun h hc => h _ hc rfl, fun h c hc hc' => h (hc' ▸ hc)⟩

theorem exists_firstOpening? {query : Text} (h : '[' ∈ query) :
    ∃ opening, firstOpening? query = some opening :=
  Option.ne_none_iff_exists'.mp (mt firstOpening?_eq_none.mp (not_not_intro h))

theorem opening_mem_of_firstOpening? {query : Text} {opening : Nat}
    (h : firstOpening? query = some opening) : '[' ∈ query := by
  by_contra hc
  rw [firstOpening?_eq_none.mpr hc] at h
  cases h

theorem firstClosing?_eq_none {query : Text} : firstClosing? query = none ↔ ']' ∉ query := by
  unfold firstClosing?
  rw [columnOf?_eq_none]
  simp only [beq_eq_false_iff_ne]
  exact ⟨fun h hc => h _ hc rfl, fun h c hc hc' => h (hc' ▸ hc)⟩

/-- A first tag is found. -/
theorem FirstTag.tagAt {query inside : Text} (h : FirstTag query inside) :
    ∃ opening, firstOpening? query = some opening
      ∧ tagAt opening query = .ok (bracketed inside) := by
  obtain ⟨lead, rest, rfl, hlead, hinside⟩ := h
  have hopening := append_bracketed_append lead inside rest
  have hclosing : lead ++ bracketed inside ++ rest = (lead ++ '[' :: inside) ++ ']' :: rest := by
    simp [bracketed]
  refine ⟨lead.byteSize, by rw [hopening, firstOpening?_append_cons hlead.1], ?_⟩
  -- no bracket stands before the tag or inside of it, so the first of either kind are its own
  have hcol : firstClosing? (lead ++ bracketed inside ++ rest)
      = some (lead ++ '[' :: inside).byteSize := by
    rw [hclosing]
    exact firstClosing?_append_cons (by simp [hlead.2, hinside.2])
  unfold Query.tagAt
  simp only [hcol, byteSize_append]
  rw [if_neg (by omega), hopening,
    List.dropWhile_append_of_pos (bne_of_not_mem hlead.1)]
  simp [bracketed, List.takeWhile_append_of_pos (bne_of_not_mem hinside.2)]

/-- A query has no more than one first tag. -/
theorem FirstTag.unique {query inside inside' : Text} (h : FirstTag query inside)
    (h' : FirstTag query inside') : inside = inside' := by
  obtain ⟨opening, ho, hf⟩ := h.tagAt
  obtain ⟨opening', ho', hf'⟩ := h'.tagAt
  rw [ho] at ho'
  cases ho'
  rw [hf] at hf'
  exact bracketed_injective (Except.ok.inj hf')

/-- What is found stands in brackets, and no bracket stands before it. -/
theorem eq_append_of_tagAt {query found : Text} {opening : Nat}
    (ho : firstOpening? query = some opening) (h : tagAt opening query = .ok found) :
    ∃ lead inside rest, query = lead ++ bracketed inside ++ rest ∧ BracketFree lead
      ∧ ']' ∉ inside ∧ found = bracketed inside := by
  obtain ⟨lead, tail, rfl, hlead⟩ :=
    List.eq_append_cons_of_mem (opening_mem_of_firstOpening? ho)
  rw [firstOpening?_append_cons hlead] at ho
  cases ho
  unfold tagAt at h
  split at h
  · cases h
  · next closing hclosing =>
      split at h
      · cases h
      · next hle =>
          cases h
          have hmem' : ']' ∈ lead ++ '[' :: tail := by
            by_contra hc
            rw [firstClosing?_eq_none.mpr hc] at hclosing
            cases hclosing
          obtain ⟨upTo, rest, heq, hupTo⟩ := List.eq_append_cons_of_mem hmem'
          rw [heq, firstClosing?_append_cons hupTo] at hclosing
          cases hclosing
          -- the first closing bracket stands behind the first opening one
          rcases List.append_eq_append_iff.mp heq with ⟨a, hu, ht⟩ | ⟨a, hl, ht⟩
          · cases a with
            | nil => simp at ht
            | cons b inside =>
                obtain ⟨rfl, rfl⟩ : b = '[' ∧ tail = inside ++ ']' :: rest := by
                  simpa [eq_comm] using ht
                subst hu
                simp only [List.mem_append, List.mem_cons, not_or] at hupTo
                refine ⟨lead, inside, rest, by simp [bracketed], ⟨hlead, hupTo.1⟩, hupTo.2.2, ?_⟩
                rw [List.dropWhile_append_of_pos (bne_of_not_mem hlead)]
                simp [bracketed, List.takeWhile_append_of_pos (bne_of_not_mem hupTo.2.2)]
          · cases a with
            | nil => simp at ht
            | cons b a =>
                obtain ⟨rfl, -⟩ : b = ']' ∧ _ := by simpa [eq_comm] using ht
                refine absurd ?_ hle
                rw [hl, byteSize_append, byteSize_cons]
                have := Char.utf8Size_pos ']'
                omega

/-- What is found and read as a tag is the first tag. -/
theorem firstTag_of_parse {query found : Text} {opening : Nat} {tag : Tag}
    (ho : firstOpening? query = some opening) (h : tagAt opening query = .ok found)
    (hp : Tag.parse found = .ok tag) :
    ∃ inside, FirstTag query inside ∧ found = bracketed inside ∧ tag = ofInside inside := by
  obtain ⟨lead, inside, rest, hq, hlead, -, hf⟩ := eq_append_of_tagAt ho h
  obtain ⟨b, hb, hfree, htag⟩ := eq_bracketed_of_parse hp
  obtain rfl : inside = b := bracketed_injective (hf.symm.trans hb)
  exact ⟨inside, ⟨lead, rest, hq, hlead, hfree⟩, hf, htag⟩

end Query

end PhraseGrammar
