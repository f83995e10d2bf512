import PhraseGrammar.Proofs.Marks
import PhraseGrammar.Random.Keystream

set_option autoImplicit false

/-! # Articles in the outcome

What becomes of the marks of articles, said without a search for them. A marked text is a lead
and a list of segments, each of them a mark with the text behind it up to the next mark
(`Article.Segment`). With its articles in place, a mark reads `an` if the first character behind
it that is not blank is a vowel, and `a` otherwise (`Article.indefinite`). If no dollar sign
stands in a query or in a text that can come into it, then a query without tags left is such a
text, and its phrase is the same text with the articles in place
(`Expander.expand_eq_worded`).
-/

namespace PhraseGrammar

namespace Text

theorem trim_subset (t : Text) : t.trim ⊆ t := t.trim_sublist_self.subset

end Text

namespace Article

open Text

/-! ## Articles by the next character -/

/-- The vowels, of either case. -/
def vowels : List Char := ['a', 'e', 'i', 'o', 'u', 'A', 'E', 'I', 'O', 'U']

/-- The article before a text, by its first character that is not blank. -/
def indefinite (t : Text) : Text :=
  match t.find? fun c => !isBlank c with
  | some c => if c ∈ vowels then ['a', 'n'] else ['a']
  | none => ['a']

theorem asksForN_iff {c : Char} : asksForN c = true ↔ c ∈ vowels := by
  have hlower : c.toLower.val
      = if c.val ≥ 'A'.val ∧ c.val ≤ 'Z'.val then c.val + 32 else c.val := by
    unfold Char.toLower
    split <;> rfl
  simp only [asksForN, vowels, List.contains_iff_mem, List.mem_cons, List.not_mem_nil, or_false,
    Char.ext_iff, hlower]
  -- what is left is arithmetic of code points, for capitals and for other characters
  split
  · next h =>
      simp only [← UInt32.toNat_inj, UInt32.toNat_add, UInt32.le_iff_toNat_le, ge_iff_le,
        Char.reduceVal, UInt32.reduceToNat] at h ⊢
      omega
  · next h =>
      simp only [← UInt32.toNat_inj, UInt32.le_iff_toNat_le, ge_iff_le, Char.reduceVal,
        UInt32.reduceToNat] at h ⊢
      omega

theorem before_eq_indefinite (t : Text) : before t = indefinite t := by
  unfold before indefinite trimStart
  rw [List.find?_not_eq_head?_dropWhile]
  cases t.dropWhile isBlank with
  | nil => rfl
  | cons c rest =>
      show (if asksForN c = true then _ else _) = if c ∈ vowels then _ else _
      simp only [asksForN_iff]

theorem indefinite_subset (t : Text) : indefinite t ⊆ ['a', 'n'] := by
  unfold indefinite
  split
  · split <;> decide
  · decide

/-! ## Segments -/

/-- A mark, and the text behind it up to the next mark. -/
structure Segment where
  key : Text
  behind : Text

namespace Segment

/-- The mark of an article, and a text without dollar signs. -/
def Proper (s : Segment) : Prop := (s.key = ['a'] ∨ s.key = ['a', 'n']) ∧ '$' ∉ s.behind

/-- The segments with their marks. -/
def marked (segments : List Segment) : Text := segments.flatMap fun s => mark s.key ++ s.behind

/-- The segments with an article in the place of every mark. -/
def worded : List Segment → Text
  | [] => []
  | s :: rest => indefinite (s.behind ++ marked rest) ++ s.behind ++ worded rest

/-- A character of an article or of a text behind one. -/
theorem mem_worded {segments : List Segment} {c : Char} (h : c ∈ worded segments) :
    c ∈ ['a', 'n'] ∨ ∃ s ∈ segments, c ∈ s.behind := by
  induction segments with
  | nil => cases h
  | cons s rest ih =>
      rw [worded, List.mem_append, List.mem_append] at h
      rcases h with (h | h) | h
      · exact Or.inl (indefinite_subset _ h)
      · exact Or.inr ⟨s, List.mem_cons_self, h⟩
      · exact (ih h).imp_right fun ⟨r, hr, hc⟩ => ⟨r, List.mem_cons_of_mem s hr, hc⟩

theorem behind_subset_marked {segments : List Segment} {s : Segment} (h : s ∈ segments) :
    s.behind ⊆ marked segments := fun _ hc =>
  List.mem_flatMap.mpr ⟨s, h, List.mem_append_right _ hc⟩

end Segment

/-- A character that stands in no article comes from the marked text. -/
theorem not_mem_append_worded {lead : Text} {segments : List Segment} {c : Char}
    (hc : c ∉ ['a', 'n']) (h : c ∉ lead) (hs : ∀ s ∈ segments, c ∉ s.behind) :
    c ∉ lead ++ Segment.worded segments := by
  intro hmem
  rcases List.mem_append.mp hmem with hm | hm
  · exact h hm
  · rcases Segment.mem_worded hm with ha | ⟨s, hin, hb⟩
    · exact hc ha
    · exact hs s hin hb

/-- Pieces are segments behind a lead, before and after the articles are settled. -/
theorem exists_segments {pieces : List Piece} (h : ∀ p ∈ pieces, p.Proper) :
    ∃ (lead : Text) (segments : List Segment),
      ('$' ∉ lead ∧ ∀ s ∈ segments, s.Proper) ∧
        text pieces = lead ++ Segment.marked segments ∧
        settled pieces = lead ++ Segment.worded segments := by
  induction pieces with
  | nil => exact ⟨[], [], by simp, rfl, rfl⟩
  | cons p ps ih =>
      obtain ⟨lead, segments, ⟨hlead, hproper⟩, htext, hsettled⟩ :=
        ih fun q hq => h q (List.mem_cons_of_mem p hq)
      have hp := h p List.mem_cons_self
      cases p with
      | char c =>
          -- one more character of the lead
          refine ⟨c :: lead, segments, ⟨?_, hproper⟩, ?_, ?_⟩
          · rw [List.mem_cons, not_or]
            exact ⟨fun hc => hp hc.symm, hlead⟩
          · rw [text_char_cons, htext, List.cons_append]
          · rw [settled, hsettled, List.cons_append]
      | article key =>
          -- the lead so far is the text behind the mark
          have hsegment : Segment.Proper ⟨key, lead⟩ := ⟨isKey_iff.mp hp, hlead⟩
          refine ⟨[], ⟨key, lead⟩ :: segments, ⟨List.not_mem_nil, ?_⟩, ?_, ?_⟩
          · intro s hs
            rcases List.mem_cons.mp hs with rfl | hs
            · exact hsegment
            · exact hproper s hs
          · rw [text_article_cons, htext, Segment.marked, Segment.marked, List.flatMap_cons,
              List.append_assoc, List.nil_append]
          · rw [settled, before_eq_indefinite, hsettled, htext, Segment.worded,
              List.append_assoc, List.nil_append]

/-- **A marked text settles** to the same text with every article in its place. -/
theorem Marked.exists_segments {t : Text} (h : Marked t) :
    ∃ (lead : Text) (segments : List Segment),
      ('$' ∉ lead ∧ ∀ s ∈ segments, s.Proper) ∧ t = lead ++ Segment.marked segments ∧
        settle t = .ok (lead ++ Segment.worded segments) := by
  obtain ⟨pieces, rfl, hpieces⟩ := h
  obtain ⟨lead, segments, hproper, htext, hsettled⟩ := Article.exists_segments hpieces
  have hsettle := settle_text List.not_mem_nil hpieces
  rw [List.nil_append, List.nil_append, hsettled] at hsettle
  exact ⟨lead, segments, hproper, htext, hsettle⟩

end Article

namespace Expander

open Article Text

variable {σ : Type} [WordSource σ]

/-- **Articles are exact.** Let no dollar sign stand in the query or in a text that can come into
it. When no tag is left, the query is made of whole marks and of texts without dollar signs.
Settling its articles then succeeds and puts the article of what follows in the place of each
mark, and the phrase is that text, trimmed. Neither a dollar sign nor an opening bracket is in
the phrase. -/
theorem expand_eq_worded {x : Expander} {query reached : Text} {source : σ} {d : Draws σ}
    (hq : '$' ∉ query) (ht : x.AllTexts ('$' ∉ ·))
    (h : x.cycles (x.cycleLimit - 1) {} query { source } = (.ok reached, d)) :
    ∃ (lead : Text) (segments : List Segment),
      ('$' ∉ lead ∧ ∀ s ∈ segments, s.Proper) ∧
        reached = lead ++ Segment.marked segments ∧
        settle reached = .ok (lead ++ Segment.worded segments) ∧
        x.expand query source = (.ok (lead ++ Segment.worded segments).trim, d) ∧
        '$' ∉ (lead ++ Segment.worded segments).trim ∧
        '[' ∉ (lead ++ Segment.worded segments).trim := by
  obtain ⟨hreach, hno⟩ := reaches_of_cycles (congrArg Prod.fst h)
  obtain ⟨lead, segments, ⟨hlead, hproper⟩, rfl, hsettle⟩ := (hreach.marked ht hq).exists_segments
  rw [List.mem_append, not_or] at hno
  have hdollar : '$' ∉ lead ++ Segment.worded segments :=
    not_mem_append_worded (by decide) hlead fun s hs => (hproper s hs).2
  have hopening : '[' ∉ lead ++ Segment.worded segments :=
    not_mem_append_worded (by decide) hno.1 fun s hs hc =>
      hno.2 (Segment.behind_subset_marked hs hc)
  refine ⟨lead, segments, ⟨hlead, hproper⟩, rfl, hsettle, ?_,
    mt (fun hc => trim_subset _ hc) hdollar, mt (fun hc => trim_subset _ hc) hopening⟩
  unfold expand
  rw [h]
  show (finish _, d) = _
  rw [finish, hsettle]
  rfl

/-! ### An owl and an article at the end -/

/-- The text `Owl [an]` is forced for `b`. -/
def owls : Expander where
  grammar := {}
  overrides := [(['b'], ['O', 'w', 'l', ' '] ++ Tag.bracketed ['a', 'n'])]
  cycleLimit := 9
  sizeLimit := 64

/-- The query `[a] [b]`. -/
def owlsQuery : Text := Tag.bracketed ['a'] ++ [' '] ++ Tag.bracketed ['b']

/-- What is left of it: two marks, with `Owl` between them. -/
def owlsReached : Text := mark ['a'] ++ [' ', 'O', 'w', 'l', ' '] ++ mark ['a', 'n']

theorem owls_expand_eq_worded :
    ('$' ∉ owlsQuery ∧ owls.AllTexts ('$' ∉ ·) ∧
      owls.cycles (owls.cycleLimit - 1) {} owlsQuery { source := Keystream.ofSeed 7 }
        = (.ok owlsReached, { source := Keystream.ofSeed 7 })) ∧
    ∃ (lead : Text) (segments : List Segment),
      ('$' ∉ lead ∧ ∀ s ∈ segments, s.Proper) ∧
        owlsReached = lead ++ Segment.marked segments ∧
        settle owlsReached = .ok (lead ++ Segment.worded segments) ∧
        owls.expand owlsQuery (Keystream.ofSeed 7)
          = (.ok (lead ++ Segment.worded segments).trim, { source := Keystream.ofSeed 7 }) ∧
        '$' ∉ (lead ++ Segment.worded segments).trim ∧
        '[' ∉ (lead ++ Segment.worded segments).trim := by
  have hq : '$' ∉ owlsQuery := by decide
  have ht : owls.AllTexts ('$' ∉ ·) := allTexts_of_entries (by decide) (by decide)
  have h : owls.cycles (owls.cycleLimit - 1) {} owlsQuery { source := Keystream.ofSeed 7 }
      = (.ok owlsReached, { source := Keystream.ofSeed 7 }) := rfl
  exact ⟨⟨hq, ht, h⟩, expand_eq_worded hq ht h⟩

end Expander

end PhraseGrammar
