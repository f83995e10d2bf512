import PhraseGrammar.Proofs.ByteOrder
import PhraseGrammar.Proofs.Marks
import PhraseGrammar.Proofs.TagSyntax
import PhraseGrammar.Proofs.Validation
import PhraseGrammar.Random.Keystream

set_option autoImplicit false

/-! # The columns of bracket errors

An error that speaks of a bracket tells its column, in bytes. A bracket is one byte, which stands in
the UTF-8 form of no other character (`Text.byte_not_mem_encoding`). So the
column is the place of a bracket among the bytes of the text that is shown, and of the first one
(`Text.FirstAt`), whatever characters stand before it.

The text that is shown is the query as it stood when the fault was found, or a part of it, and not
the query of the expansion. Wherever in the course of an expansion the fault is found, the error
points at the bracket (`Expander.bracketErrors_located`).
-/

namespace PhraseGrammar

/-! ## Columns in bytes -/

namespace Text

theorem utf8_append (s t : Text) : utf8 (s ++ t) = utf8 s ++ utf8 t := by
  rw [utf8_eq, utf8_eq, utf8_eq, List.flatMap_append]

/-- The size of a text is the number of its bytes. -/
theorem length_utf8 (t : Text) : (utf8 t).length = t.byteSize := by
  induction t with
  | nil => rfl
  | cons c t ih =>
      rw [utf8_cons, List.length_append, String.length_utf8EncodeChar, ih, byteSize_cons]

/-- In a form of several bytes, each byte has a mark. -/
theorem le_of_mem_digitBytes {mark k n : Nat} (hmark : 128 ≤ mark)
    (hn : aboveDigits k n + mark < UInt8.size) {b : UInt8} (hb : b ∈ digitBytes mark k n) :
    128 ≤ b.toNat := by
  induction k generalizing n with
  | zero =>
      obtain rfl := List.mem_singleton.mp hb
      have hlt : n + mark < UInt8.size := hn
      rw [UInt8.toNat_ofNat_of_lt' hlt]
      omega
  | succ k ih =>
      rcases List.mem_append.mp hb with hb | hb
      · exact ih hn hb
      · obtain rfl := List.mem_singleton.mp hb
        have hlt : n % 64 + 128 < UInt8.size := by
          show n % 64 + 128 < 256
          omega
        rw [UInt8.toNat_ofNat_of_lt' hlt]
        omega

/-- **A character of one byte has a byte that stands in the form of no other character.** -/
theorem byte_not_mem_encoding {c d : Char} (hc : c.utf8Size = 1) (hd : d ≠ c) :
    c.toUInt8 ∉ String.utf8EncodeChar d := by
  intro hmem
  have hascii : c.val.toNat ≤ 127 := UInt32.le_iff_toNat_le.mp (Char.utf8Size_eq_one_iff.mp hc)
  have hbyte : c.toUInt8.toNat = c.val.toNat := by
    show c.val.toNat % 256 = c.val.toNat
    omega
  by_cases hsize : d.utf8Size = 1
  · -- two such characters have two bytes
    rw [String.utf8EncodeChar_eq_singleton hsize, List.mem_singleton] at hmem
    have hascii' : d.val.toNat ≤ 127 :=
      UInt32.le_iff_toNat_le.mp (Char.utf8Size_eq_one_iff.mp hsize)
    have hbyte' : d.val.toUInt8.toNat = d.val.toNat := by
      show d.val.toNat % 256 = d.val.toNat
      omega
    refine hd (Char.ext (UInt32.toNat_inj.mp ?_))
    rw [← hbyte, ← hbyte', hmem]
  · have hlong : ¬ d.val.toNat ≤ 127 := fun hle =>
      hsize (Char.utf8Size_eq_one_iff.mpr (UInt32.le_iff_toNat_le.mpr hle))
    have hmark : 128 ≤ firstMark (furtherBytes d.val.toNat) := by
      unfold furtherBytes
      rw [if_neg hlong]
      split_ifs <;> decide
    rw [utf8EncodeChar_eq] at hmem
    have hle := le_of_mem_digitBytes hmark (firstByte_lt_size (toNat_lt d)) hmem
    omega

theorem byte_not_mem_utf8 {c : Char} (hc : c.utf8Size = 1) {t : Text} (ht : c ∉ t) :
    c.toUInt8 ∉ utf8 t := by
  rw [utf8_eq, List.mem_flatMap]
  rintro ⟨d, hd, hmem⟩
  refine byte_not_mem_encoding hc ?_ hmem
  rintro rfl
  exact ht hd

/-- **The first `c` of a text stands at a column**: so many bytes are those of the characters before
it, the byte at the column is that of `c`, and no byte before it is. -/
structure FirstAt (c : Char) (column : Nat) (t : Text) : Prop where
  split : ∃ lead rest, t = lead ++ c :: rest ∧ c ∉ lead ∧ (utf8 lead).length = column
  byte : (utf8 t)[column]? = some c.toUInt8
  first : c.toUInt8 ∉ (utf8 t).take column

theorem firstAt_append_cons {c : Char} (hc : c.utf8Size = 1) {lead : Text} (hlead : c ∉ lead)
    (rest : Text) : FirstAt c lead.byteSize (lead ++ c :: rest) := by
  have hbytes : utf8 (lead ++ c :: rest) = utf8 lead ++ c.toUInt8 :: utf8 rest := by
    rw [utf8_append, utf8_cons, String.utf8EncodeChar_eq_singleton hc]
    rfl
  refine ⟨⟨lead, rest, rfl, hlead, length_utf8 lead⟩, ?_, ?_⟩
  · rw [hbytes, ← length_utf8, List.getElem?_append_right (Nat.le_refl _), Nat.sub_self]
    rfl
  · rw [hbytes, ← length_utf8, List.take_left]
    exact byte_not_mem_utf8 hc hlead

end Text

open Tag Text

/-! ## What an error locates -/

namespace Query

/-- Without a closing bracket there is no tag, and a closing bracket before the first opening one
is no end of a tag. -/
theorem firstAt_of_tagAt {query : Text} {opening : Nat} {e : ExpansionError}
    (ho : firstOpening? query = some opening) (h : tagAt opening query = .error e) :
    FirstAt '[' opening query ∧
      (e = .unclosedBracket opening query ∧ ']' ∉ query ∨
        ∃ closing, e = .strayBracket closing query ∧ closing < opening ∧
          FirstAt ']' closing query) := by
  obtain ⟨lead, rest, rfl, hlead⟩ : ∃ lead rest : Text, query = lead ++ '[' :: rest ∧ '[' ∉ lead :=
    List.eq_append_cons_of_mem (opening_mem_of_firstOpening? ho)
  obtain rfl : opening = lead.byteSize := by
    rw [firstOpening?_append_cons hlead] at ho
    exact (Option.some.inj ho).symm
  refine ⟨firstAt_append_cons (by decide) hlead rest, ?_⟩
  unfold tagAt at h
  split at h
  · next hnone =>
      cases h
      exact Or.inl ⟨rfl, firstClosing?_eq_none.mp hnone⟩
  · next closing hclosing =>
      split at h
      · next hlt =>
          cases h
          have hmem : ']' ∈ lead ++ '[' :: rest := by
            by_contra hno
            rw [firstClosing?_eq_none.mpr hno] at hclosing
            cases hclosing
          obtain ⟨upTo, behind, heq, hupTo⟩ := List.eq_append_cons_of_mem hmem
          rw [heq, firstClosing?_append_cons hupTo] at hclosing
          cases hclosing
          refine Or.inr ⟨_, rfl, hlt, ?_⟩
          rw [heq]
          exact firstAt_append_cons (by decide) hupTo behind
      · cases h

end Query

namespace Expander

/-- **What an error of a bracket says of an expansion** is so. The query that it shows was reached
by the expansion. An opening bracket without a closing one is the first opening bracket of the
query, and no closing bracket stands in it. A stray closing bracket is the first one, and stands
before the first opening one. A tag with nested brackets stands in a query that was reached, with no
bracket before it; its last character is its only closing bracket, and the column is that of the
first opening bracket behind its own. -/
def Locates (x : Expander) (query : Text) : ExpansionError → Prop
  | .unclosedBracket column reached =>
    x.Reaches query reached ∧ FirstAt '[' column reached ∧ ']' ∉ reached
  | .strayBracket column reached =>
    x.Reaches query reached ∧ FirstAt ']' column reached ∧
      ∃ opening, column < opening ∧ FirstAt '[' opening reached
  | .nestedBracket column tag =>
    (∃ lead rest, x.Reaches query (lead ++ tag ++ rest) ∧ BracketFree lead) ∧
      (utf8 tag)[column + 1]? = some '['.toUInt8 ∧
      ∃ inside, tag = bracketed inside ∧ ']' ∉ inside ∧ FirstAt '[' column inside
  | .noProgress | .tooManyCycles _ | .tooLarge _ | .unknownKey _ | .notBracketed _
  | .brokenArticle => True

/-- What an error locates does not depend on limits and on whether options are counted. -/
theorem Locates.congr {x y : Expander} (hg : y.grammar = x.grammar)
    (ho : y.overrides = x.overrides) {query : Text} {e : ExpansionError} (h : x.Locates query e) :
    y.Locates query e := by
  cases e with
  | unclosedBracket column reached => exact ⟨h.1.congr hg ho, h.2⟩
  | strayBracket column reached => exact ⟨h.1.congr hg ho, h.2⟩
  | nestedBracket column tag =>
      obtain ⟨⟨lead, rest, hreach, hlead⟩, htag⟩ := h
      exact ⟨⟨lead, rest, hreach.congr hg ho, hlead⟩, htag⟩
  | noProgress | tooManyCycles | tooLarge | unknownKey | notBracketed | brokenArticle => trivial

/-- A nested bracket is an opening one, since the tag ends at the first closing one. -/
theorem locates_of_badTag {x : Expander} {query reached found : Text} {opening : Nat}
    {e : ExpansionError} (hreach : x.Reaches query reached)
    (ho : Query.firstOpening? reached = some opening)
    (hf : Query.tagAt opening reached = .ok found) (he : Tag.parse found = .error e) :
    x.Locates query e := by
  obtain ⟨before, inside, behind, rfl, hbefore, hclosing, rfl⟩ := Query.eq_append_of_tagAt ho hf
  rw [parse_eq_error_iff] at he
  generalize htag : bracketed inside = tag at he
  cases he with
  | @nestedBracket lead c rest hlead hc =>
      obtain rfl := bracketed_injective htag
      have hopen : c = '[' := hc.resolve_right fun hc' => hclosing (by simp [hc'])
      subst hopen
      have hbyte := (firstAt_append_cons (c := '[') (by decide) hlead.1 (rest ++ [']'])).byte
      refine ⟨⟨before, behind, hreach, hbefore⟩, ?_, lead ++ '[' :: rest, rfl, hclosing,
        firstAt_append_cons (by decide) hlead.1 rest⟩
      rw [bracketed, utf8_cons, String.utf8EncodeChar_eq_singleton (by decide), List.append_assoc]
      exact hbyte
  | notBracketed => trivial

theorem Fails.locates {x : Expander} {query reached : Text} {e : ExpansionError}
    (hreach : x.Reaches query reached) (h : x.Fails reached e) : x.Locates query e := by
  cases h with
  | noTag ho hf =>
      obtain ⟨hopening, ⟨rfl, hno⟩ | ⟨closing, rfl, hlt, hclosing⟩⟩ := Query.firstAt_of_tagAt ho hf
      · exact ⟨hreach, hopening, hno⟩
      · exact ⟨hreach, hclosing, _, hlt, hopening⟩
  | badTag ho hf he => exact locates_of_badTag hreach ho hf he
  | unknownKey => trivial
  | tooLarge => trivial

variable {σ : Type} [WordSource σ]

theorem expand_locates {x : Expander} {query : Text} {source : σ} {e : ExpansionError}
    (h : (x.expand query source).1 = .error e) : x.Locates query e := by
  have hout := x.expand_outcome query source
  rw [h] at hout
  generalize hr : (Except.error e : Except ExpansionError Text) = r at hout
  cases hout with
  | finished hreach _ =>
      obtain ⟨rfl, -⟩ := hreach.brokenArticle hr.symm
      trivial
  | noProgress | tooManyCycles =>
      cases hr
      trivial
  | failed hreach hf =>
      cases hr
      exact hf.locates hreach

/-- **Bracket errors point at the bracket**, in an expansion, in a count and in what validation
lists, whatever the grammar, the forced texts, the limits, the query and the random source, and
whether the fault is found at once or behind any number of replacements. -/
theorem bracketErrors_located (x : Expander) (query : Text) (source : σ) :
    (∀ e, (x.expand query source).1 = .error e → x.Locates query e) ∧
    (∀ e, (x.countOptions query source).1 = .error e → x.Locates query e) ∧
    ∀ category fragment e, .failure category fragment e ∈ (x.validate source).1 →
      x.Locates fragment e := by
  refine ⟨fun _ => expand_locates, fun e h => ?_, fun category fragment e h => ?_⟩
  · refine Locates.congr (y := x) ?_ ?_ (expand_locates (countOptions_eq_error.mp h))
    · rfl
    · rfl
  · obtain ⟨-, s, hfail⟩ := expand_of_mem_checkCategories h
    exact expand_locates hfail

/-! ### A bracket behind a replacement -/

/-- No category, and the forced text `ü[` for the key `k`. -/
def halfOpen : Expander :=
  { grammar := {}, overrides := [(['k'], ['ü', '['])], cycleLimit := 1024, sizeLimit := 4096 }

/-- The query `[k]é[x]`, which becomes `ü[é[x]`. -/
def halfOpenQuery : Text := bracketed ['k'] ++ 'é' :: bracketed ['x']

/-- The inner bracket is byte 3 of the tag, and byte 2 behind its opening bracket. -/
theorem halfOpen_bracketErrors_located :
    (halfOpen.expand halfOpenQuery (Keystream.ofSeed 7)).1
        = .error (.nestedBracket 2 (bracketed ['é', '[', 'x'])) ∧
      halfOpen.Locates halfOpenQuery (.nestedBracket 2 (bracketed ['é', '[', 'x'])) := by
  have herror : (halfOpen.expand halfOpenQuery (Keystream.ofSeed 7)).1
      = .error (.nestedBracket 2 (bracketed ['é', '[', 'x'])) := by
    decide +kernel
  obtain ⟨hexpand, -, -⟩ := bracketErrors_located halfOpen halfOpenQuery (Keystream.ofSeed 7)
  exact ⟨herror, hexpand _ herror⟩

end Expander

end PhraseGrammar
