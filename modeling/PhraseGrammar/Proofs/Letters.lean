import PhraseGrammar.Proofs.FirstTag
import PhraseGrammar.Proofs.Spaces

set_option autoImplicit false

/-! # Flat texts

A flat text is a word over an alphabet of its own: a letter is a character outside of tags, or a
whole tag (`Letter`). Tags do not nest, and no two adjacent spaces stand inside of one. On flat
texts the three operations of a cycle act letter by letter: the first tag is the first letter
that is a tag (`Letter.firstTag_iff`), halving the spaces halves runs of letters
(`Letter.halveSpaces_text`), and replacing a tag replaces letters (`Letter.replace_text`).
-/

namespace PhraseGrammar

open Text Tag

/-- A character outside of tags, or a whole tag with its inside. -/
inductive Letter where
  | char (c : Char)
  | tag (inside : Text)
  deriving DecidableEq, Repr

namespace Letter

/-- How a letter reads. -/
def read : Letter → Text
  | char c => [c]
  | tag inside => bracketed inside

/-- How a list of letters reads. -/
def text (letters : List Letter) : Text := letters.flatMap read

/-- A character that is no bracket, or a tag without brackets and adjacent spaces inside. -/
def Flat : Letter → Prop
  | char c => c ≠ '[' ∧ c ≠ ']'
  | tag inside => BracketFree inside ∧ ¬ Doubled inside

instance : DecidablePred Flat
  | char c => inferInstanceAs (Decidable (c ≠ '[' ∧ c ≠ ']'))
  | tag inside => inferInstanceAs (Decidable (BracketFree inside ∧ ¬ Doubled inside))

/-- The inside of a letter that is a tag. -/
def inside? : Letter → Option Text
  | char _ => none
  | tag inside => some inside

/-- The insides of the tags, in order. -/
def insides (letters : List Letter) : List Text := letters.filterMap inside?

/-- The letters of a text without tags. -/
def plain (t : Text) : List Letter := t.map char

@[simp] theorem text_nil : text [] = [] := rfl

@[simp] theorem text_char_cons (c : Char) (ls : List Letter) :
    text (char c :: ls) = c :: text ls := rfl

@[simp] theorem text_tag_cons (inside : Text) (ls : List Letter) :
    text (tag inside :: ls) = bracketed inside ++ text ls := rfl

@[simp] theorem text_append (s t : List Letter) : text (s ++ t) = text s ++ text t :=
  List.flatMap_append

@[simp] theorem text_plain (t : Text) : text (plain t) = t := by
  induction t with
  | nil => rfl
  | cons c t ih =>
      rw [plain, List.map_cons, text_char_cons]
      exact congrArg (c :: ·) ih

@[simp] theorem insides_char_cons (c : Char) (ls : List Letter) :
    insides (char c :: ls) = insides ls := rfl

@[simp] theorem insides_tag_cons (inside : Text) (ls : List Letter) :
    insides (tag inside :: ls) = inside :: insides ls := rfl

theorem mem_insides {inside : Text} {ls : List Letter} :
    inside ∈ insides ls ↔ tag inside ∈ ls := by
  rw [insides, List.mem_filterMap]
  constructor
  · rintro ⟨l, hl, hin⟩
    cases l with
    | char c => cases hin
    | tag b =>
        cases hin
        exact hl
  · exact fun h => ⟨_, h, rfl⟩

theorem flat_plain {t : Text} (h : BracketFree t) : ∀ l ∈ plain t, l.Flat := by
  intro l hl
  obtain ⟨c, hc, rfl⟩ := List.mem_map.mp hl
  exact ⟨fun h' => h.1 (h' ▸ hc), fun h' => h.2 (h' ▸ hc)⟩

/-- Letters without a tag are the letters of a text. -/
theorem eq_plain_of_insides {ls : List Letter} (h : insides ls = []) : ls = plain (text ls) := by
  induction ls with
  | nil => rfl
  | cons l ls ih =>
      cases l with
      | char c =>
          rw [text_char_cons, plain, List.map_cons]
          exact congrArg (char c :: ·) (ih h)
      | tag b => simp at h

/-! ## The first tag -/

/-- The first letter that is a tag is the first tag. -/
theorem firstTag_text {ls : List Letter} (hflat : ∀ l ∈ ls, l.Flat) {inside : Text}
    {rest : List Text} (h : insides ls = inside :: rest) :
    Query.FirstTag (text ls) inside := by
  induction ls with
  | nil => cases h
  | cons l ls ih =>
      have hl := hflat l List.mem_cons_self
      cases l with
      | char c =>
          obtain ⟨lead, behind, heq, hlead, hin⟩ := ih (fun m hm => hflat m (by simp [hm])) h
          refine ⟨c :: lead, behind, ?_, bracketFree_cons.mpr ⟨hl, hlead⟩, hin⟩
          rw [text_char_cons, heq]
          rfl
      | tag b =>
          obtain ⟨rfl, -⟩ := List.cons.inj h
          exact ⟨[], text ls, rfl, bracketFree_nil, hl.1⟩

theorem opening_mem_text {ls : List Letter} (hflat : ∀ l ∈ ls, l.Flat) :
    '[' ∈ text ls ↔ insides ls ≠ [] := by
  constructor
  · intro hm h
    rw [eq_plain_of_insides h, text_plain] at hm
    rw [eq_plain_of_insides h] at hflat
    exact (hflat (char '[') (List.mem_map_of_mem hm)).1 rfl
  · intro h
    obtain ⟨inside, rest, hin⟩ := List.exists_cons_of_ne_nil h
    obtain ⟨lead, behind, heq, -, -⟩ := firstTag_text hflat hin
    rw [heq]
    simp [bracketed]

/-- Without tags there is no opening bracket, and nothing to expand. -/
theorem opening_not_mem_text {ls : List Letter} (hflat : ∀ l ∈ ls, l.Flat)
    (h : insides ls = []) : '[' ∉ text ls :=
  mt (opening_mem_text hflat).mp (not_not_intro h)

/-- A text with tags is not the empty one, which an expansion remembers at its start. -/
theorem nil_ne_text {ls : List Letter} (hflat : ∀ l ∈ ls, l.Flat) (h : insides ls ≠ []) :
    [] ≠ text ls := by
  intro hnil
  have hm := (opening_mem_text hflat).mpr h
  rw [← hnil] at hm
  cases hm

/-- The first tag is the first letter that is a tag. -/
theorem firstTag_iff {ls : List Letter} (hflat : ∀ l ∈ ls, l.Flat) {inside : Text} :
    Query.FirstTag (text ls) inside ↔ (insides ls).head? = some inside := by
  cases hin : insides ls with
  | nil =>
      simp only [List.head?_nil, reduceCtorEq, iff_false]
      rintro ⟨lead, behind, heq, -, -⟩
      refine (opening_mem_text hflat).mp ?_ hin
      rw [heq]
      simp [bracketed]
  | cons b rest =>
      have hfirst := firstTag_text hflat hin
      rw [List.head?_cons, Option.some_inj]
      exact ⟨fun h => hfirst.unique h, fun h => h ▸ hfirst⟩

/-- A flat text changes when its first tag is gone. -/
theorem text_ne_text {s t : List Letter} (hs : ∀ l ∈ s, l.Flat) (ht : ∀ l ∈ t, l.Flat)
    {inside : Text} {rest : List Text} (h : insides s = inside :: rest)
    (hgone : inside ∉ insides t) : text s ≠ text t := by
  intro heq
  have hfirst := firstTag_text hs h
  rw [heq, firstTag_iff ht] at hfirst
  exact hgone (List.mem_of_head? hfirst)

/-! ## Halving and replacing -/

theorem halveSpaces_text {ls : List Letter} (hflat : ∀ l ∈ ls, l.Flat) :
    (text ls).halveSpaces = text (halve (char ' ') ls) := by
  induction ls using halve.induct (char ' ') with
  | case1 a b ls h ih =>
      obtain ⟨rfl, rfl⟩ := h
      rw [halve_pair, text_char_cons, text_char_cons, text_char_cons, halveSpaces_eq_halve,
        halve_pair, ← halveSpaces_eq_halve, ih fun l hl => hflat l (by simp [hl])]
  | case2 a b ls h ih =>
      have ih := ih fun l hl => hflat l (List.mem_cons_of_mem a hl)
      rw [halve_cons (by simpa using h)]
      cases a with
      | char c =>
          rw [text_char_cons, text_char_cons, ← ih, halveSpaces_eq_halve, halve_cons,
            halveSpaces_eq_halve]
          -- two adjacent spaces would be two letters
          rintro ⟨rfl, hhead⟩
          cases b with
          | char d =>
              rw [text_char_cons, List.head?_cons, Option.some_inj] at hhead
              exact h ⟨rfl, congrArg char hhead⟩
          | tag inside => simp [bracketed] at hhead
      | tag inside =>
          have hin : ¬ Doubled (bracketed inside) :=
            mt doubled_bracketed.mp (hflat (tag inside) List.mem_cons_self).2
          have haround := halveSpaces_around [] inside (text (b :: ls))
          rw [List.nil_append, halveSpaces_eq_self hin, ih] at haround
          rw [text_tag_cons, text_tag_cons, haround]
          rfl
  | case3 a =>
      cases a with
      | char c =>
          rw [halveSpaces_eq_halve]
          rfl
      | tag inside =>
          have hin : ¬ Doubled (bracketed inside) :=
            mt doubled_bracketed.mp (hflat (tag inside) List.mem_cons_self).2
          rw [text_tag_cons, text_nil, List.append_nil, halveSpaces_eq_self hin]
          exact (List.append_nil _).symm
  | case4 => rfl

/-- The letters with a tag replaced by other letters. -/
def replaceTag (inside : Text) (new : List Letter) (ls : List Letter) : List Letter :=
  ls.flatMap fun l => if l = tag inside then new else [l]

theorem replace_text {ls : List Letter} (hflat : ∀ l ∈ ls, l.Flat) {inside : Text}
    (hin : BracketFree inside) (new : List Letter) :
    replace (bracketed inside) (text new) (text ls) = text (replaceTag inside new ls) := by
  induction ls with
  | nil => exact replace_nil _ _
  | cons l ls ih =>
      have hl := hflat l List.mem_cons_self
      have ih := ih fun m hm => hflat m (List.mem_cons_of_mem l hm)
      rw [replaceTag, List.flatMap_cons, text_append]
      cases l with
      | char c =>
          -- a character outside of tags is no bracket, so no tag begins there
          have hp : (bracketed inside).isPrefixOf (c :: text ls) = false := by
            rw [Bool.eq_false_iff, Ne, List.isPrefixOf_iff_prefix, bracketed,
              List.cons_prefix_cons]
            exact fun hp => hl.1 hp.1.symm
          rw [text_char_cons, replace_cons _ hp, ih, if_neg (by simp)]
          rfl
      | tag b =>
          have haround : replace (bracketed inside) (text new) ([] ++ bracketed b ++ text ls)
              = _ := replace_around hin (text new) [] (text ls)
          rw [List.nil_append, replace_nil, List.nil_append, replace_bracketed hl.1, ih] at haround
          rw [text_tag_cons, haround]
          by_cases hb : b = inside
          · rw [if_pos hb, if_pos (by rw [hb])]
            rfl
          · rw [if_neg hb, if_neg (by simpa using hb)]
            simp [text, read, replaceTag]

theorem mem_replaceTag {l : Letter} {inside : Text} {new ls : List Letter}
    (h : l ∈ replaceTag inside new ls) : l ∈ new ∨ l ∈ ls := by
  obtain ⟨m, hm, hl⟩ := List.mem_flatMap.mp h
  split at hl
  · exact Or.inl hl
  · rw [List.mem_singleton] at hl
    exact Or.inr (hl ▸ hm)

end Letter

end PhraseGrammar
