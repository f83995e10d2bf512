import PhraseGrammar.Proofs.Traces
import PhraseGrammar.Proofs.Validation
import PhraseGrammar.Random.Keystream
import Mathlib.Data.Set.Basic

set_option autoImplicit false

/-! # Unproductive tags

A set of plain tags is unproductive for an expander if no tag of it can be replaced by a text
that holds no tag of the set: its key has no meaning at all, or it is a category each of whose
alternatives holds a tag of the set again. Then a query that holds a tag of the set holds one
after every step (`Unproductive.holds_of_step`), and is never without a tag. So the tag is never
lost, whatever stands around it, and validation reports every alternative that holds one.
-/

namespace PhraseGrammar

open Text Tag

/-! ## Plain tags -/

/-- A tag that reads as its key, or as its key and a label, and nothing else: no marker, no terms
in the key, no bracket and no two adjacent spaces. -/
structure Tag.Plain (tag : Tag) : Prop where
  named : tag.kind = .named
  bracketFree : BracketFree tag.body
  single : ¬ Doubled tag.body
  no_marker : ∀ c ∈ tag.body.head?, c ≠ '!' ∧ c ≠ '?'
  no_terms : '/' ∉ tag.key
  no_label_mark : '#' ∉ tag.key

namespace Tag.Plain

variable {tag : Tag}

/-- A plain tag is read as itself. -/
theorem ofInside_body (h : tag.Plain) : ofInside tag.body = tag := by
  have hsplit := splitLabel_body h.no_label_mark
  have hbody := ofInside_of_no_marker h.no_marker
  have hterms : tag.key.contains '/' = false := by simpa using h.no_terms
  obtain ⟨kind, key, label⟩ := tag
  obtain rfl : kind = .named := h.named
  rw [hbody, ofBody, hsplit]
  simp only [Option.getD_none] at hterms ⊢
  rw [hterms]
  rfl

/-- Behind a marker the key is the same. -/
theorem key_ofInside_hidden (h : tag.Plain) : (ofInside ('!' :: tag.body)).key = tag.key := by
  simp only [ofInside, ofBody, splitLabel_body h.no_label_mark]

theorem body_ne_cons (h : tag.Plain) {c : Char} (hc : c = '!' ∨ c = '?') (body : Text) :
    tag.body ≠ c :: body := by
  intro hb
  have hmark := h.no_marker c (by rw [hb]; rfl)
  exact hc.elim hmark.1 hmark.2

end Tag.Plain

/-! ## Sets of tags -/

/-- The text holds a tag of the set. -/
def Holds (D : Set Tag) (t : Text) : Prop := ∃ tag ∈ D, tag.unmarked <:+: t

theorem Holds.mono {D : Set Tag} {s t : Text} (h : Holds D s) (hst : s <:+: t) : Holds D t := by
  obtain ⟨tag, htag, hi⟩ := h
  exact ⟨tag, htag, hi.trans hst⟩

theorem Holds.opening_mem {D : Set Tag} {t : Text} (h : Holds D t) : '[' ∈ t := by
  obtain ⟨tag, -, hi⟩ := h
  exact hi.mem (by simp [unmarked, bracketed])

namespace Expander

/-- **Unproductive tags.** Each of them is plain and not forced. Its key is neither a category
nor an article, or it is a category that has alternatives, and each of these holds a tag of the
set. -/
def Unproductive (x : Expander) (D : Set Tag) : Prop :=
  ∀ tag ∈ D, tag.Plain ∧ x.overrides.lookup tag.key = none ∧
    (x.grammar.get? tag.key = none ∧ Article.isKey tag.key = false ∨
      ∃ alternatives, x.grammar.get? tag.key = some alternatives ∧ alternatives ≠ [] ∧
        ∀ a ∈ alternatives, Holds D a)

variable {x : Expander} {D : Set Tag}

/-- An unproductive tag stands for texts that hold an unproductive tag, if for any. -/
theorem Unproductive.holds_of_means (h : x.Unproductive D) {tag : Tag} (htag : tag ∈ D)
    {new : Text} (hm : x.Means tag.key new) : Holds D new := by
  obtain ⟨hplain, hforced, hkey⟩ := h tag htag
  -- a plain tag has no terms and is not forced, so only alternatives and articles are left
  cases hm with
  | term hs _ => exact absurd hs hplain.no_terms
  | forced _ ho =>
      rw [hforced] at ho
      cases ho
  | alternative _ _ hg hmem =>
      rcases hkey with ⟨hnone, -⟩ | ⟨alternatives, hsome, -, hall⟩
      · rw [hnone] at hg
        cases hg
      · rw [hsome] at hg
        cases hg
        exact hall _ hmem
  | nothing _ _ hg =>
      rcases hkey with ⟨hnone, -⟩ | ⟨alternatives, hsome, hne, -⟩
      · rw [hnone] at hg
        cases hg
      · rw [hsome] at hg
        cases hg
        exact absurd rfl hne
  | article _ _ hg ha =>
      rcases hkey with ⟨-, hart⟩ | ⟨alternatives, hsome, -, -⟩
      · rw [hart] at ha
        cases ha
      · rw [hsome] at hg
        cases hg

/-- A replacement keeps a tag of the set, or puts the new text in its place. -/
theorem Unproductive.holds_replace (h : x.Unproductive D) {b new q : Text} (hb : BracketFree b)
    (hnew : ∀ tag ∈ D, tag.body = b → Holds D new) (hq : Holds D q) :
    Holds D (replace (bracketed b) new q) := by
  obtain ⟨tag, htag, hi⟩ := hq
  have hr := infix_replace hb (h tag htag).1.bracketFree new hi
  split at hr
  · next hbody => exact (hnew tag htag hbody).mono hr
  · exact ⟨tag, htag, hr⟩

theorem Unproductive.holds_halveSpaces (h : x.Unproductive D) {q : Text} (hq : Holds D q) :
    Holds D q.halveSpaces := by
  obtain ⟨tag, htag, hi⟩ := hq
  exact ⟨tag, htag, infix_halveSpaces (h tag htag).1.single hi⟩

/-- **No step loses the last unproductive tag.** -/
theorem Unproductive.holds_of_step (h : x.Unproductive D) {q next : Text} (hq : Holds D q)
    (hs : x.Step q next) : Holds D next := by
  cases hs with
  | @shown inside new hf hk hm =>
      have hinside := hf.bracketFree
      refine h.holds_replace hinside (fun tag htag hb => ?_) (h.holds_halveSpaces hq)
      subst hb
      rw [(h tag htag).1.ofInside_body] at hm
      exact h.holds_of_means htag hm
  | @omitted body hf =>
      have hinside := hf.bracketFree
      refine h.holds_replace hinside (fun tag htag hb => ?_) (h.holds_halveSpaces hq)
      exact absurd hb ((h tag htag).1.body_ne_cons (Or.inr rfl) body)
  | @hidden body new hf hm =>
      have hinside := hf.bracketFree
      have hbody : BracketFree body := (bracketFree_cons.mp hinside).2
      -- a plain tag is not the hidden one, so it is there when that is taken out
      have htaken : Holds D (replace (bracketed ('!' :: body)) [] q) :=
        h.holds_replace hinside
          (fun tag htag hb => absurd hb ((h tag htag).1.body_ne_cons (Or.inl rfl) body)) hq
      refine h.holds_replace hbody (fun tag htag hb => ?_) (h.holds_halveSpaces htaken)
      subst hb
      rw [(h tag htag).1.key_ofInside_hidden] at hm
      exact h.holds_of_means htag hm

variable {σ : Type} [WordSource σ]

/-- An expansion of a query with an unproductive tag fails. -/
theorem Unproductive.expand_error (h : x.Unproductive D) {query : Text} (hq : Holds D query)
    (source : σ) : ∃ e, (x.expand query source).1 = .error e := by
  cases hr : (x.expand query source).1 with
  | error e => exact ⟨e, rfl⟩
  | ok phrase =>
      have hout := x.expand_outcome query source
      rw [hr] at hout
      generalize hres : (Except.ok phrase : Except ExpansionError Text) = r at hout
      cases hout with
      | finished hreach hno =>
          exact absurd (hreach.invariant (fun _ _ => h.holds_of_step) hq).opening_mem hno
      | noProgress | tooManyCycles | failed => cases hres

open Classical in
/-- **No unproductive tag is ever lost.** A query that holds one is neither expanded nor counted,
whatever the source and the limits, and validation lists a failure for every alternative that
holds one, each as often as it stands in the grammar and in this order. -/
theorem unproductive_never_ok (h : x.Unproductive D) (source : σ) :
    (∀ query, Holds D query →
      (∀ phrase, (x.expand query source).1 ≠ .ok phrase) ∧
      ∀ bounds, (x.countOptions query source).1 ≠ .ok bounds) ∧
    (Mapping.entries x.grammar.categories |>.filter fun entry => Holds D entry.2).Sublist
      ((x.validate source).1.filterMap Finding.failed?) := by
  refine ⟨fun query hq => ⟨fun phrase hok => ?_, fun bounds hok => ?_⟩, ?_⟩
  · obtain ⟨e, he⟩ := h.expand_error hq source
    rw [he] at hok
    cases hok
  · have hcount : ({ x with counting := true } : Expander).Unproductive D := h
    obtain ⟨e, he⟩ := hcount.expand_error hq source
    rw [countOptions_eq_error.mpr he] at hok
    cases hok
  · exact sublist_checkCategories
      (p := fun fragment => decide (Holds D fragment))
      (fun fragment hf source => h.expand_error (of_decide_eq_true hf) source) _ source

/-! ### An echo that ends at an unknown key -/

/-- `[e]` and `[g#1]`, where nothing is known of `g`. -/
def echoTags : Set Tag := {⟨.named, ['e'], none⟩, ⟨.named, ['g'], some ['1']⟩}

/-- The category `e` has the alternatives `[e]!` and `x[g#1]`. -/
def echoes : Expander where
  grammar := { categories := [(['e'], [['[', 'e', ']', '!'], ['x', '[', 'g', '#', '1', ']']])] }
  cycleLimit := 1024
  sizeLimit := 4096

theorem echoes_never_ok :
    (echoes.Unproductive echoTags ∧ Holds echoTags ['[', '!', ']', ' ', '[', 'e', ']']) ∧
      (∀ phrase, (echoes.expand ['[', '!', ']', ' ', '[', 'e', ']']
        (Keystream.ofSeed 7)).1 ≠ .ok phrase) := by
  have h : echoes.Unproductive echoTags := by
    rintro tag (rfl | rfl)
    · refine ⟨⟨rfl, by decide, by decide, by simp [body], by decide, by decide⟩, rfl, Or.inr ?_⟩
      refine ⟨_, rfl, by simp, fun a ha => ?_⟩
      rcases List.mem_pair.mp ha with rfl | rfl
      · exact ⟨_, Or.inl rfl, by decide⟩
      · exact ⟨_, Or.inr rfl, by decide⟩
    · exact ⟨⟨rfl, by decide, by decide, by simp [body], by decide, by decide⟩, rfl,
        Or.inl ⟨rfl, rfl⟩⟩
  have hq : Holds echoTags ['[', '!', ']', ' ', '[', 'e', ']'] := ⟨_, Or.inl rfl, by decide⟩
  exact ⟨⟨h, hq⟩, ((unproductive_never_ok h (Keystream.ofSeed 7)).1 _ hq).1⟩

end Expander

end PhraseGrammar
