import PhraseGrammar.Proofs.Sizes
import PhraseGrammar.Proofs.TagValues

set_option autoImplicit false

/-! # Early calls

A tag may have a tag inside of it, as in `[[animal] sound]`. It is never read as it stands: the
hidden tag `[!animal]` before it is taken up first, and the text that it draws replaces `[animal]`
wherever it occurs, also within the other tag. So what is shown for `[animal]` and what the other
tag looks up agree (`Engine.phrase_of_earlyCall`).

Two cycles expand such a query. The first one puts the drawn text in both places
(`EarlyCall.apply_hidden`), and what is left then is a query with one plain tag
(`EarlyCall.apply_inner`).
-/

namespace PhraseGrammar

open Expander Tag Text

/-! ## Plain keys -/

/-- A text that can be a key without marker and label, and that is read as it stands. -/
structure Tag.PlainKey (t : Text) : Prop where
  bracketFree : BracketFree t
  no_slash : '/' ∉ t
  no_label : '#' ∉ t
  not_hidden : t.head? ≠ some '!'
  not_optional : t.head? ≠ some '?'
  not_doubled : ¬ Doubled t

namespace Tag

instance (t : Text) : Decidable (PlainKey t) :=
  decidable_of_iff
    (BracketFree t ∧ '/' ∉ t ∧ '#' ∉ t ∧ t.head? ≠ some '!' ∧ t.head? ≠ some '?' ∧ ¬ Doubled t)
    ⟨fun ⟨h₁, h₂, h₃, h₄, h₅, h₆⟩ => ⟨h₁, h₂, h₃, h₄, h₅, h₆⟩,
      fun h => ⟨h.bracketFree, h.no_slash, h.no_label, h.not_hidden, h.not_optional,
        h.not_doubled⟩⟩

variable {t : Text}

theorem PlainKey.no_marker (h : PlainKey t) : ∀ c ∈ t.head?, c ≠ '!' ∧ c ≠ '?' := by
  intro c hc
  constructor
  · rintro rfl
    exact h.not_hidden hc
  · rintro rfl
    exact h.not_optional hc

theorem PlainKey.ofInside_eq (h : PlainKey t) : ofInside t = ⟨.named, t, none⟩ := by
  rw [ofInside_of_no_marker h.no_marker, ofBody, splitLabel_of_not_mem h.no_label]
  simp [h.no_slash]

theorem PlainKey.ofInside_hidden (h : PlainKey t) : ofInside ('!' :: t) = ⟨.hidden, t, none⟩ := by
  rw [ofInside, ofBody, splitLabel_of_not_mem h.no_label]
  rfl

/-- A key does not begin with the marker of hidden tags. -/
theorem PlainKey.ne_hidden (h : PlainKey t) (s : Text) : t ≠ '!' :: s := by
  rintro rfl
  exact h.not_hidden rfl

end Tag

/-! ## A tag between two texts -/

namespace Text

/-- What becomes of a tag between two texts without brackets. -/
theorem replace_between {lead inside rest : Text} (hlead : BracketFree lead)
    (hinside : BracketFree inside) (hdoubled : ¬ Doubled inside) (hrest : BracketFree rest)
    (new : Text) :
    replace (bracketed inside) new (lead ++ bracketed inside ++ rest).halveSpaces
      = lead.halveSpaces ++ new ++ rest.halveSpaces := by
  rw [halveSpaces_around, halveSpaces_eq_self (mt doubled_bracketed.mp hdoubled),
    replace_around hinside, replace_target (bracketed_ne_nil inside),
    replace_bracketed_of_not_mem new (Or.inl hlead.halveSpaces.1),
    replace_bracketed_of_not_mem new (Or.inl hrest.halveSpaces.1)]

end Text

/-! ## The texts of an early call -/

/-- The texts of a query with an early call: the key of the hidden tag, what the other tag adds to
it, and what stands before, between and behind the two tags that are shown. -/
structure EarlyCall where
  key : Text
  suffix : Text
  before : Text
  between : Text
  behind : Text

namespace EarlyCall

/-- The query behind the hidden tag, with a text in the place of the shown tag, also where that is
a part of the other tag. -/
def shown (c : EarlyCall) (t : Text) : Text :=
  c.before ++ t ++ c.between ++ bracketed (t ++ c.suffix) ++ c.behind

/-- **The query** `[!key]before[key]between[[key]suffix]behind`. -/
def query (c : EarlyCall) : Text := bracketed ('!' :: c.key) ++ c.shown (bracketed c.key)

/-- What is left of the query when both tags have a text. -/
def resolved (c : EarlyCall) (v w : Text) : Text :=
  c.before ++ v ++ c.between ++ w ++ c.behind

/-- The texts with their spaces halved. -/
def halved (c : EarlyCall) : EarlyCall :=
  { c with
    before := c.before.halveSpaces
    between := c.between.halveSpaces
    behind := c.behind.halveSpaces }

/-- The shown tag and the one within the other tag, each with what stands around it. -/
theorem shown_eq (c : EarlyCall) (t : Text) :
    c.shown t = c.before ++ t ++ (c.between ++ ['[']) ++ t ++ (c.suffix ++ ']' :: c.behind) := by
  simp [shown, bracketed]

/-- What the texts of an early call have to be for their tags to be read. -/
structure Plain (c : EarlyCall) : Prop where
  key : PlainKey c.key
  suffix_free : BracketFree c.suffix
  suffix_not_doubled : ¬ Doubled c.suffix
  before_free : BracketFree c.before
  between_free : BracketFree c.between
  behind_free : BracketFree c.behind

variable {c : EarlyCall}

theorem Plain.halved (h : c.Plain) : c.halved.Plain :=
  { h with
    before_free := h.before_free.halveSpaces
    between_free := h.between_free.halveSpaces
    behind_free := h.behind_free.halveSpaces }

/-- Replacing a tag acts on the shown tag and on the one within the other tag alike. -/
theorem Plain.replace_shown (h : c.Plain) {b : Text} (hb : BracketFree b) (new : Text) :
    replace (bracketed b) new (c.shown (bracketed c.key))
      = c.shown (if c.key = b then new else bracketed c.key) := by
  -- no closing bracket stands before the inner tag, and no opening one behind it, so that no tag
  -- is found in what surrounds the two
  have hbefore := replace_bracketed_of_not_mem (b := b) new (Or.inl h.before_free.1)
  have hbetween : replace (bracketed b) new (c.between ++ ['[']) = c.between ++ ['['] :=
    replace_bracketed_of_not_mem new (Or.inr (by simp [h.between_free.2]))
  have hend : replace (bracketed b) new (c.suffix ++ ']' :: c.behind)
      = c.suffix ++ ']' :: c.behind :=
    replace_bracketed_of_not_mem new (Or.inl (by simp [h.suffix_free.1, h.behind_free.1]))
  rw [shown_eq, shown_eq, replace_around hb, replace_around hb,
    replace_bracketed h.key.bracketFree, hbefore, hbetween, hend]

theorem Plain.halveSpaces_shown (h : c.Plain) :
    (c.shown (bracketed c.key)).halveSpaces = c.halved.shown (bracketed c.key) := by
  have hkey := halveSpaces_eq_self (mt doubled_bracketed.mp h.key.not_doubled)
  rw [shown_eq, shown_eq, halveSpaces_around, halveSpaces_around, hkey,
    halveSpaces_append_cons c.between (by decide) [],
    halveSpaces_append_cons c.suffix (by decide) c.behind,
    halveSpaces_eq_self h.suffix_not_doubled]
  rfl

/-- The hidden tag is taken out of the query. -/
theorem Plain.replace_query (h : c.Plain) :
    replace (bracketed ('!' :: c.key)) [] c.query = c.shown (bracketed c.key) := by
  have hfree : BracketFree ('!' :: c.key) := bracketFree_cons.mpr ⟨by decide, h.key.bracketFree⟩
  calc replace (bracketed ('!' :: c.key)) [] c.query
      = replace (bracketed ('!' :: c.key)) []
          ([] ++ bracketed ('!' :: c.key) ++ c.shown (bracketed c.key)) := rfl
    _ = c.shown (if c.key = '!' :: c.key then [] else bracketed c.key) := by
        rw [replace_around hfree, replace_nil, replace_target (bracketed_ne_nil _),
          h.replace_shown hfree]
        rfl
    _ = c.shown (bracketed c.key) := by rw [if_neg (h.key.ne_hidden _)]

/-- What is left of the query behind both cycles. -/
def settled (c : EarlyCall) (v w : Text) : Text :=
  (c.before.halveSpaces ++ v ++ c.between.halveSpaces).halveSpaces ++ w
    ++ c.behind.halveSpaces.halveSpaces

theorem settled_sublist (c : EarlyCall) (v w : Text) :
    (c.settled v w).Sublist (c.resolved v w) := by
  have hlead : (c.before.halveSpaces ++ v ++ c.between.halveSpaces).halveSpaces.Sublist
      (c.before ++ v ++ c.between) :=
    (halveSpaces_sublist _).trans
      (((halveSpaces_sublist _).append (.refl v)).append (halveSpaces_sublist _))
  have hbehind := (halveSpaces_sublist c.behind.halveSpaces).trans (halveSpaces_sublist c.behind)
  exact (hlead.append (.refl w)).append hbehind

/-- Up to runs of spaces, both tags are replaced by their texts. -/
theorem squeeze_settled (c : EarlyCall) (v w : Text) :
    squeeze ' ' (c.settled v w) = squeeze ' ' (c.resolved v w) := by
  refine squeeze_append_congr (squeeze_append_congr ?_ rfl) ?_
  · rw [squeeze_halveSpaces]
    exact squeeze_append_congr
      (squeeze_append_congr (squeeze_halveSpaces c.before) rfl) (squeeze_halveSpaces c.between)
  · rw [squeeze_halveSpaces, squeeze_halveSpaces]

theorem shown_halved_sublist (c : EarlyCall) (v : Text) :
    (c.halved.shown v).Sublist (c.shown v) := by
  have hlead := ((halveSpaces_sublist c.before).append (.refl v)).append
    (halveSpaces_sublist c.between)
  exact (hlead.append (.refl _)).append (halveSpaces_sublist c.behind)

/-! ## Both cycles -/

/-- **The first cycle** puts the text of the hidden tag in both places. -/
theorem Plain.apply_hidden (h : c.Plain) {v : Text} {limit : Nat}
    (hsize : (c.shown v).byteSize ≤ limit) :
    (placing c.query (bracketed ('!' :: c.key)) (ofInside ('!' :: c.key)) v).apply limit
      = .ok (c.halved.shown v) := by
  have hplacing : placing c.query (bracketed ('!' :: c.key)) (ofInside ('!' :: c.key)) v
      = ⟨c.shown (bracketed c.key), bracketed c.key, v⟩ := by
    rw [h.key.ofInside_hidden, ← h.replace_query]
    rfl
  have houtcome : replace (bracketed c.key) v (c.shown (bracketed c.key)).halveSpaces
      = c.halved.shown v := by
    rw [h.halveSpaces_shown]
    exact (h.halved.replace_shown h.key.bracketFree v).trans (congrArg _ (if_pos rfl))
  rw [hplacing, Substitution.apply_of_le, houtcome]
  exact houtcome ▸ (byteSize_le_of_sublist (c.shown_halved_sublist v)).trans hsize

/-- **The second cycle** replaces the other tag, whose key is complete by then. -/
theorem Plain.apply_inner (h : c.Plain) {v w : Text} {limit : Nat} (hv : BracketFree v)
    (hinner : PlainKey (v ++ c.suffix)) (hsize : (c.resolved v w).byteSize ≤ limit) :
    (placing (c.halved.shown v) (bracketed (v ++ c.suffix)) (ofInside (v ++ c.suffix)) w).apply
        limit
      = .ok (c.settled v w) := by
  have hlead : BracketFree (c.before.halveSpaces ++ v ++ c.between.halveSpaces) :=
    bracketFree_append.mpr
      ⟨bracketFree_append.mpr ⟨h.before_free.halveSpaces, hv⟩, h.between_free.halveSpaces⟩
  have houtcome : replace (bracketed (v ++ c.suffix)) w (c.halved.shown v).halveSpaces
      = c.settled v w :=
    replace_between hlead hinner.bracketFree hinner.not_doubled h.behind_free.halveSpaces w
  have hkind : (ofInside (v ++ c.suffix)).kind ≠ .hidden := by simp [hinner.ofInside_eq]
  rw [placing_of_not_hidden hkind, Substitution.apply_of_le, houtcome]
  exact houtcome ▸ (byteSize_le_of_sublist (c.settled_sublist v w)).trans hsize

end EarlyCall

/-! ## The expansion -/

namespace Expander

variable {σ : Type} [WordSource σ] {x : Expander} {c : EarlyCall} {alternatives : List Text}

/-- **The grammar supports an early call.** The key of the hidden tag names a category with
alternatives, each of which makes a plain key of the other tag. Neither key is overridden, the texts
that come into the query hold no bracket and no dollar sign, and the limits leave room. -/
structure Supports (x : Expander) (c : EarlyCall) (alternatives : List Text) : Prop where
  key : PlainKey c.key
  not_overridden : x.overrides.lookup c.key = none
  category : x.grammar.get? c.key = some alternatives
  nonempty : alternatives ≠ []
  texts : ∀ t ∈ [c.before, c.between, c.behind], BracketFree t ∧ '$' ∉ t
  alternatives_free : ∀ v ∈ alternatives, '$' ∉ v
  inner : ∀ v ∈ alternatives, PlainKey (v ++ c.suffix)
  inner_not_overridden : ∀ v ∈ alternatives, x.overrides.lookup (v ++ c.suffix) = none
  inner_no_article : ∀ v ∈ alternatives, Article.isKey (v ++ c.suffix) = false
  terms_free : ∀ v ∈ alternatives, ∀ terms, x.grammar.get? (v ++ c.suffix) = some terms →
    ∀ w ∈ terms, BracketFree w ∧ '$' ∉ w
  cycles : 3 ≤ x.cycleLimit
  shown_size : ∀ v ∈ alternatives, (c.shown v).byteSize ≤ x.sizeLimit
  resolved_size : ∀ v ∈ alternatives, ∀ terms, x.grammar.get? (v ++ c.suffix) = some terms →
    ∀ w ∈ terms, (c.resolved v w).byteSize ≤ x.sizeLimit

theorem Supports.plain (h : x.Supports c alternatives) : c.Plain := by
  obtain ⟨v, rest, hv⟩ := List.exists_cons_of_ne_nil h.nonempty
  have hinner := h.inner v (by simp [hv])
  exact
    { key := h.key
      suffix_free := (bracketFree_append.mp hinner.bracketFree).2
      suffix_not_doubled := fun hd =>
        hinner.not_doubled (hd.trans (List.suffix_append v c.suffix).isInfix)
      before_free := (h.texts c.before (by simp)).1
      between_free := (h.texts c.between (by simp)).1
      behind_free := (h.texts c.behind (by simp)).1 }

/-- The key of a category draws one of its terms. -/
theorem meaning_of_category {key text : Text} {terms : List Text} {d : Draws σ} {s : σ}
    (hs : '/' ∉ key) (ho : x.overrides.lookup key = none) (hg : x.grammar.get? key = some terms)
    (hpick : pick terms d.source = (text, s)) :
    ∃ d', x.meaning key d = (.ok text, d') ∧ d'.source = s := by
  have hresolve : x.resolve key d.source = (text, s) := by
    rw [resolve, if_neg hs, ho, hg]
    exact hpick
  have hresolvable : x.Resolvable key :=
    Or.inr (Or.inr (Option.isSome_iff_exists.mpr ⟨terms, hg⟩))
  obtain ⟨htext, hsource⟩ := meaning_eq_resolve hresolvable d
  rw [hresolve] at htext hsource
  exact ⟨(x.meaning key d).2, Prod.ext htext rfl, hsource⟩

theorem meaning_of_nothing {key : Text} (hs : '/' ∉ key) (ho : x.overrides.lookup key = none)
    (hg : x.grammar.get? key = none) (ha : Article.isKey key = false) (d : Draws σ) :
    x.meaning key d = (.error (.unknownKey key), d) := by
  unfold meaning
  rw [if_neg (by simpa using hs), ho]
  simp [hg, ha]

/-- A query that was not found twice in a row is remembered. -/
theorem exists_next? (previous query : Text) :
    ∃ next, Progress.next? ⟨previous, false⟩ query = some next := by
  unfold Progress.next?
  split
  · exact ⟨_, rfl⟩
  · exact ⟨_, rfl⟩

theorem pick_mem (terms : List Text) (s : σ) :
    (pick terms s).1 ∈ terms ∨ terms = [] ∧ (pick terms s).1 = [] := by
  cases terms with
  | nil => exact Or.inr ⟨rfl, rfl⟩
  | cons term rest => exact Or.inl (List.get_mem _ _)

theorem Supports.mem_of_pick (h : x.Supports c alternatives) {source s : σ} {v : Text}
    (hpick : pick alternatives source = (v, s)) : v ∈ alternatives := by
  have hmem := (pick_mem alternatives source).resolve_right fun hnil => h.nonempty hnil.1
  rwa [hpick] at hmem

/-- A text that is drawn for the other tag is a plain text, and leaves room. -/
theorem Supports.drawn (h : x.Supports c alternatives) {v w : Text} (hv : v ∈ alternatives)
    {terms : List Text} (hg : x.grammar.get? (v ++ c.suffix) = some terms)
    (hw : w ∈ terms ∨ terms = [] ∧ w = []) :
    (BracketFree w ∧ '$' ∉ w) ∧ (c.resolved v w).byteSize ≤ x.sizeLimit := by
  rcases hw with hw | ⟨-, rfl⟩
  · exact ⟨h.terms_free v hv terms hg w hw, h.resolved_size v hv terms hg w hw⟩
  · refine ⟨by simp, ?_⟩
    have hsublist : (c.resolved v []).Sublist (c.shown v) :=
      ((List.Sublist.refl _).append (List.nil_sublist _)).append (.refl c.behind)
    exact (byteSize_le_of_sublist hsublist).trans (h.shown_size v hv)

/-- What the two tags leave holds no tag and no article. -/
theorem Supports.settled_free (h : x.Supports c alternatives) {v w : Text} (hv : v ∈ alternatives)
    (hw : BracketFree w ∧ '$' ∉ w) : '[' ∉ c.settled v w ∧ '$' ∉ c.settled v w := by
  have hsubset := (c.settled_sublist v w).subset
  have hvfree := (bracketFree_append.mp (h.inner v hv).bracketFree).1
  have hbefore := h.texts c.before (by simp)
  have hbetween := h.texts c.between (by simp)
  have hbehind := h.texts c.behind (by simp)
  refine ⟨fun hc => ?_, fun hc => ?_⟩
  · have hmem := hsubset hc
    simp [EarlyCall.resolved, hbefore.1.1, hvfree.1, hbetween.1.1, hw.1.1, hbehind.1.1] at hmem
  · have hmem := hsubset hc
    simp [EarlyCall.resolved, hbefore.2, h.alternatives_free v hv, hbetween.2, hw.2, hbehind.2]
      at hmem

/-- **The hidden tag draws one of the alternatives**, and the text stands in both places. -/
theorem Supports.cycles_hidden (h : x.Supports c alternatives) {source s : σ} {v : Text}
    (hpick : pick alternatives source = (v, s)) :
    ∃ (n : Nat) (d : Draws σ), d.source = s ∧
      x.cycles (x.cycleLimit - 1) {} c.query { source }
        = x.cycles (n + 1) ⟨c.query, false⟩ (c.halved.shown v) d := by
  obtain ⟨n, hn⟩ : ∃ n, x.cycleLimit - 1 = n + 1 + 1 := by
    have hcycles := h.cycles
    exact ⟨x.cycleLimit - 3, by omega⟩
  obtain ⟨d, hdraw, hsource⟩ := meaning_of_category (d := Draws.startTag { source })
    h.key.no_slash h.not_overridden h.category hpick
  have hfree : BracketFree ('!' :: c.key) := bracketFree_cons.mpr ⟨by decide, h.key.bracketFree⟩
  have hfirst : Query.FirstTag c.query ('!' :: c.key) :=
    ⟨[], c.shown (bracketed c.key), rfl, bracketFree_nil, hfree⟩
  have hnext : Progress.next? {} c.query = some ⟨c.query, false⟩ :=
    next?_of_ne (by simp [EarlyCall.query, bracketed])
  have htext : x.textFor (ofInside ('!' :: c.key)) (Draws.startTag { source }) = (.ok v, d) := by
    rw [h.key.ofInside_hidden]
    exact hdraw
  refine ⟨n, d, hsource, ?_⟩
  rw [hn, cycles_firstTag x (n + 1) _ hfirst hnext, htext]
  simp only [h.plain.apply_hidden (h.shown_size v (h.mem_of_pick hpick))]

/-- The other tag is plain by then, and it is the first one. -/
theorem Supports.firstTag_inner (h : x.Supports c alternatives) {v : Text}
    (hv : v ∈ alternatives) : Query.FirstTag (c.halved.shown v) (v ++ c.suffix) := by
  have hinner := (h.inner v hv).bracketFree
  have hhalved := h.plain.halved
  refine ⟨c.halved.before ++ v ++ c.halved.between, c.halved.behind, rfl, ?_, hinner⟩
  exact bracketFree_append.mpr ⟨bracketFree_append.mpr
    ⟨hhalved.before_free, (bracketFree_append.mp hinner).1⟩, hhalved.between_free⟩

/-- No category has the name that the drawn text makes. -/
theorem Supports.expand_of_none (h : x.Supports c alternatives) {source s : σ} {v : Text}
    (hpick : pick alternatives source = (v, s)) (hg : x.grammar.get? (v ++ c.suffix) = none) :
    (x.expand c.query source).1 = .error (.unknownKey (v ++ c.suffix)) ∧
      (x.expand c.query source).2.source = s := by
  have hv := h.mem_of_pick hpick
  have hinner := h.inner v hv
  obtain ⟨n, d, hsource, hcycles⟩ := h.cycles_hidden hpick
  obtain ⟨next, hnext⟩ := exists_next? c.query (c.halved.shown v)
  have htext : x.textFor (ofInside (v ++ c.suffix)) (Draws.startTag d)
      = (.error (.unknownKey (v ++ c.suffix)), Draws.startTag d) := by
    rw [hinner.ofInside_eq]
    exact meaning_of_nothing hinner.no_slash (h.inner_not_overridden v hv) hg
      (h.inner_no_article v hv) _
  unfold expand
  rw [hcycles, cycles_firstTag x n d (h.firstTag_inner hv) hnext, htext]
  exact ⟨rfl, hsource⟩

/-- A category has the name that the drawn text makes. -/
theorem Supports.expand_of_some (h : x.Supports c alternatives) {source s s' : σ} {v w : Text}
    (hpick : pick alternatives source = (v, s)) {terms : List Text}
    (hg : x.grammar.get? (v ++ c.suffix) = some terms) (hpick' : pick terms s = (w, s')) :
    (x.expand c.query source).1 = .ok (c.settled v w).trim ∧
      (x.expand c.query source).2.source = s' := by
  have hv := h.mem_of_pick hpick
  have hinner := h.inner v hv
  obtain ⟨n, d, rfl, hcycles⟩ := h.cycles_hidden hpick
  obtain ⟨next, hnext⟩ := exists_next? c.query (c.halved.shown v)
  obtain ⟨d', hdraw, hsource⟩ := meaning_of_category (d := Draws.startTag d)
    hinner.no_slash (h.inner_not_overridden v hv) hg hpick'
  have htext : x.textFor (ofInside (v ++ c.suffix)) (Draws.startTag d) = (.ok w, d') := by
    rw [hinner.ofInside_eq]
    exact hdraw
  have hw : w ∈ terms ∨ terms = [] ∧ w = [] := by
    have hmem := pick_mem terms d.source
    rwa [hpick'] at hmem
  obtain ⟨hfree, hsize⟩ := h.drawn hv hg hw
  obtain ⟨htag, hdollar⟩ := h.settled_free hv hfree
  unfold expand
  rw [hcycles, cycles_firstTag x n d (h.firstTag_inner hv) hnext, htext]
  simp only [h.plain.apply_inner (bracketFree_append.mp hinner.bracketFree).1 hinner hsize,
    cycles_of_not_mem x n next _ htag]
  exact ⟨finish_of_not_mem hdollar, hsource⟩

end Expander

/-! ## The phrase -/

namespace Engine

variable {σ : Type} [WordSource σ]

theorem phrase_eq (e : Engine σ) (query : Text) (overrides : Overrides) :
    e.phrase query overrides
      = (((e.expander overrides).expand query e.source).1.mapError .expansion,
          { e with source := ((e.expander overrides).expand query e.source).2.source }) := rfl

/-- **An early call keeps what is shown and what is looked up in agreement.** The hidden tag draws
an alternative. The phrase shows it where the tag stands again, and in the place of the other tag a
term of the category that its name begins; without such a category this is the error. No bracket
is ever found inside of a tag. -/
theorem phrase_of_earlyCall {e : Engine σ} {overrides : Overrides} {c : EarlyCall}
    {alternatives : List Text} (h : (e.expander overrides).Supports c alternatives) :
    ∃ v s, pick alternatives e.source = (v, s) ∧ v ∈ alternatives ∧
      (e.grammar.get? (v ++ c.suffix) = none →
        e.phrase c.query overrides
          = (.error (.expansion (.unknownKey (v ++ c.suffix))), { e with source := s })) ∧
      (∀ terms, e.grammar.get? (v ++ c.suffix) = some terms →
        ∃ w s' phrase, pick terms s = (w, s') ∧ (w ∈ terms ∨ terms = [] ∧ w = []) ∧
          e.phrase c.query overrides = (.ok phrase, { e with source := s' }) ∧
          squeeze ' ' phrase = squeeze ' ' (c.resolved v w).trim) ∧
      ∀ column tag,
        (e.phrase c.query overrides).1 ≠ .error (.expansion (.nestedBracket column tag)) := by
  obtain ⟨⟨v, s⟩, hpick⟩ : ∃ r, pick alternatives e.source = r := ⟨_, rfl⟩
  cases hg : e.grammar.get? (v ++ c.suffix) with
  | none =>
      obtain ⟨herror, hsource⟩ := h.expand_of_none hpick hg
      have hphrase : e.phrase c.query overrides
          = (.error (.expansion (.unknownKey (v ++ c.suffix))), { e with source := s }) := by
        rw [phrase_eq, herror, hsource]
        rfl
      refine ⟨v, s, hpick, h.mem_of_pick hpick, fun _ => hphrase, ?_, ?_⟩
      · intro terms hsome
        rw [hg] at hsome
        cases hsome
      · simp [hphrase]
  | some terms =>
      obtain ⟨⟨w, s'⟩, hpick'⟩ : ∃ r, pick terms s = r := ⟨_, rfl⟩
      obtain ⟨hok, hsource⟩ := h.expand_of_some hpick hg hpick'
      have hphrase : e.phrase c.query overrides
          = (.ok (c.settled v w).trim, { e with source := s' }) := by
        rw [phrase_eq, hok, hsource]
        rfl
      refine ⟨v, s, hpick, h.mem_of_pick hpick, ?_, ?_, ?_⟩
      · intro hnone
        rw [hg] at hnone
        cases hnone
      · intro terms' hsome
        obtain rfl : terms = terms' := Option.some.inj (hg.symm.trans hsome)
        have hw := pick_mem terms s
        rw [hpick'] at hw
        exact ⟨w, s', (c.settled v w).trim, hpick', hw, hphrase,
          squeeze_trim_congr (c.squeeze_settled v w)⟩
      · simp [hphrase]

/-! ### Animals and their sounds -/

/-- Three animals: one with a sound, one with none, and one of which nothing is known. -/
def barn : Engine Keystream where
  grammar := {
    categories := [(['c', 'o', 'w', ' ', 's'], [['m', 'o', 'o']]), (['e', 'e', 'l', ' ', 's'], []),
      (['k'], [['c', 'o', 'w'], ['e', 'e', 'l'], ['e', 'm', 'u']])] }
  settings := .default
  source := Keystream.ofSeed 7

/-- The query `[!k]The [k] says [[k] s].`, with two spaces before `says`. -/
def barnCall : EarlyCall where
  key := ['k']
  suffix := [' ', 's']
  before := ['T', 'h', 'e', ' ']
  between := [' ', ' ', 's', 'a', 'y', 's', ' ']
  behind := ['.']

theorem barn_supports : (barn.expander []).Supports barnCall
    [['c', 'o', 'w'], ['e', 'e', 'l'], ['e', 'm', 'u']] := by
  have hterms : ∀ entry ∈ barn.grammar.categories, ∀ w ∈ entry.2, BracketFree w ∧ '$' ∉ w := by
    decide
  have hsizes : ∀ v ∈ [['c', 'o', 'w'], ['e', 'e', 'l'], ['e', 'm', 'u']],
      ∀ entry ∈ barn.grammar.categories, ∀ w ∈ entry.2,
        (barnCall.resolved v w).byteSize ≤ (barn.expander []).sizeLimit := by decide +kernel
  exact
    { key := by decide
      not_overridden := rfl
      category := rfl
      nonempty := by decide
      texts := by decide
      alternatives_free := by decide
      inner := by decide
      inner_not_overridden := fun _ _ => rfl
      inner_no_article := by decide
      terms_free := fun _ _ _ hg => hterms _ (mem_of_lookup hg)
      cycles := by decide
      shown_size := by decide +kernel
      resolved_size := fun v hv _ hg => hsizes v hv _ (mem_of_lookup hg) }

theorem barn_phrase_of_earlyCall :
    ((barn.expander []).Supports barnCall [['c', 'o', 'w'], ['e', 'e', 'l'], ['e', 'm', 'u']] ∧
      barnCall.query = "[!k]The [k]  says [[k] s].".toList) ∧
    ∃ v s, pick [['c', 'o', 'w'], ['e', 'e', 'l'], ['e', 'm', 'u']] barn.source = (v, s) ∧
      v ∈ [['c', 'o', 'w'], ['e', 'e', 'l'], ['e', 'm', 'u']] ∧
      (barn.grammar.get? (v ++ [' ', 's']) = none →
        barn.phrase barnCall.query []
          = (.error (.expansion (.unknownKey (v ++ [' ', 's']))), { barn with source := s })) ∧
      (∀ terms, barn.grammar.get? (v ++ [' ', 's']) = some terms →
        ∃ w s' phrase, pick terms s = (w, s') ∧ (w ∈ terms ∨ terms = [] ∧ w = []) ∧
          barn.phrase barnCall.query [] = (.ok phrase, { barn with source := s' }) ∧
          squeeze ' ' phrase = squeeze ' ' (barnCall.resolved v w).trim) ∧
      ∀ column tag,
        (barn.phrase barnCall.query []).1 ≠ .error (.expansion (.nestedBracket column tag)) :=
  ⟨⟨barn_supports, by decide +kernel⟩, phrase_of_earlyCall barn_supports⟩

end Engine

end PhraseGrammar
