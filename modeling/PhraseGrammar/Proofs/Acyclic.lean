import PhraseGrammar.Proofs.TagValues
import PhraseGrammar.Proofs.WellFormed
import Mathlib.Algebra.Order.BigOperators.Group.List
import Mathlib.Algebra.Order.Ring.Nat

set_option autoImplicit false

/-! # Acyclic grammars

A grammar is acyclic if its keys have a rank that falls from a key to the keys of the tags in its
texts (`Expander.Acyclic`). A cycle replaces a tag by a text that can hold many tags, also tags
that have been replaced before, so neither the size of the query nor the number of its tags need
fall. What falls is a weight: if no text holds more than `m` tags, a tag whose key has rank `r`
weighs `(m + 1) ^ r`, which is more than all tags of any text for its key together
(`sum_pow_lt`). So the weight of the query bounds the number of cycles, whatever is drawn
(`Expander.Acyclic.cycles_end`).
-/

namespace PhraseGrammar

open Text Tag Letter

/-! ## Weights -/

/-- A power outweighs any few powers with lower exponents. -/
theorem sum_pow_lt {l : List Nat} {m r : Nat} (hlen : l.length ≤ m) (h : ∀ k ∈ l, k < r) :
    (l.map fun k => (m + 1) ^ k).sum < (m + 1) ^ r := by
  cases r with
  | zero =>
      have hnil : l = [] :=
        List.eq_nil_iff_forall_not_mem.mpr fun k hk => Nat.not_lt_zero k (h k hk)
      simp [hnil]
  | succ r =>
      have hle : ∀ p ∈ l.map fun k => (m + 1) ^ k, p ≤ (m + 1) ^ r := by
        intro p hp
        obtain ⟨k, hk, rfl⟩ := List.mem_map.mp hp
        exact Nat.pow_le_pow_right (Nat.succ_pos m) (Nat.le_of_lt_succ (h k hk))
      have hpos : 0 < (m + 1) ^ r := Nat.pow_pos (Nat.succ_pos m)
      calc (l.map fun k => (m + 1) ^ k).sum
          ≤ (l.map fun k => (m + 1) ^ k).length * (m + 1) ^ r := by
            simpa using List.sum_le_card_nsmul _ _ hle
        _ ≤ m * (m + 1) ^ r := by
            rw [List.length_map]
            exact Nat.mul_le_mul_right _ hlen
        _ < (m + 1) * (m + 1) ^ r := Nat.mul_lt_mul_of_pos_right (Nat.lt_succ_self m) hpos
        _ = (m + 1) ^ (r + 1) := by rw [Nat.pow_succ, Nat.mul_comm]

namespace Letter

/-- The weight of all tags together. -/
def weight (w : Text → Nat) (ls : List Letter) : Nat := ((insides ls).map w).sum

theorem insides_replaceTag (b : Text) (ns ls : List Letter) :
    insides (replaceTag b ns ls)
      = (insides ls).flatMap fun inside => if inside = b then insides ns else [inside] := by
  induction ls with
  | nil => rfl
  | cons l ls ih =>
      rw [replaceTag, List.flatMap_cons, insides_append, ← replaceTag, ih]
      cases l with
      | char c => rfl
      | tag inside =>
          rw [insides_tag_cons, List.flatMap_cons]
          by_cases hb : inside = b
          · rw [if_pos hb, if_pos (congrArg tag hb)]
          · rw [if_neg hb, if_neg (mt tag.inj hb)]
            rfl

/-- Every occurrence of a tag gives its weight away for that of the letters in its place. -/
theorem weight_replaceTag (w : Text → Nat) (b : Text) (ns ls : List Letter) :
    weight w (replaceTag b ns ls) + (insides ls).count b * w b
      = weight w ls + (insides ls).count b * weight w ns := by
  unfold weight
  rw [insides_replaceTag]
  induction insides ls with
  | nil => simp
  | cons inside rest ih =>
      rw [List.flatMap_cons, List.map_append, List.sum_append, List.map_cons, List.sum_cons]
      by_cases hb : inside = b
      · rw [if_pos hb, hb, List.count_cons_self, Nat.add_mul, Nat.add_mul]
        omega
      · rw [if_neg hb, List.count_cons_of_ne hb, List.map_singleton, List.sum_singleton]
        omega

theorem weight_replaceTag_le {w : Text → Nat} {b : Text} {ns : List Letter}
    (h : weight w ns ≤ w b) (ls : List Letter) : weight w (replaceTag b ns ls) ≤ weight w ls := by
  have heq := weight_replaceTag w b ns ls
  have hle := Nat.mul_le_mul_left ((insides ls).count b) h
  omega

theorem weight_replaceTag_lt {w : Text → Nat} {b : Text} {ns ls : List Letter}
    (h : weight w ns < w b) (hb : b ∈ insides ls) :
    weight w (replaceTag b ns ls) < weight w ls := by
  have heq := weight_replaceTag w b ns ls
  have hlt := Nat.mul_lt_mul_of_pos_left h (List.count_pos_iff.mpr hb)
  omega

/-- A tag is gone when it is replaced by letters that do not hold it. -/
theorem not_mem_insides_replaceTag {b b' : Text} {ns ls : List Letter}
    (hns : b' ∉ insides ns) (hls : b' ∈ insides ls → b' = b) :
    b' ∉ insides (replaceTag b ns ls) := by
  rw [insides_replaceTag, List.mem_flatMap]
  rintro ⟨inside, hin, hmem⟩
  split at hmem
  · exact hns hmem
  · next hne =>
      obtain rfl := List.mem_singleton.mp hmem
      exact hne (hls hin)

/-- Every tag has an opening bracket. -/
theorem length_insides_le (ls : List Letter) : (insides ls).length ≤ (text ls).count '[' := by
  induction ls with
  | nil => exact Nat.le_refl 0
  | cons l ls ih =>
      cases l with
      | char c =>
          rw [insides_char_cons, text_char_cons, List.count_cons]
          omega
      | tag inside =>
          rw [insides_tag_cons, text_tag_cons, List.count_append, List.length_cons, bracketed,
            List.count_cons_self]
          omega

end Letter

/-! ## Keys in a text -/

/-- The text holds a tag with the key. -/
def Tag.KeyIn (key t : Text) : Prop :=
  ∃ inside, BracketFree inside ∧ bracketed inside <:+: t ∧ (ofInside inside).key = key

/-- A tag that a flat text holds is one of its letters. -/
theorem Letter.mem_insides_of_infix {ls : List Letter} (hflat : ∀ l ∈ ls, l.Flat) {b : Text}
    (hb : BracketFree b) (h : bracketed b <:+: text ls) : b ∈ insides ls := by
  induction ls with
  | nil => simp [bracketed] at h
  | cons l ls ih =>
      have hl := hflat l List.mem_cons_self
      have ih := ih fun m hm => hflat m (List.mem_cons_of_mem l hm)
      cases l with
      | char c =>
          rw [text_char_cons, List.infix_cons_iff] at h
          rcases h with hp | hi
          · rw [bracketed, List.cons_prefix_cons] at hp
            exact absurd hp.1.symm hl.1
          · exact ih hi
      | tag b' =>
          rw [insides_tag_cons, List.mem_cons]
          have hcons : text (tag b' :: ls) = '[' :: (b' ++ [']'] ++ text ls) := by simp [bracketed]
          rw [hcons, List.infix_cons_iff, ← hcons, text_tag_cons] at h
          rcases h with ⟨v, hv⟩ | hi
          · -- both tags are the first one
            have hfirst : Query.FirstTag (bracketed b' ++ text ls) b :=
              ⟨[], v, by simpa using hv.symm, bracketFree_nil, hb⟩
            have hfirst' : Query.FirstTag (bracketed b' ++ text ls) b' :=
              ⟨[], text ls, by simp, bracketFree_nil, hl.1⟩
            exact Or.inl (hfirst.unique hfirst')
          · have hno : '[' ∉ b' ++ [']'] := by simp [hl.1.1]
            exact Or.inr (ih (infix_of_head_not_mem hno hi))

/-- The keys in a flat text are those of its letters. -/
theorem Tag.keyIn_text {ls : List Letter} (hflat : ∀ l ∈ ls, l.Flat) {key : Text} :
    KeyIn key (text ls) ↔ ∃ inside ∈ insides ls, (ofInside inside).key = key := by
  constructor
  · rintro ⟨inside, hfree, hi, hkey⟩
    exact ⟨inside, mem_insides_of_infix hflat hfree hi, hkey⟩
  · rintro ⟨inside, hin, hkey⟩
    have hmem := mem_insides.mp hin
    obtain ⟨s, t, rfl⟩ := List.append_of_mem hmem
    refine ⟨inside, (hflat _ hmem).1, ⟨text s, text t, ?_⟩, hkey⟩
    rw [text_append, text_tag_cons, List.append_assoc]

/-- Behind the marker of a hidden tag stands a tag with the same key. -/
theorem Unmarked.key_eq {body : Text} (h : Unmarked ('!' :: body)) :
    (ofInside body).key = (ofInside ('!' :: body)).key := by
  have hmarker : ∀ c ∈ body.head?, c ≠ '!' ∧ c ≠ '?' := by
    intro c hc
    obtain ⟨rest, rfl⟩ : ∃ rest, body = c :: rest := by
      cases body with
      | nil => cases hc
      | cons a rest => exact ⟨rest, by rw [Option.mem_some.mp hc]⟩
    obtain ⟨hk, hk'⟩ := h.kind_ne
    constructor
    · rintro rfl
      exact hk rfl
    · rintro rfl
      exact hk' rfl
  rw [ofInside_of_no_marker hmarker]
  rfl

namespace Expander

/-! ## Acyclic grammars -/

/-- The text is an alternative of the category, or it is forced for the key. -/
def TextOf (x : Expander) (key t : Text) : Prop :=
  (∃ alternatives, x.grammar.get? key = some alternatives ∧ t ∈ alternatives) ∨
    x.overrides.lookup key = some t

/-- A well-formed text without dollar signs, in which no key begins with a marker. -/
structure Tame (x : Expander) (t : Text) : Prop where
  wellFormed : x.WellFormed t
  no_marker : ∀ key, KeyIn key t → key.head? ≠ some '!' ∧ key.head? ≠ some '?'
  no_dollar : '$' ∉ t

/-- **An acyclic grammar.** Every text for a key is tame, and the keys in it have a lower rank. -/
def Acyclic (x : Expander) (rank : Text → Nat) : Prop :=
  ∀ key t, x.TextOf key t → x.Tame t ∧ ∀ key', KeyIn key' t → rank key' < rank key

/-- Flat letters of which every tag has a meaning and no marker before its key. -/
structure Ready (x : Expander) (ls : List Letter) : Prop where
  flat : ∀ l ∈ ls, l.Flat
  knows : ∀ inside ∈ insides ls, x.Knows (ofInside inside).key
  unmarked : ∀ inside ∈ insides ls, Unmarked inside

variable {x : Expander} {rank : Text → Nat}

theorem Tame.exists_ready {t : Text} (h : x.Tame t) : ∃ ls, text ls = t ∧ x.Ready ls := by
  obtain ⟨ls, rfl, hflat, hknows⟩ := h.wellFormed
  refine ⟨ls, rfl, hflat, hknows, fun inside hin => ?_⟩
  exact h.no_marker _ ((keyIn_text hflat).mpr ⟨inside, hin, rfl⟩)

theorem tame_text {ls : List Letter} (h : x.Ready ls) (hdollar : '$' ∉ text ls) :
    x.Tame (text ls) := by
  refine ⟨⟨ls, rfl, h.flat, h.knows⟩, fun key hkey => ?_, hdollar⟩
  obtain ⟨inside, hin, rfl⟩ := (keyIn_text h.flat).mp hkey
  exact h.unmarked inside hin

/-- It is enough to look at the entries of the grammar and of the overrides. -/
theorem acyclic_of_entries
    (hg : ∀ entry ∈ x.grammar.categories, ∀ t ∈ entry.2,
      x.Tame t ∧ ∀ key, KeyIn key t → rank key < rank entry.1)
    (ho : ∀ entry ∈ x.overrides,
      x.Tame entry.2 ∧ ∀ key, KeyIn key entry.2 → rank key < rank entry.1) : x.Acyclic rank := by
  rintro key t (⟨alternatives, halternatives, ht⟩ | hforced)
  · exact hg _ (mem_of_lookup halternatives) t ht
  · exact ho _ (mem_of_lookup hforced)

theorem ready_plain {t : Text} (h : BracketFree t) : x.Ready (plain t) := by
  refine ⟨flat_plain h, ?_, ?_⟩
  · simp [insides_plain]
  · simp [insides_plain]

theorem Ready.halve {ls : List Letter} (h : x.Ready ls) :
    x.Ready (PhraseGrammar.halve (char ' ') ls) :=
  ⟨flat_halve h.flat, by rw [insides_halve]; exact h.knows, by rw [insides_halve]; exact h.unmarked⟩

theorem Ready.replaceTag {ns ls : List Letter} (h : x.Ready ls) (hns : x.Ready ns) (b : Text) :
    x.Ready (Letter.replaceTag b ns ls) := by
  have hmem : ∀ inside ∈ insides (Letter.replaceTag b ns ls),
      inside ∈ insides ns ∨ inside ∈ insides ls := fun inside hin =>
    (mem_replaceTag (mem_insides.mp hin)).imp mem_insides.mpr mem_insides.mpr
  refine ⟨fun l hl => (mem_replaceTag hl).elim (hns.flat l) (h.flat l), fun inside hin => ?_,
    fun inside hin => ?_⟩
  · exact (hmem inside hin).elim (hns.knows inside) (h.knows inside)
  · exact (hmem inside hin).elim (hns.unmarked inside) (h.unmarked inside)

/-! The limits make no difference. -/

theorem Knows.congr {y : Expander} (hg : y.grammar = x.grammar) (ho : y.overrides = x.overrides)
    {key : Text} (h : x.Knows key) : y.Knows key := by
  unfold Knows at h ⊢
  rwa [hg, ho]

theorem Ready.congr {y : Expander} (hg : y.grammar = x.grammar) (ho : y.overrides = x.overrides)
    {ls : List Letter} (h : x.Ready ls) : y.Ready ls :=
  ⟨h.flat, fun inside hin => (h.knows inside hin).congr hg ho, h.unmarked⟩

theorem Acyclic.congr {y : Expander} (hg : y.grammar = x.grammar)
    (ho : y.overrides = x.overrides) (h : x.Acyclic rank) : y.Acyclic rank := by
  intro key t ht
  have ht' : x.TextOf key t := by
    unfold TextOf at ht ⊢
    rwa [hg, ho] at ht
  obtain ⟨htame, hfalls⟩ := h key t ht'
  obtain ⟨ls, rfl, hready⟩ := htame.exists_ready
  exact ⟨tame_text (hready.congr hg ho) htame.no_dollar, hfalls⟩

/-! ## What a tag is replaced by -/

/-- The texts that can come into a query hold a bounded number of tags. -/
theorem exists_tagBound (x : Expander) : ∃ m, x.AllTexts fun t => t.count '[' ≤ m := by
  let texts := x.grammar.categories.flatMap Prod.snd ++ x.overrides.map Prod.snd
  have hbound : ∀ t ∈ texts, t.count '[' ≤ (texts.map (List.count '[')).sum := fun t ht =>
    List.le_sum_of_mem (List.mem_map_of_mem ht)
  refine ⟨(texts.map (List.count '[')).sum,
    allTexts_of_entries (fun entry hentry a ha => ?_) fun entry hentry => ?_⟩
  · exact hbound a (List.mem_append_left _ (List.mem_flatMap.mpr ⟨entry, hentry, ha⟩))
  · exact hbound _ (List.mem_append_right _ (List.mem_map_of_mem hentry))

/-- The weight of a tag, by the rank of its key. -/
def rankWeight (rank : Text → Nat) (m : Nat) (inside : Text) : Nat :=
  (m + 1) ^ rank (ofInside inside).key

theorem rankWeight_pos (rank : Text → Nat) (m : Nat) (inside : Text) :
    0 < rankWeight rank m inside := Nat.pow_pos (Nat.succ_pos m)

/-- Letters that can take the place of a tag: together they weigh less than the tag, and their
keys have a lower rank. -/
structure Lighter (x : Expander) (rank : Text → Nat) (m : Nat) (inside : Text)
    (ns : List Letter) : Prop where
  ready : x.Ready ns
  weight_lt : weight (rankWeight rank m) ns < rankWeight rank m inside
  falls : ∀ b ∈ insides ns, rank (ofInside b).key < rank (ofInside inside).key

theorem Lighter.not_mem {m : Nat} {inside : Text} {ns : List Letter}
    (h : x.Lighter rank m inside ns) : inside ∉ insides ns :=
  fun hmem => Nat.lt_irrefl _ (h.falls inside hmem)

/-- A text without brackets has no tags at all. -/
theorem lighter_plain (rank : Text → Nat) (m : Nat) (inside : Text) {t : Text}
    (h : BracketFree t) : x.Lighter rank m inside (plain t) := by
  refine ⟨ready_plain h, ?_, by simp [insides_plain]⟩
  rw [weight, insides_plain]
  exact rankWeight_pos rank m inside

theorem Acyclic.lighter_of_textOf (h : x.Acyclic rank) {m : Nat} {inside t : Text}
    (ht : x.TextOf (ofInside inside).key t) (hm : t.count '[' ≤ m) :
    ∃ ns, text ns = t ∧ x.Lighter rank m inside ns := by
  obtain ⟨htame, hfalls⟩ := h _ _ ht
  obtain ⟨ns, rfl, hready⟩ := htame.exists_ready
  have hlower : ∀ b ∈ insides ns, rank (ofInside b).key < rank (ofInside inside).key :=
    fun b hb => hfalls _ ((keyIn_text hready.flat).mpr ⟨b, hb, rfl⟩)
  have hlen : ((insides ns).map fun b => rank (ofInside b).key).length ≤ m := by
    rw [List.length_map]
    exact Nat.le_trans (length_insides_le ns) hm
  have hsum := sum_pow_lt hlen (r := rank (ofInside inside).key) (by simpa using hlower)
  rw [List.map_map] at hsum
  exact ⟨ns, rfl, hready, hsum, hlower⟩

/-- **What a tag is replaced by** is lighter than the tag. -/
theorem Acyclic.lighter_of_textFor (h : x.Acyclic rank) {m : Nat}
    (hm : x.AllTexts fun t => t.count '[' ≤ m) {inside new : Text} (hin : BracketFree inside)
    {σ : Type} [WordSource σ] {d : Draws σ} (hnew : (x.textFor (ofInside inside) d).1 = .ok new) :
    ∃ ns, text ns = new ∧ x.Lighter rank m inside ns := by
  have hplain : ∀ {t : Text}, BracketFree t → ∃ ns, text ns = t ∧ x.Lighter rank m inside ns :=
    fun ht => ⟨_, text_plain _, lighter_plain rank m inside ht⟩
  have hkey : BracketFree (ofInside inside).key := key_of_cut (fun _ _ _ _ => BracketFree.cut) hin
  rcases means_of_textFor hnew with hmeans | ⟨-, rfl⟩
  · cases hmeans with
    | term _ hs => exact hplain (forall_mem_splitOn (fun _ _ => BracketFree.cut) hkey _ hs)
    | forced _ ho => exact h.lighter_of_textOf (Or.inr ho) (hm.2 _ _ ho)
    | alternative _ _ hg ha => exact h.lighter_of_textOf (Or.inl ⟨_, hg, ha⟩) (hm.1 _ _ hg _ ha)
    | nothing => exact hplain bracketFree_nil
    | article _ _ _ ha => exact hplain (Article.bracketFree_mark ha)
  · exact hplain bracketFree_nil

/-! ## The weight falls -/

/-- **Every cycle lowers the weight**, and the tag that it is about is gone. -/
theorem Ready.of_apply {ls ns : List Letter} (h : x.Ready ls) {m : Nat} {inside : Text}
    (hin : inside ∈ insides ls) (hns : x.Lighter rank m inside ns) {query : Text} {limit : Nat}
    (hq : (placing (text ls) (bracketed inside) (ofInside inside) (text ns)).apply limit
      = .ok query) :
    ∃ ls', query = text ls' ∧ x.Ready ls' ∧
      weight (rankWeight rank m) ls' < weight (rankWeight rank m) ls ∧ inside ∉ insides ls' := by
  obtain rfl := Substitution.eq_replace_of_apply hq
  have hfree : BracketFree inside := (h.flat _ (mem_insides.mp hin)).1
  by_cases hk : (ofInside inside).kind = .hidden
  · obtain ⟨body, rfl⟩ := ofInside_of_hidden hk
    have hbody : BracketFree body := (bracketFree_cons.mp hfree).2
    -- the hidden tag is taken out, and the tag without the marker weighs as much as it does
    have hsame : rankWeight rank m body = rankWeight rank m ('!' :: body) := by
      rw [rankWeight, (h.unmarked _ hin).key_eq, rankWeight]
    have htaken : x.Ready (Letter.replaceTag ('!' :: body) [] ls) :=
      h.replaceTag (ready_plain bracketFree_nil) _
    have hlt : weight (rankWeight rank m) (Letter.replaceTag ('!' :: body) [] ls)
        < weight (rankWeight rank m) ls :=
      weight_replaceTag_lt (rankWeight_pos rank m _) hin
    have hle : weight (rankWeight rank m) ns ≤ rankWeight rank m body := by
      rw [hsame]
      exact Nat.le_of_lt hns.weight_lt
    refine ⟨Letter.replaceTag body ns
        (PhraseGrammar.halve (char ' ') (Letter.replaceTag ('!' :: body) [] ls)),
      ?_, htaken.halve.replaceTag hns.ready body, ?_, ?_⟩
    · simp only [placing, hk, unmarked_ofInside_hidden]
      have hempty := replace_text h.flat hfree []
      rw [text_nil] at hempty
      rw [hempty, halveSpaces_text htaken.flat, replace_text htaken.halve.flat hbody]
    · refine Nat.lt_of_le_of_lt (weight_replaceTag_le hle _) ?_
      rw [weight, insides_halve]
      exact hlt
    · refine not_mem_insides_replaceTag hns.not_mem fun hmem => ?_
      rw [insides_halve] at hmem
      exact absurd hmem (not_mem_insides_replaceTag List.not_mem_nil fun _ => rfl)
  · rw [placing_of_not_hidden hk]
    refine ⟨Letter.replaceTag inside ns (PhraseGrammar.halve (char ' ') ls), ?_,
      h.halve.replaceTag hns.ready inside, ?_, not_mem_insides_replaceTag hns.not_mem fun _ => rfl⟩
    · rw [halveSpaces_text h.flat, replace_text h.halve.flat hfree]
    · have hin' : inside ∈ insides (PhraseGrammar.halve (char ' ') ls) := by
        rwa [insides_halve]
      have hlt := weight_replaceTag_lt hns.weight_lt hin'
      rwa [weight, weight, insides_halve, ← weight] at hlt

variable {σ : Type} [WordSource σ]

/-- **The weight bounds the number of cycles.** The query has changed since the cycle before, and
so the expansion never stands still. -/
theorem Acyclic.cycles_end (h : x.Acyclic rank) {m : Nat}
    (hm : x.AllTexts fun t => t.count '[' ≤ m) {n : Nat} {ls : List Letter} (hls : x.Ready ls)
    (hn : weight (rankWeight rank m) ls ≤ n) {progress : Progress}
    (hp : insides ls ≠ [] → progress.previous ≠ text ls) (d : Draws σ) :
    (∃ reached, (x.cycles n progress (text ls) d).1 = .ok reached) ∨
      (x.cycles n progress (text ls) d).1 = .error (.tooLarge x.sizeLimit) := by
  induction n generalizing ls progress d with
  | zero =>
      -- every tag weighs something, so there is none
      have hnil : insides ls = [] := by
        by_contra hne
        obtain ⟨b, rest, hin⟩ := List.exists_cons_of_ne_nil hne
        have hpos := rankWeight_pos rank m b
        rw [weight, hin, List.map_cons, List.sum_cons] at hn
        omega
      rw [cycles_of_not_mem x 0 progress d (opening_not_mem_text hls.flat hnil)]
      exact Or.inl ⟨_, rfl⟩
  | succ n ih =>
      cases hin : insides ls with
      | nil =>
          rw [cycles_of_not_mem x _ progress d (opening_not_mem_text hls.flat hin)]
          exact Or.inl ⟨_, rfl⟩
      | cons b rest =>
          have hfirst := firstTag_text hls.flat hin
          have hb : b ∈ insides ls := by simp [hin]
          have hcycle := x.firstCycle n d hfirst (next?_of_ne (hp (by simp [hin])).symm)
          generalize hdrawn : x.textFor (ofInside b) (Draws.startTag d) = drawn at hcycle
          generalize x.cycles (n + 1) progress (text ls) d = r at hcycle ⊢
          cases hcycle with
          | unresolved =>
              have hunknown := not_knows_of_textFor (congrArg Prod.fst hdrawn)
              exact absurd (hls.knows b hb) hunknown.2
          | tooLarge => exact Or.inr rfl
          | replaced happly =>
              obtain ⟨ns, rfl, hns⟩ :=
                h.lighter_of_textFor hm hfirst.bracketFree (congrArg Prod.fst hdrawn)
              obtain ⟨ls', rfl, hls', hlt, hgone⟩ := hls.of_apply hb hns happly
              -- the query has changed, so the expansion does not stand still
              have hprev := text_ne_text hls.flat hls'.flat hin hgone
              exact ih hls' (by omega) (fun _ => hprev) _

/-! ## Whole expansions -/

theorem Acyclic.dollarFree (h : x.Acyclic rank) : x.AllTexts ('$' ∉ ·) :=
  ⟨fun key alternatives hg a ha => (h key a (Or.inl ⟨alternatives, hg, ha⟩)).1.no_dollar,
    fun key t ho => (h key t (Or.inr ho)).1.no_dollar⟩

/-- An expansion of a tame query under a high enough limit on cycles. -/
theorem Acyclic.expand_of_weight (h : x.Acyclic rank) {m : Nat}
    (hm : x.AllTexts fun t => t.count '[' ≤ m) {ls : List Letter} (hls : x.Ready ls)
    (hdollar : '$' ∉ text ls) (hn : weight (rankWeight rank m) ls < x.cycleLimit) (source : σ) :
    (∃ phrase, (x.expand (text ls) source).1 = .ok phrase) ∨
      (x.expand (text ls) source).1 = .error (.tooLarge x.sizeLimit) := by
  -- the empty query is remembered at the start
  have hprev : insides ls ≠ [] → ({} : Progress).previous ≠ text ls := nil_ne_text hls.flat
  have hend := h.cycles_end hm hls (Nat.le_sub_one_of_lt hn) hprev ⟨source, {}⟩
  unfold expand
  rcases hend with ⟨reached, hok⟩ | herror
  · obtain ⟨hreach, -⟩ := reaches_of_cycles hok
    simp only [hok, Except.bind]
    cases hfinish : finish reached with
    | ok phrase => exact Or.inl ⟨phrase, rfl⟩
    | error e =>
        -- without dollar signs no article is broken
        rcases (hreach.brokenArticle hfinish).2 with hd | hd
        · exact absurd hd hdollar
        · exact absurd h.dollarFree hd
  · exact Or.inr (by simp only [herror, Except.bind])

/-- **Acyclic grammars always expand.** For every tame query there is a number of cycles that is
enough, whatever the source and the limit on sizes: under a higher limit on cycles an expansion
succeeds, unless its query grows too large. The number depends on the query, the grammar and the
forced texts alone. -/
theorem acyclic_expands {query : Text} (h : x.Acyclic rank) (hq : x.Tame query) :
    ∃ n, ∀ y : Expander, y.grammar = x.grammar → y.overrides = x.overrides → n < y.cycleLimit →
      ∀ (σ : Type) [WordSource σ] (source : σ),
        (∃ phrase, (y.expand query source).1 = .ok phrase) ∨
          (y.expand query source).1 = .error (.tooLarge y.sizeLimit) := by
  obtain ⟨ls, rfl, hls⟩ := hq.exists_ready
  obtain ⟨m, hm⟩ := x.exists_tagBound
  refine ⟨weight (rankWeight rank m) ls, fun y hg ho hn σ _ source => ?_⟩
  have hm' : y.AllTexts fun t => t.count '[' ≤ m := by
    unfold AllTexts
    rw [hg, ho]
    exact hm
  exact (h.congr hg ho).expand_of_weight hm' (hls.congr hg ho) hq.no_dollar hn source

/-! ### A clause of pairs -/

/-- The category `p` has a pair of `[x]`, the category `s` begins with a hidden `[x]`, and
`[an] [s]` is forced for `o`. -/
def clauses : Expander where
  grammar := {
    categories := [
      (['p'], [text [.tag ['x'], .char ' ', .tag ['x']]]),
      (['s'], [text [.tag ['!', 'x'], .tag ['p'], .tag ['x', '#', '1']], text [.tag ['?', 'p']]]),
      (['x'], [text [.char 'u'], text [.char 'v']])] }
  overrides := [(['o'], text [.tag ['a', 'n'], .char ' ', .tag ['s']])]
  cycleLimit := 9
  sizeLimit := 64

/-- The rank of the keys of these clauses. -/
def clauseRank (key : Text) : Nat :=
  if key = ['o'] then 3 else if key = ['s'] then 2 else if key = ['p'] then 1 else 0

/-- The query `[?o] [s] [p/x]`. -/
def clauseQuery : List Letter := [.tag ['?', 'o'], .char ' ', .tag ['s'], .tag ['p', '/', 'x']]

theorem clauses_acyclic_expands :
    (clauses.Acyclic clauseRank ∧ clauses.Tame (text clauseQuery)) ∧
    ∃ n, ∀ y : Expander, y.grammar = clauses.grammar → y.overrides = clauses.overrides →
      n < y.cycleLimit → ∀ (σ : Type) [WordSource σ] (source : σ),
        (∃ phrase, (y.expand (text clauseQuery) source).1 = .ok phrase) ∨
          (y.expand (text clauseQuery) source).1 = .error (.tooLarge y.sizeLimit) := by
  have hready : ∀ ls : List Letter, (∀ l ∈ ls, l.Flat) →
      (∀ inside ∈ insides ls, clauses.Knows (ofInside inside).key ∧ Unmarked inside) →
      clauses.Ready ls := fun ls hflat h =>
    ⟨hflat, fun inside hin => (h inside hin).1, fun inside hin => (h inside hin).2⟩
  have htext : ∀ (r : Nat) (ls : List Letter), (∀ l ∈ ls, l.Flat) →
      (∀ inside ∈ insides ls, clauses.Knows (ofInside inside).key ∧ Unmarked inside) →
      '$' ∉ text ls → (∀ inside ∈ insides ls, clauseRank (ofInside inside).key < r) →
      clauses.Tame (text ls) ∧ ∀ key, KeyIn key (text ls) → clauseRank key < r := by
    intro r ls hflat h hdollar hrank
    refine ⟨tame_text (hready ls hflat h) hdollar, fun key hkey => ?_⟩
    obtain ⟨inside, hin, rfl⟩ := (keyIn_text hflat).mp hkey
    exact hrank inside hin
  have hacyclic : clauses.Acyclic clauseRank := by
    refine acyclic_of_entries ?_ ?_
    · intro entry hentry t ht
      simp only [clauses, List.mem_cons, List.not_mem_nil, or_false] at hentry
      rcases hentry with rfl | rfl | rfl
      · obtain rfl := List.mem_singleton.mp ht
        exact htext 1 _ (by decide) (by decide) (by decide) (by decide)
      · rcases List.mem_pair.mp ht with rfl | rfl
        · exact htext 2 _ (by decide) (by decide) (by decide) (by decide)
        · exact htext 2 _ (by decide) (by decide) (by decide) (by decide)
      · rcases List.mem_pair.mp ht with rfl | rfl
        · exact htext 0 _ (by decide) (by decide) (by decide) (by decide)
        · exact htext 0 _ (by decide) (by decide) (by decide) (by decide)
    · intro entry hentry
      obtain rfl := List.mem_singleton.mp hentry
      exact htext 3 _ (by decide) (by decide) (by decide) (by decide)
  have hquery : clauses.Tame (text clauseQuery) :=
    tame_text (hready _ (by decide) (by decide)) (by decide)
  exact ⟨⟨hacyclic, hquery⟩, acyclic_expands hacyclic hquery⟩

end Expander

end PhraseGrammar
