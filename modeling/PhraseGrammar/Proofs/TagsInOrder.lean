import PhraseGrammar.Proofs.Sizes
import PhraseGrammar.Proofs.TagValues
import Mathlib.Data.List.Flatten

set_option autoImplicit false

/-! # One tag after the other

What a flat query becomes is known beforehand if what is drawn for each of its tags is: an expansion
replaces one tag after the other by its value (`Expander.cycles_eq_replaceInOrder`). A value is put
into the query as it is, but from then on it is part of the query, and its runs of spaces are
shortened with all the others before the next tag is replaced.

So the outcome is the query with every tag substituted by its value, but for runs of spaces
(`Letter.squeeze_replaceInOrder`). They are not shortened at all if there are no two adjacent spaces
until the last tag is replaced (`Letter.replaceInOrder_eq_fill`).
-/

namespace PhraseGrammar

open Text Tag

namespace Letter

/-! ## Values for tags -/

/-- The given tags read as their values. -/
def readAs (value : Text → Text) (tags : List Text) : Reading :=
  fun b => if tags.contains b then some (value b) else none

/-- The letters with the spaces halved, and then a tag replaced by its value. -/
def replaceOne (value : Text → Text) (b : Text) (ls : List Letter) : List Letter :=
  fill (only b (value b)) (halve (char ' ') ls)

/-- The letters with the given tags replaced by their values, one tag after the other. -/
def replaceInOrder (value : Text → Text) : List Text → List Letter → List Letter
  | [], ls => ls
  | b :: tags, ls => replaceInOrder value tags (replaceOne value b ls)

variable {value : Text → Text} {tags : List Text} {ls : List Letter}

theorem fill_readAs_nil (value : Text → Text) (ls : List Letter) :
    fill (readAs value []) ls = ls := by
  induction ls with
  | nil => rfl
  | cons l ls ih =>
      cases l with
      | char c => exact congrArg (char c :: ·) ih
      | tag inside => rw [fill_tag_cons_of_none (by simp [readAs]), ih]

theorem fill_readAs_cons (value : Text → Text) (b : Text) (tags : List Text) (ls : List Letter) :
    fill (readAs value tags) (fill (only b (value b)) ls) = fill (readAs value (b :: tags)) ls := by
  rw [fill_fill]
  refine congrArg (fill · ls) (funext fun c => ?_)
  unfold only readAs
  by_cases hc : c = b
  · subst hc
    simp
  · simp [hc]

/-- Halving the spaces in between changes no more than runs of spaces. -/
theorem squeeze_replaceInOrder (value : Text → Text) (tags : List Text) (ls : List Letter) :
    squeeze (char ' ') (replaceInOrder value tags ls)
      = squeeze (char ' ') (fill (readAs value tags) ls) := by
  induction tags generalizing ls with
  | nil => rw [replaceInOrder, fill_readAs_nil]
  | cons b tags ih =>
      rw [replaceInOrder, ih, replaceOne, fill_readAs_cons]
      exact squeeze_fill _ (squeeze_halve _ _)

/-- No run of spaces grows. -/
theorem replaceInOrder_sublist (value : Text → Text) (tags : List Text) (ls : List Letter) :
    (replaceInOrder value tags ls).Sublist (fill (readAs value tags) ls) := by
  induction tags generalizing ls with
  | nil => rw [replaceInOrder, fill_readAs_nil]
  | cons b tags ih =>
      refine (ih _).trans ?_
      rw [replaceOne, fill_readAs_cons]
      exact (halve_sublist _ _).flatMap _

/-- **The text of the last tag is not touched**: if there are no two adjacent spaces before it is
put in place, then nothing is halved at all. -/
theorem replaceInOrder_eq_fill
    (h : ¬ [char ' ', char ' '] <:+: fill (readAs value tags.dropLast) ls) :
    replaceInOrder value tags ls = fill (readAs value tags) ls := by
  induction tags generalizing ls with
  | nil => rw [replaceInOrder, fill_readAs_nil]
  | cons b tags ih =>
      -- two adjacent spaces would be left in place by what the tags are replaced by
      have hhalve : halve (char ' ') ls = ls := by
        refine halve_eq_self fun hi => h ?_
        obtain ⟨u, v, rfl⟩ := hi
        rw [fill_append, fill_append]
        exact ⟨_, _, rfl⟩
      rw [replaceInOrder, replaceOne, hhalve, ← fill_readAs_cons]
      cases tags with
      | nil => rw [replaceInOrder, fill_readAs_nil]
      | cons b' tags =>
          refine ih ?_
          rwa [fill_readAs_cons]

theorem doubled_text (h : [char ' ', char ' '] <:+: ls) : Doubled (text ls) := by
  obtain ⟨u, v, rfl⟩ := h
  rw [text_append, text_append]
  exact ⟨text u, text v, rfl⟩

/-! ## What is left of the tags -/

theorem eraseDups_eq_nil {tags : List Text} (h : tags.eraseDups = []) : tags = [] := by
  cases tags with
  | nil => rfl
  | cons a rest => simp [List.eraseDups_cons] at h

theorem eraseDups_eq_cons {tags rest : List Text} {b : Text} (h : tags.eraseDups = b :: rest) :
    ∃ behind, tags = b :: behind ∧ (behind.filter (· != b)).eraseDups = rest := by
  cases tags with
  | nil => simp at h
  | cons a behind =>
      rw [List.eraseDups_cons] at h
      obtain ⟨rfl, hrest⟩ := List.cons.inj h
      exact ⟨behind, rfl, hrest⟩

theorem eraseDups_eq_self {tags : List Text} (h : tags.Nodup) : tags.eraseDups = tags := by
  induction tags with
  | nil => rfl
  | cons a rest ih =>
      obtain ⟨ha, hrest⟩ := List.nodup_cons.mp h
      have hfilter : rest.filter (fun b => !b == a) = rest := by
        refine List.filter_eq_self.mpr fun b hb => ?_
        rw [Bool.not_eq_true', beq_eq_false_iff_ne]
        rintro rfl
        exact ha hb
      rw [List.eraseDups_cons, hfilter, ih hrest]

theorem insides_replaceOne (value : Text → Text) (b : Text) (ls : List Letter) :
    insides (replaceOne value b ls) = (insides ls).filter (· != b) := by
  rw [replaceOne, insides_fill, insides_halve]
  refine List.filter_congr fun c _ => ?_
  rw [Bool.eq_iff_iff, isNone_only, bne_iff_ne]

/-- A value without opening brackets, in the place of the last tag, leaves none. -/
theorem opening_not_mem_replaceOne {b : Text} (hflat : ∀ l ∈ ls, l.Flat) (hb : '[' ∉ value b)
    (h : insides (replaceOne value b ls) = []) : '[' ∉ text (replaceOne value b ls) := by
  intro hmem
  have hchar : char '[' ∈ replaceOne value b ls := by
    rw [eq_plain_of_insides h]
    exact List.mem_map_of_mem hmem
  obtain ⟨l, hl, hchar⟩ := List.mem_flatMap.mp hchar
  cases l with
  | char c =>
      obtain rfl := Letter.char.inj (List.mem_singleton.mp hchar)
      exact (flat_halve hflat _ hl).1 rfl
  | tag inside =>
      by_cases hin : inside = b
      · rw [fillOne, only, if_pos hin] at hchar
        obtain ⟨c, hc, heq⟩ := List.mem_map.mp hchar
        obtain rfl := Letter.char.inj heq
        exact hb hc
      · rw [fillOne, only, if_neg hin] at hchar
        cases List.mem_singleton.mp hchar

/-- On flat letters this is what becomes of the text when a tag is replaced. -/
theorem text_replaceOne {b : Text} (hflat : ∀ l ∈ ls, l.Flat) (hb : BracketFree b)
    (value : Text → Text) :
    text (replaceOne value b ls) = replace (bracketed b) (value b) (text ls).halveSpaces := by
  rw [replaceOne, halveSpaces_text hflat, replace_plain (flat_halve hflat) hb]

/-! ## Room for the values -/

/-- The size of the letters, with room for the values of their tags. -/
def room (value : Text → Text) (ls : List Letter) : Nat :=
  (text ls).byteSize + ((insides ls).map fun inside => (value inside).byteSize).sum

theorem byteSize_le_room (value : Text → Text) (ls : List Letter) :
    (text ls).byteSize ≤ room value ls := Nat.le_add_right _ _

theorem room_halve_le (value : Text → Text) (ls : List Letter) :
    room value (halve (char ' ') ls) ≤ room value ls := by
  have hsize := byteSize_le_of_sublist ((halve_sublist (char ' ') ls).flatMap read)
  rw [room, room, insides_halve]
  exact Nat.add_le_add_right hsize _

/-- A value takes the room that was kept for it. -/
theorem room_fill_only_le (value : Text → Text) (b : Text) (ls : List Letter) :
    room value (fill (only b (value b)) ls) ≤ room value ls := by
  induction ls with
  | nil => exact Nat.le_refl _
  | cons l ls ih =>
      unfold room at ih ⊢
      cases l with
      | char c =>
          show (text (char c :: fill (only b (value b)) ls)).byteSize
            + ((insides (fill (only b (value b)) ls)).map _).sum ≤ _
          rw [text_char_cons, text_char_cons, byteSize_cons, byteSize_cons, insides_char_cons]
          omega
      | tag inside =>
          rw [text_tag_cons, byteSize_append, insides_tag_cons, List.map_cons, List.sum_cons]
          by_cases hb : inside = b
          · subst hb
            rw [fill_tag_cons_of_some (if_pos rfl), text_append, text_plain, byteSize_append,
              insides_append, insides_plain, List.nil_append]
            omega
          · rw [fill_tag_cons_of_none (if_neg hb), text_tag_cons, byteSize_append,
              insides_tag_cons, List.map_cons, List.sum_cons]
            omega

theorem room_replaceOne_le (value : Text → Text) (b : Text) (ls : List Letter) :
    room value (replaceOne value b ls) ≤ room value ls :=
  (room_fill_only_le value b _).trans (room_halve_le value ls)

end Letter

open Letter

namespace Expander

variable {σ : Type} [WordSource σ] {x : Expander} {value : Text → Text} {ls : List Letter}

/-! ## The cycles -/

/-- **What is drawn for a tag is put in its place as it is**, wherever the tag stands. -/
theorem cycles_of_drawn (n : Nat) {progress next : Progress} {query inside new : Text}
    {d d' : Draws σ} (hf : Query.FirstTag query inside) (hp : progress.next? query = some next)
    (hkind : (ofInside inside).kind ≠ .hidden)
    (hdrawn : x.textFor (ofInside inside) (Draws.startTag d) = (.ok new, d'))
    (hsize : (replace (bracketed inside) new query.halveSpaces).byteSize ≤ x.sizeLimit) :
    x.cycles (n + 1) progress query d
      = x.cycles n next (replace (bracketed inside) new query.halveSpaces) d' := by
  rw [cycles_firstTag x n d hf hp, hdrawn]
  dsimp only
  rw [placing_of_not_hidden hkind, Substitution.apply_of_le hsize]

/-- **The cycles of a flat query without hidden tags** replace its tags in order, and draw once for
each of them. No value holds an opening bracket, and only that of the last tag a closing one. -/
theorem cycles_eq_replaceInOrder {tags : List Text} (htags : (insides ls).eraseDups = tags)
    (hflat : ∀ l ∈ ls, l.Flat) (hkind : ∀ b ∈ tags, (ofInside b).kind ≠ .hidden)
    (hopening : ∀ b ∈ tags, '[' ∉ value b) (hclosing : ∀ b ∈ tags.dropLast, ']' ∉ value b)
    {n : Nat} (hn : tags.length ≤ n) (hroom : room value ls ≤ x.sizeLimit) {progress : Progress}
    (hp : insides ls ≠ [] → progress.previous ≠ text ls) {d d' : Draws σ}
    (hdrawn : x.drawAll tags d = (.ok (tags.map fun b => (b, value b)), d')) :
    x.cycles n progress (text ls) d = (.ok (text (replaceInOrder value tags ls)), d') := by
  induction tags generalizing ls n progress d with
  | nil =>
      obtain rfl : d = d' := congrArg Prod.snd hdrawn
      exact cycles_of_not_mem x n progress _ (opening_not_mem_text hflat (eraseDups_eq_nil htags))
  | cons b tags ih =>
      obtain ⟨d₁, htext, hdrawn⟩ := drawAll_cons_eq_ok.mp hdrawn
      obtain ⟨rest, hin, hrest⟩ := eraseDups_eq_cons htags
      have hfirst := firstTag_text hflat hin
      obtain ⟨n, rfl⟩ : ∃ m, n = m + 1 := by
        rw [List.length_cons] at hn
        exact ⟨n - 1, by omega⟩
      have hnext := text_replaceOne hflat hfirst.bracketFree value
      have hroom' := (room_replaceOne_le value b ls).trans hroom
      have hin' : insides (replaceOne value b ls) = rest.filter (· != b) := by
        rw [insides_replaceOne, hin, List.filter_cons_of_neg (by simp)]
      have hcycle := x.cycles_of_drawn n hfirst (next?_of_ne (hp (by simp [hin])).symm)
        (hkind b List.mem_cons_self) htext
        (by rw [← hnext]; exact (byteSize_le_room _ _).trans hroom')
      rw [hcycle, ← hnext, replaceInOrder]
      cases tags with
      | nil =>
          -- no tag is left, so it does not matter whether the last value holds a closing bracket
          obtain rfl : d₁ = d' := congrArg Prod.snd hdrawn
          have hno := opening_not_mem_replaceOne hflat (hopening b List.mem_cons_self)
            (hin'.trans (eraseDups_eq_nil hrest))
          exact cycles_of_not_mem x n _ _ hno
      | cons b' tags =>
          have hfree : BracketFree (value b) :=
            ⟨hopening b List.mem_cons_self, hclosing b List.mem_cons_self⟩
          have hflat' : ∀ l ∈ replaceOne value b ls, l.Flat :=
            flat_fill_only hfree (flat_halve hflat)
          -- the query has changed, so the expansion does not stand still
          have hprev := text_ne_text hflat hflat' hin (by simp [hin'])
          exact ih (by rw [hin', hrest]) hflat' (fun c hc => hkind c (List.mem_cons_of_mem b hc))
            (fun c hc => hopening c (List.mem_cons_of_mem b hc))
            (fun c hc => hclosing c (List.mem_cons_of_mem b hc)) (Nat.le_of_succ_le_succ hn) hroom'
            (fun _ => hprev) hdrawn

/-! ## Whole expansions -/

/-- Without opening marks only the trimming is left. -/
theorem finish_of_no_opening {reached : Text} (h : ¬ Article.opening <:+: reached) :
    finish reached = .ok reached.trim := by
  have hfirst : Article.settleFirst reached = .ok none := by
    unfold Article.settleFirst
    rw [breakOn_eq_none.mpr h]
  rw [finish, Article.settle_of_none hfirst]
  rfl

theorem text_fill_all (value : Text → Text) (ls : List Letter) :
    text (fill (readAs value (insides ls).eraseDups) ls) = substituted value ls :=
  text_fill fun _ h => if_pos (List.contains_iff_mem.mpr (List.mem_eraseDups.mpr h))

/-- The outcome is the query with every tag substituted by its value, but for runs of spaces. -/
theorem squeeze_text_replaceInOrder (value : Text → Text) (ls : List Letter) :
    squeeze ' ' (text (replaceInOrder value (insides ls).eraseDups ls))
      = squeeze ' ' (substituted value ls) := by
  rw [← text_fill_all]
  exact squeeze_text (squeeze_replaceInOrder value _ ls)

/-- **The expansion of a flat query without hidden tags** replaces its tags by what they draw, in
order, if nothing in the values is read as a tag or as an article, and the limits leave room. -/
theorem expand_eq_replaceInOrder (hflat : ∀ l ∈ ls, l.Flat)
    (hkind : ∀ inside ∈ insides ls, (ofInside inside).kind ≠ .hidden)
    (hopening : ∀ inside ∈ insides ls, '[' ∉ value inside)
    (hclosing : ∀ inside ∈ (insides ls).eraseDups.dropLast, ']' ∉ value inside)
    (hmark : ¬ Article.opening <:+: substituted value ls)
    (hcycles : (insides ls).eraseDups.length < x.cycleLimit)
    (hroom : room value ls ≤ x.sizeLimit) {source : σ} {d : Draws σ}
    (hdrawn : x.drawAll (insides ls).eraseDups ⟨source, {}⟩
      = (.ok ((insides ls).eraseDups.map fun b => (b, value b)), d)) :
    x.expand (text ls) source
      = (.ok (text (replaceInOrder value (insides ls).eraseDups ls)).trim, d) := by
  -- at the start the empty query is remembered
  have hprev : insides ls ≠ [] → ({} : Progress).previous ≠ text ls := nil_ne_text hflat
  have hrun := cycles_eq_replaceInOrder rfl hflat
    (fun b hb => hkind b (List.mem_eraseDups.mp hb))
    (fun b hb => hopening b (List.mem_eraseDups.mp hb)) hclosing
    (Nat.le_sub_one_of_lt hcycles) hroom hprev hdrawn
  have hno : ¬ Article.opening <:+: text (replaceInOrder value (insides ls).eraseDups ls) := by
    rw [← infix_squeeze (by decide : ' ' ∉ Article.opening), squeeze_text_replaceInOrder,
      infix_squeeze (by decide)]
    exact hmark
  unfold expand
  rw [hrun]
  show (finish _, _) = _
  rw [finish_of_no_opening hno]

end Expander

end PhraseGrammar
