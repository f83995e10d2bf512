import PhraseGrammar.Proofs.Spaces
import PhraseGrammar.Proofs.Traces

set_option autoImplicit false

/-! # Article marks in a query

If neither a query nor any text that can come into it holds a dollar sign, then the only dollar
signs of a query under way are those of article marks, and every mark is whole: the query is
*marked*, a list of characters and marks (`Article.Piece`). No step breaks a mark, since no
character at which the rewriting cuts a text stands in a mark (`Marked.split`). On a marked text
`Article.settle` never fails, and it puts the article of the text behind it in the place of each
mark (`Article.settle_text`).
-/

namespace PhraseGrammar

/-! ## First occurrences -/

namespace Text

private theorem breakFrom_eq (mark before t : Text) :
    breakFrom mark before t
      = (breakFrom mark [] t).map fun p => (before.reverse ++ p.1, p.2) := by
  induction t generalizing before with
  | nil =>
      unfold breakFrom
      split <;> simp
  | cons c t ih =>
      unfold breakFrom
      split
      · simp
      · rw [ih (c :: before), ih [c], Option.map_map]
        refine congrArg (Option.map · _) (funext fun p => ?_)
        simp

theorem breakOn_cons {mark t : Text} {c : Char} (h : mark.isPrefixOf (c :: t) = false) :
    breakOn mark (c :: t) = (breakOn mark t).map fun p => (c :: p.1, p.2) := by
  rw [breakOn, breakFrom, h, if_neg Bool.false_ne_true, breakFrom_eq]
  rfl

theorem breakOn_mark_append {mark : Text} (hm : mark ≠ []) (t : Text) :
    breakOn mark (mark ++ t) = some ([], t) := by
  obtain ⟨c, r, rfl⟩ := List.exists_cons_of_ne_nil hm
  rw [breakOn, List.cons_append, breakFrom, if_pos (by simp [List.isPrefixOf_iff_prefix]),
    ← List.cons_append, List.drop_left]
  rfl

/-- The first occurrence is found behind a text that holds none and into which none reaches. -/
theorem breakOn_append {mark u w : Text} (hseam : Seam mark u w) (hu : ¬ mark <:+: u) :
    breakOn mark (u ++ w) = (breakOn mark w).map fun p => (u ++ p.1, p.2) := by
  induction u with
  | nil => simp
  | cons c u ih =>
      have hp : mark.isPrefixOf (c :: (u ++ w)) = false := by
        rw [Bool.eq_false_iff, Ne, List.isPrefixOf_iff_prefix]
        exact fun hp => hu (hseam.isPrefix (List.cons_ne_nil c u) hp).isInfix
      have ih := ih (hseam.of_suffix (List.suffix_cons c u))
        (fun hi => hu (hi.trans (List.suffix_cons c u).isInfix))
      rw [List.cons_append, breakOn_cons hp, ih, Option.map_map]
      rfl

/-- Nothing is found exactly if there is no occurrence. -/
theorem breakOn_eq_none {mark t : Text} : breakOn mark t = none ↔ ¬ mark <:+: t := by
  constructor
  · intro h hi
    induction t with
    | nil =>
        rw [List.infix_nil] at hi
        subst hi
        cases h
    | cons c t ih =>
        by_cases hp : mark.isPrefixOf (c :: t) = true
        · rw [breakOn, breakFrom, if_pos hp] at h
          cases h
        · -- no occurrence begins here, so there is one further on
          rw [breakOn_cons (Bool.eq_false_iff.mpr hp), Option.map_eq_none_iff] at h
          rw [List.isPrefixOf_iff_prefix] at hp
          exact ih h ((List.infix_cons_iff.mp hi).resolve_left hp)
  · intro h
    cases hb : breakOn mark t with
    | none => rfl
    | some p =>
        have heq := eq_of_breakOn hb
        exact absurd ⟨p.1, p.2, heq.symm⟩ h

theorem infix_of_head_not_mem {c : Char} {t u w : Text} (hc : c ∉ u) (h : c :: t <:+: u ++ w) :
    c :: t <:+: w := by
  induction u with
  | nil => exact h
  | cons d u ih =>
      rw [List.mem_cons, not_or] at hc
      rw [List.cons_append, List.infix_cons_iff, List.cons_prefix_cons] at h
      exact ih hc.2 (h.resolve_left fun hp => hc.1 hp.1)

end Text

namespace Article

open Text

/-! ## Marked texts -/

/-- A character, or the mark of an article. -/
inductive Piece where
  | char (c : Char)
  | article (key : Text)

namespace Piece

/-- How a piece reads. -/
def read : Piece → Text
  | char c => [c]
  | article key => mark key

/-- No dollar sign outside of marks, and no mark but those of articles. -/
def Proper : Piece → Prop
  | char c => c ≠ '$'
  | article key => isKey key = true

end Piece

/-- How a list of pieces reads. -/
def text (pieces : List Piece) : Text := pieces.flatMap Piece.read

/-- The text with each mark replaced by the article of what follows it. -/
def settled : List Piece → Text
  | [] => []
  | .char c :: ps => c :: settled ps
  | .article _ :: ps => before (text ps) ++ settled ps

@[simp] theorem text_char_cons (c : Char) (ps : List Piece) :
    text (.char c :: ps) = c :: text ps := rfl

@[simp] theorem text_article_cons (key : Text) (ps : List Piece) :
    text (.article key :: ps) = mark key ++ text ps := rfl

@[simp] theorem text_append (ps qs : List Piece) : text (ps ++ qs) = text ps ++ text qs :=
  List.flatMap_append

theorem isKey_iff {key : Text} : isKey key = true ↔ key = ['a'] ∨ key = ['a', 'n'] := by
  simp [isKey]

/-- A text whose dollar signs are those of whole marks. -/
def Marked (t : Text) : Prop := ∃ pieces, text pieces = t ∧ ∀ p ∈ pieces, p.Proper

theorem Marked.append {s t : Text} (hs : Marked s) (ht : Marked t) : Marked (s ++ t) := by
  obtain ⟨ps, rfl, hps⟩ := hs
  obtain ⟨qs, rfl, hqs⟩ := ht
  refine ⟨ps ++ qs, text_append ps qs, fun p hp => ?_⟩
  exact (List.mem_append.mp hp).elim (hps p) (hqs p)

/-- Without dollar signs there are no marks. -/
theorem marked_of_not_mem {t : Text} (h : '$' ∉ t) : Marked t := by
  refine ⟨t.map .char, ?_, ?_⟩
  · rw [text, List.flatMap_map]
    exact List.flatMap_singleton' t
  · intro p hp
    obtain ⟨c, hc, rfl⟩ := List.mem_map.mp hp
    exact fun h' => h (h' ▸ hc)

theorem marked_mark {key : Text} (h : isKey key = true) : Marked (mark key) :=
  ⟨[.article key], List.append_nil _, by simpa [Piece.Proper] using h⟩

/-- The characters that stand in marks. -/
def markLetters : List Char := ['\x7b', '\x7d', '$', 'A', 'N', 'a', 'n']

theorem bracketFree_mark {key : Text} (h : isKey key = true) : BracketFree (mark key) := by
  rcases isKey_iff.mp h with rfl | rfl <;> decide

theorem mark_subset {key : Text} (h : isKey key = true) : mark key ⊆ markLetters := by
  rcases isKey_iff.mp h with rfl | rfl <;> decide

/-- **A marked text is cut into marked texts** at a character that stands in no mark. -/
theorem Marked.split {u v : Text} {c : Char} (hc : c ∉ markLetters)
    (h : Marked (u ++ c :: v)) : Marked u ∧ Marked v := by
  obtain ⟨ps, htext, hps⟩ := h
  induction ps generalizing u with
  | nil => simp [text] at htext
  | cons p ps ih =>
      have hrest := fun q hq => hps q (List.mem_cons_of_mem p hq)
      have hp := hps p List.mem_cons_self
      cases p with
      | char a =>
          -- the cut is at this character, or behind it
          rw [text_char_cons] at htext
          cases u with
          | nil =>
              obtain ⟨-, rfl⟩ := List.cons.inj htext
              exact ⟨marked_of_not_mem (by simp), ps, rfl, hrest⟩
          | cons b u =>
              obtain ⟨rfl, htail⟩ := List.cons.inj htext
              obtain ⟨hu, hv⟩ := ih htail hrest
              have ha : Marked [a] := ⟨[.char a], rfl, by simpa using hp⟩
              exact ⟨ha.append hu, hv⟩
      | article key =>
          rw [text_article_cons] at htext
          -- the cut is behind the mark, since it is at none of its characters
          rcases List.append_eq_append_iff.mp htext with ⟨a, rfl, ha⟩ | ⟨a, ha, hv⟩
          · obtain ⟨hu, hv⟩ := ih ha hrest
            exact ⟨(marked_mark hp).append hu, hv⟩
          · cases a with
            | nil =>
                rw [List.append_nil] at ha
                subst ha
                obtain ⟨-, hv'⟩ := ih (u := []) (by simpa using hv.symm) hrest
                exact ⟨marked_mark hp, hv'⟩
            | cons b a =>
                obtain ⟨rfl, -⟩ := List.cons.inj hv
                refine absurd (mark_subset hp ?_) hc
                rw [ha]
                simp

/-! ## Marks under rewriting -/

/-- Replacing a tag by a marked text breaks no mark. -/
theorem Marked.replace {b new t : Text} (ht : Marked t) (hb : BracketFree b)
    (hnew : Marked new) : Marked (Text.replace (Tag.bracketed b) new t) := by
  induction hn : t.length using Nat.strongRecOn generalizing t with
  | _ n ih =>
      by_cases hin : Tag.bracketed b <:+: t
      · obtain ⟨u, v, rfl⟩ := hin
        have hsplit := Tag.append_bracketed_append u b v
        have hlen : u.length + v.length < n := by
          rw [← hn, hsplit]
          simp only [List.length_append, List.length_cons]
          omega
        -- the text is cut at the brackets of an occurrence, and both halves are shorter
        rw [hsplit] at ht
        obtain ⟨hu, hbv⟩ := ht.split (by decide)
        obtain ⟨-, hv⟩ := hbv.split (by decide)
        rw [replace_around hb, replace_target (Tag.bracketed_ne_nil b)]
        exact ((ih u.length (by omega) hu rfl).append hnew).append (ih v.length (by omega) hv rfl)
      · rw [replace_eq_self new hin]
        exact ht

/-- Halving the spaces breaks no mark. -/
theorem Marked.halveSpaces {t : Text} (ht : Marked t) : Marked t.halveSpaces := by
  induction hn : t.length using Nat.strongRecOn generalizing t with
  | _ n ih =>
      by_cases hmem : ' ' ∈ t
      · obtain ⟨u, v, rfl, hu⟩ := List.eq_append_cons_of_mem hmem
        obtain ⟨hmu, hmv⟩ := ht.split (by decide)
        have hlen : u.length + v.length < n := by
          rw [← hn, List.length_append, List.length_cons]
          omega
        have hspace : Marked [' '] := marked_of_not_mem (by decide)
        -- the halving begins at the first space, since no other stands before it
        have hlead : ¬ Doubled u := fun hd => hu (hd.mem (by simp))
        have hcut : Text.halveSpaces (u ++ ' ' :: v) = u ++ halve ' ' (' ' :: v) := by
          rw [Text.halveSpaces, replace_append _ (seam_of_head_not_mem hu _), ← Text.halveSpaces,
            ← Text.halveSpaces, halveSpaces_eq_self hlead, halveSpaces_eq_halve]
        rw [hcut]
        refine hmu.append ?_
        by_cases hpair : v.head? = some ' '
        · obtain ⟨v, rfl⟩ : ∃ w, v = ' ' :: w := by
            cases v with
            | nil => simp at hpair
            | cons d w => exact ⟨w, by simpa using hpair⟩
          obtain ⟨-, hw⟩ := Marked.split (u := []) (c := ' ') (by decide) hmv
          rw [halve_pair, ← halveSpaces_eq_halve]
          refine hspace.append (ih v.length ?_ hw rfl)
          rw [List.length_cons] at hlen
          omega
        · rw [halve_cons (by simp [hpair]), ← halveSpaces_eq_halve]
          exact hspace.append (ih v.length (by omega) hmv rfl)
      · rw [halveSpaces_eq_self fun hd => hmem (hd.mem (by simp))]
        exact ht

end Article

namespace Expander

open Article Text

/-- **A step breaks no mark**, if no text that can come into the query holds a dollar sign. -/
theorem Step.marked {x : Expander} {query next : Text} (ht : x.AllTexts ('$' ∉ ·))
    (hq : Marked query) (h : x.Step query next) : Marked next := by
  have hnil : Marked [] := marked_of_not_mem (by simp)
  have hin : ∀ {inside : Text}, Query.FirstTag query inside → Marked inside := by
    rintro inside ⟨lead, rest, rfl, -, -⟩
    rw [Tag.append_bracketed_append] at hq
    exact ((hq.split (by decide)).2.split (by decide)).1
  have hmeans : ∀ {inside new : Text}, Marked inside →
      x.Means (Tag.ofInside inside).key new → Marked new := by
    intro inside new hinside hnew
    refine (ht.imp fun t h => marked_of_not_mem h).means hnil ?_ marked_mark hnew
    have hcuts : ∀ c ∈ ['!', '?', '#'], c ∉ markLetters := by simp [markLetters]
    exact forall_mem_splitOn (fun u v => Marked.split (by decide))
      (Tag.key_of_cut (fun c hc u v => Marked.split (hcuts c hc)) hinside)
  cases h with
  | shown hf _ hnew => exact hq.halveSpaces.replace hf.bracketFree (hmeans (hin hf) hnew)
  | omitted hf => exact hq.halveSpaces.replace hf.bracketFree hnil
  | hidden hf hnew =>
      have hbody := (bracketFree_cons.mp hf.bracketFree).2
      exact (hq.replace hf.bracketFree hnil).halveSpaces.replace hbody (hmeans (hin hf) hnew)

/-- Every query that is reached without dollar signs is marked. -/
theorem Reaches.marked {x : Expander} {query reached : Text} (h : x.Reaches query reached)
    (ht : x.AllTexts ('$' ∉ ·)) (hq : '$' ∉ query) : Marked reached :=
  h.invariant (fun _ _ => Step.marked ht) (marked_of_not_mem hq)

end Expander

namespace Article

open Text

/-! ## Settling -/

/-- An article holds no dollar sign. -/
theorem dollar_not_mem_before (t : Text) : '$' ∉ before t := by
  unfold before
  split
  · split <;> decide
  · decide

/-- A marked text with the first mark behind a text without dollar signs: its opening is found. -/
theorem breakOn_opening {lead : Text} (h : '$' ∉ lead) (t : Text) :
    breakOn opening (lead ++ (opening ++ t)) = some (lead, t) := by
  have hseam : Seam opening lead (opening ++ t) := by
    intro p s hps hp hs hpl hsw
    -- no dollar sign stands in `p`, so it is one of the two braces that the opening begins with
    have hd : '$' ∉ p := fun hd => h (hpl.mem hd)
    match p, hps with
    | [], _ => exact hp rfl
    | [_], hps =>
        obtain ⟨-, rfl⟩ := List.cons.inj hps
        simp [opening] at hsw
    | [_, _], hps =>
        obtain ⟨-, rfl⟩ := List.cons.inj (List.cons.inj hps).2
        simp [opening] at hsw
    | _ :: _ :: d :: _, hps =>
        have hd' : d = '$' := (List.cons.inj (List.cons.inj (List.cons.inj hps).2).2).1
        exact hd (by simp [hd'])
  have hnot : ¬ opening <:+: lead := fun hi => h (hi.mem (by decide))
  rw [breakOn_append hseam hnot, breakOn_mark_append (by decide)]
  simp

/-- The closing of that mark is found, too. -/
theorem breakOn_closing {lead key : Text} (h : '$' ∉ lead) (hkey : isKey key = true) (t : Text) :
    breakOn closing (lead ++ opening ++ key ++ (closing ++ t))
      = some (lead ++ opening ++ key, t) := by
  have hseam : Seam closing (lead ++ opening ++ key) (closing ++ t) := by
    rcases isKey_iff.mp hkey with rfl | rfl
    · exact seam_of_not_mem_dropLast (by decide) (lead ++ opening) _
    · have hkey : lead ++ opening ++ ['a', 'n'] = (lead ++ opening ++ ['a']) ++ ['n'] := by simp
      rw [hkey]
      exact seam_of_not_mem_dropLast (by decide) _ _
  have hnot : ¬ closing <:+: lead ++ opening ++ key := by
    intro hi
    -- a dollar sign with a brace behind it ends every closing, but no opening or key holds it
    have hpair : ['$', '\x7d'] <:+: lead ++ (opening ++ key) := by
      rw [← List.append_assoc]
      exact List.IsInfix.trans (by decide) hi
    have hmark := infix_of_head_not_mem h hpair
    rcases isKey_iff.mp hkey with rfl | rfl
    · exact absurd hmark (by decide)
    · exact absurd hmark (by decide)
  rw [breakOn_append hseam hnot, breakOn_mark_append (by decide)]
  simp

theorem settleFirst_of_not_mem {t : Text} (h : '$' ∉ t) : settleFirst t = .ok none := by
  unfold settleFirst
  rw [breakOn_eq_none.mpr fun hi => h (hi.mem (by decide))]

theorem settleFirst_mark {lead key : Text} (h : '$' ∉ lead) (hkey : isKey key = true)
    (t : Text) :
    settleFirst (lead ++ (mark key ++ t)) = .ok (some (lead ++ before t ++ t)) := by
  have hopening := breakOn_opening h (key ++ closing ++ t)
  have hclosing := breakOn_closing h hkey t
  have htext : lead ++ (mark key ++ t) = lead ++ (opening ++ (key ++ closing ++ t)) := by
    simp [mark]
  have htext' : lead ++ (mark key ++ t) = lead ++ opening ++ key ++ (closing ++ t) := by
    simp [mark]
  unfold settleFirst
  rw [htext, hopening, ← htext, htext', hclosing]
  have hlt : lead.length < (lead ++ opening ++ key).length := by
    simp [opening]
  dsimp only
  rw [if_pos hlt]

theorem settle_of_none {t : Text} (h : settleFirst t = .ok none) : settle t = .ok t := by
  rw [settle.eq_1]
  split
  · next he => simp [h] at he
  · rfl
  · next he => simp [h] at he

theorem settle_of_error {t : Text} {e : ExpansionError} (h : settleFirst t = .error e) :
    settle t = .error e := by
  rw [settle.eq_1]
  split
  · next he =>
      rw [h] at he
      cases he
      rfl
  · next he => simp [h] at he
  · next he => simp [h] at he

theorem settle_of_some {t next : Text} (h : settleFirst t = .ok (some next)) :
    settle t = settle next := by
  rw [settle.eq_1]
  split
  · next he => simp [h] at he
  · next he => simp [h] at he
  · next he =>
      rw [h] at he
      cases he
      rfl

theorem settle_of_not_mem {t : Text} (h : '$' ∉ t) : settle t = .ok t :=
  settle_of_none (settleFirst_of_not_mem h)

/-- **Settling a marked text** never fails, and puts every article in the place of its mark. -/
theorem settle_text {lead : Text} (hlead : '$' ∉ lead) {pieces : List Piece}
    (h : ∀ p ∈ pieces, p.Proper) :
    settle (lead ++ text pieces) = .ok (lead ++ settled pieces) := by
  -- what stands before the pieces is settled already and grows by one piece at a time
  induction pieces generalizing lead with
  | nil =>
      show settle (lead ++ []) = .ok (lead ++ [])
      rw [List.append_nil]
      exact settle_of_not_mem hlead
  | cons p ps ih =>
      have hrest := fun q hq => h q (List.mem_cons_of_mem p hq)
      have hp := h p List.mem_cons_self
      cases p with
      | char c =>
          have hlead' : '$' ∉ lead ++ [c] := by simpa [hlead, Piece.Proper, eq_comm] using hp
          have hrec := ih hlead' hrest
          rw [List.append_assoc, List.append_assoc] at hrec
          exact hrec
      | article key =>
          have hlead' : '$' ∉ lead ++ before (text ps) := by
            simp [hlead, dollar_not_mem_before]
          rw [text_article_cons, settle_of_some (settleFirst_mark hlead hp _), ih hlead' hrest,
            settled, List.append_assoc]

theorem Marked.settle_ok {t : Text} (h : Marked t) : ∃ t', settle t = .ok t' := by
  obtain ⟨ps, rfl, hps⟩ := h
  exact ⟨settled ps, settle_text List.not_mem_nil hps⟩

theorem eq_brokenArticle_of_settle {t : Text} {e : ExpansionError} (h : settle t = .error e) :
    e = .brokenArticle := by
  induction t using settle.induct with
  | case1 t e' he =>
      have hfirst : e' = .brokenArticle := by
        unfold settleFirst at he
        split at he
        · cases he
        · split at he
          · cases he
            rfl
          · split at he <;> cases he
            rfl
      rw [settle.eq_1] at h
      split at h <;> simp_all
  | case2 t hn =>
      rw [settle_of_none hn] at h
      cases h
  | case3 t next hs _ ih =>
      rw [settle_of_some hs] at h
      exact ih h

end Article

namespace Expander

/-- Without dollar signs only the trimming is left. -/
theorem finish_of_not_mem {reached : Text} (h : '$' ∉ reached) :
    finish reached = .ok reached.trim := by
  rw [finish, Article.settle_of_not_mem h]
  rfl

/-- **Only dollar signs break an article**: one stands in the query, or in a text that can come
into it. -/
theorem Reaches.brokenArticle {x : Expander} {query reached : Text} {e : ExpansionError}
    (h : x.Reaches query reached) (he : finish reached = .error e) :
    e = .brokenArticle ∧ ('$' ∈ query ∨ ¬ x.AllTexts ('$' ∉ ·)) := by
  unfold finish at he
  cases hs : Article.settle reached with
  | ok settled =>
      rw [hs] at he
      cases he
  | error e' =>
      rw [hs] at he
      cases he
      refine ⟨Article.eq_brokenArticle_of_settle hs, ?_⟩
      by_contra hdollar
      rw [not_or, not_not] at hdollar
      -- without dollar signs the query has stayed marked, and settling succeeds
      obtain ⟨settled, hok⟩ := (h.marked hdollar.2 hdollar.1).settle_ok
      rw [hok] at hs
      cases hs

end Expander

end PhraseGrammar
