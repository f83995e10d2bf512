import PhraseGrammar.Engine.Basic
import PhraseGrammar.Proofs.Agenda

set_option autoImplicit false

/-! # The values of the tags of a flat query

What a flat query means, tag by tag and without any rewriting. Each tag of the agenda draws a
value of its own (`Expander.drawValues`). In the query a hidden tag has an empty value, a tag that
stands before with the marker of hidden tags has the value drawn there, and every other tag has
its own (`tagValue`). The engine refines this meaning: the phrase of a query is the query with
every tag substituted by its value (`substituted`), up to runs of spaces.
-/

namespace PhraseGrammar

open Letter Tag Text

namespace Expander

variable {σ : Type} [WordSource σ]

/-! ## Drawing the values -/

/-- One of the terms, each with the same chance, and the empty text if there are none. -/
def pick (terms : List Text) (s : σ) : Text × σ :=
  if h : 0 < terms.length then
    let (i, s) := WordSource.index terms.length h s
    (terms.get i, s)
  else ([], s)

/-- The text that a key resolves to. -/
def resolve (x : Expander) (key : Text) (s : σ) : Text × σ :=
  if '/' ∈ key then pick (key.splitOn '/') s
  else
    match x.overrides.lookup key with
    | some text => (text, s)
    | none => pick ((x.grammar.get? key).getD []) s

/-- The value that a tag draws. A coin suppresses an optional tag half of the time. -/
def drawValue (x : Expander) (tag : Tag) (s : σ) : Text × σ :=
  if tag.kind = .optional then
    let (suppressed, s) := WordSource.coin s
    if suppressed then ([], s) else x.resolve tag.key s
  else x.resolve tag.key s

/-- The values that tags draw, one after the other. -/
def drawValues (x : Expander) : List Text → σ → Outcomes × σ
  | [], s => ([], s)
  | inside :: tags, s =>
    let (value, s) := x.drawValue (ofInside inside) s
    let (values, s) := drawValues x tags s
    ((inside, value) :: values, s)

/-- The key is an alternation, it is overridden, or it names a category. -/
def Resolvable (x : Expander) (key : Text) : Prop :=
  '/' ∈ key ∨ (x.overrides.lookup key).isSome ∨ (x.grammar.get? key).isSome

instance (x : Expander) (key : Text) : Decidable (x.Resolvable key) :=
  inferInstanceAs (Decidable (_ ∨ _ ∨ _))

variable {x : Expander}

theorem choose_eq_pick (terms : List Text) (d : Draws σ) :
    (choose terms d).1 = (pick terms d.source).1 ∧
      (choose terms d).2.source = (pick terms d.source).2 := by
  cases terms with
  | nil => exact ⟨rfl, rfl⟩
  | cons term rest => exact ⟨rfl, rfl⟩

theorem meaning_eq_resolve {key : Text} (h : x.Resolvable key) (d : Draws σ) :
    (x.meaning key d).1 = .ok (x.resolve key d.source).1 ∧
      (x.meaning key d).2.source = (x.resolve key d.source).2 := by
  unfold meaning resolve
  by_cases hs : '/' ∈ key
  · rw [if_pos (by simpa using hs), if_pos hs]
    obtain ⟨h1, h2⟩ := choose_eq_pick (key.splitOn '/') d
    exact ⟨congrArg Except.ok h1, h2⟩
  · rw [if_neg (by simpa using hs), if_neg hs]
    cases ho : x.overrides.lookup key with
    | some text => exact ⟨rfl, rfl⟩
    | none =>
        cases hg : x.grammar.get? key with
        | some alternatives =>
            obtain ⟨h1, h2⟩ := choose_eq_pick alternatives d
            exact ⟨congrArg Except.ok h1, h2⟩
        | none => simp [Resolvable, hs, ho, hg] at h

/-- When it does not count, an expansion draws the values. -/
theorem textFor_eq_drawValue (hc : x.counting = false) {tag : Tag} (h : x.Resolvable tag.key)
    (d : Draws σ) :
    (x.textFor tag d).1 = .ok (x.drawValue tag d.source).1 ∧
      (x.textFor tag d).2.source = (x.drawValue tag d.source).2 := by
  by_cases hk : tag.kind = .optional
  · unfold textFor drawValue optionalMeaning
    rw [hk, if_pos rfl]
    dsimp only
    cases hcoin : (WordSource.coin d.source).1 with
    | true => simp [hc]
    | false =>
        obtain ⟨h1, h2⟩ := meaning_eq_resolve h
          ⟨(WordSource.coin d.source).2, d.estimate.addOmission⟩
        simp [h1, h2, Except.map]
  · have htext : x.textFor tag d = x.meaning tag.key d := by
      unfold textFor
      cases hk' : tag.kind with
      | optional => exact absurd hk' hk
      | hidden | alternation | named => rfl
    rw [htext, drawValue, if_neg hk]
    exact meaning_eq_resolve h d

theorem drawAll_eq_drawValues (hc : x.counting = false) {tags : List Text}
    (h : ∀ inside ∈ tags, x.Resolvable (ofInside inside).key) (d : Draws σ) :
    (x.drawAll tags d).1 = .ok (x.drawValues tags d.source).1 ∧
      (x.drawAll tags d).2.source = (x.drawValues tags d.source).2 := by
  induction tags generalizing d with
  | nil => exact ⟨rfl, rfl⟩
  | cons inside tags ih =>
      obtain ⟨hvalue, hsource⟩ :=
        textFor_eq_drawValue hc (h inside List.mem_cons_self) (Draws.startTag d)
      have hstart : (Draws.startTag d).source = d.source := rfl
      rw [hstart] at hvalue hsource
      rw [drawAll, drawValues]
      cases hdraw : x.textFor (ofInside inside) (Draws.startTag d) with
      | mk outcome d' =>
          rw [hdraw] at hvalue hsource
          dsimp only at hvalue hsource
          obtain ⟨h1, h2⟩ := ih (fun b hb => h b (List.mem_cons_of_mem inside hb)) d'
          rw [hvalue]
          dsimp only
          rw [h1, h2, hsource]
          exact ⟨rfl, rfl⟩

theorem map_fst_drawValues (tags : List Text) (s : σ) :
    (x.drawValues tags s).1.map Prod.fst = tags := by
  induction tags generalizing s with
  | nil => rfl
  | cons inside tags ih => exact congrArg (inside :: ·) (ih _)

/-- A resolved text has a property if the empty text, the terms of the key and the texts of the
grammar have it. -/
theorem resolve_of_allTexts {P : Text → Prop} (h : x.AllTexts P) (hnil : P []) {key : Text}
    (hterms : ∀ t ∈ key.splitOn '/', P t) (s : σ) : P (x.resolve key s).1 := by
  have hpick : ∀ terms : List Text, (∀ t ∈ terms, P t) → P (pick terms s).1 := by
    intro terms hall
    unfold pick
    split
    · exact hall _ (List.get_mem _ _)
    · exact hnil
  unfold resolve
  split
  · exact hpick _ hterms
  · split
    · next text ho => exact h.2 key text ho
    · refine hpick _ ?_
      cases hg : x.grammar.get? key with
      | none => simp
      | some alternatives => exact h.1 key alternatives hg

theorem drawValues_of_allTexts {P : Text → Prop} (h : x.AllTexts P) (hnil : P [])
    {tags : List Text} (hterms : ∀ b ∈ tags, ∀ t ∈ (ofInside b).key.splitOn '/', P t) (s : σ) :
    ∀ v ∈ (x.drawValues tags s).1, P v.2 := by
  induction tags generalizing s with
  | nil => simp [drawValues]
  | cons inside tags ih =>
      intro v hv
      rcases List.mem_cons.mp hv with rfl | hv
      · have hr := fun s : σ =>
          resolve_of_allTexts h hnil (hterms inside List.mem_cons_self) s
        show P (x.drawValue (ofInside inside) s).1
        unfold drawValue
        split
        · dsimp only
          split
          · exact hnil
          · exact hr _
        · exact hr _
      · exact ih (fun b hb => hterms b (List.mem_cons_of_mem inside hb)) _ v hv

/-- A character that stands neither in a query nor in the texts of the grammar stands in no value
of the tags of the query. -/
theorem not_mem_drawValues {c : Char} (h : x.AllTexts (c ∉ ·)) {ls : List Letter}
    (hls : c ∉ text ls) {tags : List Text} (htags : tags ⊆ insides ls) (s : σ) :
    ∀ v ∈ (x.drawValues tags s).1, c ∉ v.2 := by
  refine drawValues_of_allTexts h List.not_mem_nil ?_ s
  intro b hb
  have hinside : c ∉ b := by
    intro hmem
    refine hls (List.mem_flatMap.mpr ⟨.tag b, mem_insides.mp (htags hb), ?_⟩)
    simp [Letter.read, bracketed, hmem]
  have hkey : c ∉ (ofInside b).key :=
    key_of_cut (P := (c ∉ ·)) (fun _ _ _ _ => not_mem_cut) hinside
  exact forall_mem_splitOn (P := (c ∉ ·)) (fun _ _ => not_mem_cut) hkey

end Expander

/-! ## The values of the tags -/

/-- **The value of a tag** in a query with the given tags, of which those on the agenda have drawn
the given values. -/
def tagValue (tags : List Text) (values : Outcomes) (inside : Text) : Text :=
  match (ofInside inside).kind with
  | .hidden => []
  | .optional => (values.lookup inside).getD []
  | .alternation | .named =>
    if '!' :: inside ∈ tags.takeWhile (· != inside) then (values.lookup ('!' :: inside)).getD []
    else (values.lookup inside).getD []

/-- The text with every tag substituted by its value, all at once. -/
def substituted (value : Text → Text) (ls : List Letter) : Text :=
  ls.flatMap fun
    | .char c => [c]
    | .tag inside => value inside

/-- No marker begins the key of the tag. -/
def Unmarked (inside : Text) : Prop :=
  (ofInside inside).key.head? ≠ some '!' ∧ (ofInside inside).key.head? ≠ some '?'

instance (inside : Text) : Decidable (Unmarked inside) := inferInstanceAs (Decidable (_ ∧ _))

/-- Behind the marker of a hidden tag stands no other marker. -/
theorem Unmarked.kind_ne {body : Text} (h : Unmarked ('!' :: body)) :
    (ofInside body).kind ≠ .hidden ∧ (ofInside body).kind ≠ .optional := by
  have hkey : (ofInside ('!' :: body)).key = body.takeWhile (· != '#') :=
    key_ofBody (some .hidden) body
  unfold Unmarked at h
  rw [hkey] at h
  constructor
  · intro hk
    obtain ⟨rest, rfl⟩ := ofInside_of_hidden hk
    exact h.1 rfl
  · intro hk
    obtain ⟨rest, rfl⟩ := ofInside_of_optional hk
    exact h.2 rfl

/-- The first tag has its own value, unless it is hidden. -/
theorem tagValue_cons_self (inside t : Text) (tags : List Text) (values : Outcomes) :
    tagValue (inside :: tags) ((inside, t) :: values) inside
      = if (ofInside inside).kind = .hidden then [] else t := by
  unfold tagValue
  cases (ofInside inside).kind with
  | hidden => rfl
  | optional | alternation | named => simp

/-- A tag has the value of the hidden tag before it. -/
theorem tagValue_cons_hidden {b : Text} (h : Unmarked ('!' :: b)) (t : Text) (tags : List Text)
    (values : Outcomes) :
    tagValue (('!' :: b) :: tags) (('!' :: b, t) :: values) b = t := by
  obtain ⟨hk, hk'⟩ := h.kind_ne
  unfold tagValue
  rw [List.takeWhile_cons_of_pos (by simp)]
  cases hkind : (ofInside b).kind with
  | hidden => exact absurd hkind hk
  | optional => exact absurd hkind hk'
  | alternation | named => simp

/-- Neither another tag nor its value makes a difference to a tag. -/
theorem tagValue_cons_tags {a b : Text} (hab : b ≠ a) (hhidden : '!' :: b ≠ a)
    (tags : List Text) (values : Outcomes) :
    tagValue (a :: tags) values b = tagValue tags values b := by
  unfold tagValue
  rw [List.takeWhile_cons_of_pos (by simpa using hab.symm)]
  simp [hhidden]

theorem tagValue_cons_values {a b : Text} (hab : b ≠ a) (hhidden : '!' :: b ≠ a)
    (tags : List Text) (t : Text) (values : Outcomes) :
    tagValue tags ((a, t) :: values) b = tagValue tags values b := by
  have hlookup : ∀ {c : Text}, c ≠ a →
      List.lookup c ((a, t) :: values) = List.lookup c values := by
    intro c hc
    rw [List.lookup_cons, beq_eq_false_iff_ne.mpr hc]
  unfold tagValue
  rw [hlookup hab, hlookup hhidden]

/-- A tag that has been settled says nothing about one that has not. -/
theorem ne_of_settles {done : List Text} {a b : Text} (hdone : ∀ c ∈ done, Unmarked c)
    (ha : Settles done a) (hb : ¬ Settles done b) : b ≠ a ∧ '!' :: b ≠ a := by
  constructor
  · rintro rfl
    exact hb ha
  · rintro rfl
    rcases ha with hd | hd
    · exact hb (Or.inr hd)
    · exact (hdone _ hd).kind_ne.1 rfl

/-- **A tag reads as its value** when the outcomes of the agenda are filled in. -/
theorem reading_eq_tagValue {tags done : List Text} {values : Outcomes}
    (hvalues : values.map Prod.fst = agendaFrom done tags)
    (hdone : ∀ b ∈ done, Unmarked b) (htags : ∀ b ∈ tags, Unmarked b) {b : Text}
    (hb : b ∈ tags) (hs : ¬ Settles done b) :
    values.reading b = some (tagValue tags values b) := by
  induction tags generalizing done values with
  | nil => cases hb
  | cons a tags ih =>
      have ha := htags a List.mem_cons_self
      have htags' := fun c hc => htags c (List.mem_cons_of_mem a hc)
      by_cases hsa : Settles done a
      · -- the tag `a` has been settled before, which makes no difference to `b`
        obtain ⟨hab, hhidden⟩ := ne_of_settles hdone hsa hs
        have hmem := (List.mem_cons.mp hb).resolve_left hab
        rw [agendaFrom_cons_of_settles hsa] at hvalues
        rw [ih hvalues hdone htags' hmem hs, tagValue_cons_tags hab hhidden]
      · rw [agendaFrom_cons hsa] at hvalues
        obtain ⟨⟨a', t⟩, values, rfl⟩ : ∃ v vs, values = v :: vs := by
          refine List.exists_cons_of_ne_nil ?_
          rintro rfl
          cases hvalues
        obtain ⟨rfl, hvalues⟩ := List.cons.inj hvalues
        rw [Outcomes.reading_cons]
        -- `a'` draws now: it is `b` itself, or `b` with the marker, or says nothing about `b`
        by_cases hab : b = a'
        · subst hab
          rw [outcomeOf_self, tagValue_cons_self]
          rfl
        · by_cases hhidden : '!' :: b = a'
          · subst hhidden
            rw [outcomeOf_hidden, tagValue_cons_hidden ha]
            rfl
          · have hmem := (List.mem_cons.mp hb).resolve_left hab
            have hs' : ¬ Settles (a' :: done) b := by
              rw [settles_cons, not_or, not_or]
              exact ⟨⟨hab, hhidden⟩, hs⟩
            have hdone' : ∀ c ∈ a' :: done, Unmarked c := by
              intro c hc
              rcases List.mem_cons.mp hc with rfl | hc
              · exact ha
              · exact hdone c hc
            rw [outcomeOf_eq_none hab hhidden, Option.none_or, ih hvalues hdone' htags' hmem hs',
              tagValue_cons_tags hab hhidden, tagValue_cons_values hab hhidden]

/-! ## The engine -/

/-- With every tag read as its value, filling in is substitution. -/
theorem text_fill {f : Reading} {value : Text → Text} {ls : List Letter}
    (h : ∀ inside ∈ insides ls, f inside = some (value inside)) :
    text (fill f ls) = substituted value ls := by
  induction ls with
  | nil => rfl
  | cons l ls ih =>
      cases l with
      | char c => exact congrArg (c :: ·) (ih h)
      | tag inside =>
          have hin := h inside List.mem_cons_self
          have hrest := ih fun b hb => h b (List.mem_cons_of_mem inside hb)
          rw [fill_tag_cons_of_some hin, text_append, text_plain, hrest]
          rfl

theorem not_mem_substituted {c : Char} {value : Text → Text} {ls : List Letter}
    (hls : c ∉ text ls) (hvalue : ∀ inside ∈ insides ls, c ∉ value inside) :
    c ∉ substituted value ls := by
  intro hc
  obtain ⟨l, hl, hc⟩ := List.mem_flatMap.mp hc
  cases l with
  | char d =>
      obtain rfl := List.mem_singleton.mp hc
      exact hls (List.mem_flatMap.mpr ⟨_, hl, List.mem_singleton_self c⟩)
  | tag inside => exact hvalue inside (mem_insides.mpr hl) hc

theorem not_mem_tagValue {c : Char} {values : Outcomes} (h : ∀ v ∈ values, c ∉ v.2)
    (tags : List Text) (inside : Text) : c ∉ tagValue tags values inside := by
  have hlookup : ∀ b : Text, c ∉ (values.lookup b).getD [] := by
    intro b
    cases hb : values.lookup b with
    | none => simp
    | some t =>
        obtain ⟨l₁, l₂, rfl, -⟩ := List.lookup_eq_some_iff.mp hb
        exact h (b, t) (by simp)
  unfold tagValue
  split
  · exact List.not_mem_nil
  · exact hlookup inside
  all_goals
    split
    · exact hlookup ('!' :: inside)
    · exact hlookup inside

namespace Engine

variable {σ : Type} [WordSource σ]

/-- **The engine refines the values of the tags.** A flat query whose tags all resolve, and not to
articles, either grows too large, or its phrase is the query with every tag substituted by its
value, trimmed, up to runs of spaces; and the engine goes on behind the values drawn. -/
theorem phrase_eq_substituted (e : Engine σ) (overrides : Overrides) {ls : List Letter}
    (htexts : (e.expander overrides).AllTexts fun t => BracketFree t ∧ '$' ∉ t)
    (hflat : ∀ l ∈ ls, l.Flat) (hdollar : '$' ∉ text ls)
    (htags : ∀ inside ∈ insides ls,
      Unmarked inside ∧ (e.expander overrides).Resolvable (ofInside inside).key)
    (hlimit : (insides ls).length < e.settings.cycleLimit.toNat) :
    (e.phrase (text ls) overrides).1
        = .error (.expansion (.tooLarge e.settings.sizeLimit.toNat)) ∨
      ∃ phrase,
        e.phrase (text ls) overrides
          = (.ok phrase,
              { e with
                source := ((e.expander overrides).drawValues (agenda (insides ls)) e.source).2 }) ∧
        squeeze ' ' phrase
          = squeeze ' ' (substituted (tagValue (insides ls)
              ((e.expander overrides).drawValues (agenda (insides ls)) e.source).1) ls).trim := by
  have hagenda : agenda (insides ls) ⊆ insides ls := agendaFrom_subset [] _
  -- all keys resolve, so the draws of the agenda cannot fail
  obtain ⟨hok, hsource⟩ := Expander.drawAll_eq_drawValues (x := e.expander overrides) rfl
    (fun b hb => (htags b (hagenda hb)).2) ⟨e.source, {}⟩
  dsimp only at hok hsource
  generalize hvalues : (e.expander overrides).drawValues (agenda (insides ls)) e.source = values
    at hok hsource ⊢
  have hlength : (agenda (insides ls)).length < (e.expander overrides).cycleLimit :=
    Nat.lt_of_le_of_lt (length_agendaFrom_le [] _) hlimit
  rcases Expander.expand_simulates (htexts.imp fun t h => h.1) hflat hlength e.source with
    hlarge | ⟨e', he, -⟩ | ⟨outcomes, reached, ho, hreached, hexpand⟩
  · left
    show ((e.expander overrides).expand (text ls) e.source).1.mapError _ = _
    rw [hlarge]
    rfl
  · rw [hok] at he
    cases he
  · right
    rw [hok] at ho
    cases ho
    -- every tag reads as its value, so what was reached holds no dollar sign
    have hread : ∀ b ∈ insides ls,
        Outcomes.reading values.1 b = some (tagValue (insides ls) values.1 b) := by
      intro b hb
      have hfst : values.1.map Prod.fst = agendaFrom [] (insides ls) := by
        rw [← hvalues]
        exact Expander.map_fst_drawValues _ _
      exact reading_eq_tagValue hfst (by simp) (fun c hc => (htags c hc).1) hb (by simp [Settles])
    have hfree : ∀ v ∈ values.1, '$' ∉ v.2 := by
      rw [← hvalues]
      exact Expander.not_mem_drawValues (htexts.imp fun t h => h.2) hdollar hagenda e.source
    rw [text_fill hread] at hreached
    have hno : '$' ∉ reached := by
      rw [← mem_squeeze (a := '$'), hreached, mem_squeeze]
      exact not_mem_substituted hdollar fun b _ => not_mem_tagValue hfree _ b
    refine ⟨reached.trim, ?_, squeeze_trim_congr hreached⟩
    rw [phrase, hexpand, Expander.finish_of_not_mem hno, ← hsource]
    rfl

/-! ### Tags of all kinds -/

/-- An engine with two animals in the category `k` and nothing in the category `n`. -/
def zoo : Engine Keystream where
  grammar := { categories := [(['k'], [['c', 'a', 't'], ['d', 'o', 'g']]), (['n'], [])] }
  settings := .default
  source := Keystream.ofSeed 7

/-- The query `[!k][o] [k], [?k#1] [p/q] [n]`, of which `o` is to be forced. -/
def zooQuery : List Letter :=
  [.tag ['!', 'k'], .tag ['o'], .char ' ', .tag ['k'], .char ',', .char ' ',
    .tag ['?', 'k', '#', '1'], .char ' ', .tag ['p', '/', 'q'], .char ' ', .tag ['n']]

/-- The query is expanded, to a phrase with the text of `[?k#1]` left out. -/
theorem zoo_phrase_eq_substituted :
    (zoo.phrase (text zooQuery) [(['o'], ['a', ' ', ' '])]).1 = .ok "a cat, p".toList ∧
      ∃ phrase,
        zoo.phrase (text zooQuery) [(['o'], ['a', ' ', ' '])]
          = (.ok phrase,
              { zoo with
                source := ((zoo.expander [(['o'], ['a', ' ', ' '])]).drawValues
                  (agenda (insides zooQuery)) zoo.source).2 }) ∧
        squeeze ' ' phrase
          = squeeze ' ' (substituted (tagValue (insides zooQuery)
              ((zoo.expander [(['o'], ['a', ' ', ' '])]).drawValues
                (agenda (insides zooQuery)) zoo.source).1) zooQuery).trim := by
  have hphrase : (zoo.phrase (text zooQuery) [(['o'], ['a', ' ', ' '])]).1
      = .ok "a cat, p".toList := by decide +kernel
  refine ⟨hphrase, (zoo.phrase_eq_substituted _ (Expander.allTexts_of_entries (by decide)
    (by decide)) (by decide) (by decide) (by decide) (by decide)).resolve_left fun hlarge => ?_⟩
  rw [hphrase] at hlarge
  cases hlarge

end Engine

end PhraseGrammar
