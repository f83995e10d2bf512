import PhraseGrammar.Proofs.FirstTag

set_option autoImplicit false

/-! # What a cycle can do

Which text a tag is replaced by is drawn. What is common to all draws is a relation between
queries: `Expander.Step x query next` holds if a cycle can turn `query` into `next`, for some
draw (`Expander.step_of_apply`), and `Expander.Fails x query e` if a cycle can fail there.
-/

namespace PhraseGrammar.Expander

open Text Tag

variable {σ : Type} [WordSource σ]

/-! ## What a key stands for -/

/-- The key has a meaning. -/
def Knows (x : Expander) (key : Text) : Prop :=
  '/' ∈ key ∨ (x.overrides.lookup key).isSome ∨ (x.grammar.get? key).isSome ∨
    Article.isKey key = true

instance (x : Expander) (key : Text) : Decidable (x.Knows key) :=
  inferInstanceAs (Decidable (_ ∨ _ ∨ _ ∨ _))

/-- The texts that a key can stand for. -/
inductive Means (x : Expander) : Text → Text → Prop
  /-- A key that lists its own terms. -/
  | term {key text : Text} : '/' ∈ key → text ∈ key.splitOn '/' → Means x key text
  /-- A forced text. -/
  | forced {key text : Text} :
      '/' ∉ key → x.overrides.lookup key = some text → Means x key text
  /-- An alternative of a category. -/
  | alternative {key text : Text} {alternatives : List Text} :
      '/' ∉ key → x.overrides.lookup key = none → x.grammar.get? key = some alternatives →
      text ∈ alternatives → Means x key text
  /-- The empty text of a category without alternatives. -/
  | nothing {key : Text} :
      '/' ∉ key → x.overrides.lookup key = none → x.grammar.get? key = some [] → Means x key []
  /-- The mark of an article. -/
  | article {key : Text} :
      '/' ∉ key → x.overrides.lookup key = none → x.grammar.get? key = none →
      Article.isKey key = true → Means x key (Article.mark key)

/-- Every text that can come into a query has a property: every alternative of every category,
and every forced text. -/
def AllTexts (x : Expander) (P : Text → Prop) : Prop :=
  (∀ key alternatives, x.grammar.get? key = some alternatives → ∀ a ∈ alternatives, P a) ∧
    ∀ key text, x.overrides.lookup key = some text → P text

theorem AllTexts.imp {x : Expander} {P Q : Text → Prop} (h : x.AllTexts P)
    (himp : ∀ t, P t → Q t) : x.AllTexts Q :=
  ⟨fun key alternatives hg a ha => himp a (h.1 key alternatives hg a ha),
    fun key text ho => himp text (h.2 key text ho)⟩

theorem mem_of_lookup {β : Type} {l : List (Text × β)} {key : Text} {b : β}
    (h : l.lookup key = some b) : (key, b) ∈ l := by
  obtain ⟨l₁, l₂, rfl, -⟩ := List.lookup_eq_some_iff.mp h
  simp

/-- If the keys are distinct, an entry is found under its key. -/
theorem lookup_of_mem {β : Type} {l : List (Text × β)} (h : (l.map Prod.fst).Nodup)
    {entry : Text × β} (hentry : entry ∈ l) : l.lookup entry.1 = some entry.2 := by
  induction l with
  | nil => cases hentry
  | cons first l ih =>
      obtain ⟨hfirst, hrest⟩ := List.nodup_cons.mp h
      rcases List.mem_cons.mp hentry with rfl | hmem
      · exact List.lookup_cons_self
      · have hne : entry.1 ≠ first.1 := fun heq => hfirst (heq ▸ List.mem_map_of_mem hmem)
        obtain ⟨key, b⟩ := first
        rw [List.lookup_cons, beq_eq_false_iff_ne.mpr hne]
        exact ih hrest hmem

/-- It is enough to look at the entries of the grammar and of the overrides. -/
theorem allTexts_of_entries {x : Expander} {P : Text → Prop}
    (hg : ∀ entry ∈ x.grammar.categories, ∀ a ∈ entry.2, P a)
    (ho : ∀ entry ∈ x.overrides, P entry.2) : x.AllTexts P :=
  ⟨fun _ _ h => hg _ (mem_of_lookup h), fun _ _ h => ho _ (mem_of_lookup h)⟩

/-- What a key stands for has a property if the texts of the grammar, the terms of the key and
the marks of articles have it. -/
theorem AllTexts.means {x : Expander} {P : Text → Prop} {key text : Text} (h : x.AllTexts P)
    (hnil : P []) (hterms : ∀ s ∈ key.splitOn '/', P s)
    (hmark : Article.isKey key = true → P (Article.mark key)) (hm : x.Means key text) : P text := by
  cases hm with
  | term _ hmem => exact hterms text hmem
  | forced _ ho => exact h.2 key text ho
  | alternative _ _ hg ha => exact h.1 key _ hg text ha
  | nothing => exact hnil
  | article _ _ _ ha => exact hmark ha

/-- What a key stands for depends on the grammar and on the forced texts alone. -/
theorem Means.congr {x y : Expander} (hg : y.grammar = x.grammar) (ho : y.overrides = x.overrides)
    {key text : Text} (h : x.Means key text) : y.Means key text := by
  cases h with
  | term hs hmem => exact .term hs hmem
  | forced hs hlookup => exact .forced hs (by rw [ho, hlookup])
  | alternative hs hlookup hget ha =>
      exact .alternative hs (by rw [ho, hlookup]) (by rw [hg, hget]) ha
  | nothing hs hlookup hget => exact .nothing hs (by rw [ho, hlookup]) (by rw [hg, hget])
  | article hs hlookup hget ha =>
      exact .article hs (by rw [ho, hlookup]) (by rw [hg, hget]) ha

/-- A choice is one of the terms, if there are any. -/
theorem choose_mem (terms : List Text) (d : Draws σ) :
    (choose terms d).1 ∈ terms ∨ terms = [] := by
  cases terms with
  | nil => exact Or.inr rfl
  | cons term rest => exact Or.inl (List.get_mem _ _)

theorem means_of_meaning {x : Expander} {key text : Text} {d : Draws σ}
    (h : (x.meaning key d).1 = .ok text) : x.Means key text := by
  unfold meaning at h
  split at h
  · next hs =>
      cases h
      have hs : '/' ∈ key := by simpa using hs
      -- a key has a term, if only an empty one
      rcases choose_mem (key.splitOn '/') d with hc | hnil
      · exact .term hs hc
      · exact absurd hnil (List.splitOn_ne_nil _ _)
  · next hs =>
      have hs : '/' ∉ key := by simpa using hs
      split at h
      · next text' ho =>
          cases h
          exact .forced hs ho
      · next ho =>
          split at h
          · next alternatives hg =>
              cases h
              rcases choose_mem alternatives d with hc | rfl
              · exact .alternative hs ho hg hc
              · exact .nothing hs ho hg
          · next hg =>
              split at h
              · next ha =>
                  cases h
                  exact .article hs ho hg ha
              · cases h

theorem not_knows_of_meaning {x : Expander} {key : Text} {d : Draws σ} {e : ExpansionError}
    (h : (x.meaning key d).1 = .error e) : e = .unknownKey key ∧ ¬ x.Knows key := by
  unfold meaning at h
  split at h
  · cases h
  · next hs =>
      split at h
      · cases h
      · next ho =>
          split at h
          · cases h
          · next hg =>
              split at h
              · cases h
              · next ha =>
                  cases h
                  refine ⟨rfl, ?_⟩
                  have hs : '/' ∉ key := by simpa using hs
                  simp only [Knows, ho, hg, Option.isSome_none, Bool.false_eq_true, false_or]
                  exact fun hk => hk.elim hs ha

/-! ## What a tag asks for

A cycle first draws the text that replaces the tag and then replaces it. The kind of the tag
decides how the text is drawn, and what the text is put in the place of. -/

/-- The text that a tag is replaced by. -/
def textFor (x : Expander) (tag : Tag) (d : Draws σ) : Except ExpansionError Text × Draws σ :=
  match tag.kind with
  | .optional => x.optionalMeaning tag.key d
  | .hidden | .alternation | .named => x.meaning tag.key d

/-- The substitution of a text for a tag. -/
def placing (query found : Text) (tag : Tag) (new : Text) : Substitution :=
  match tag.kind with
  | .hidden => ⟨replace found [] query, tag.unmarked, new⟩
  | .optional | .alternation | .named => ⟨query, found, new⟩

theorem placing_of_not_hidden {tag : Tag} (h : tag.kind ≠ .hidden) (query found new : Text) :
    placing query found tag new = ⟨query, found, new⟩ := by
  unfold placing
  cases hk : tag.kind with
  | hidden => exact absurd hk h
  | optional | alternation | named => rfl

/-- The draws of a cycle, before its tag. -/
def Draws.startTag (d : Draws σ) : Draws σ := { d with estimate := d.estimate.startTag }

theorem substitution_eq (x : Expander) (query found : Text) (tag : Tag) (d : Draws σ) :
    x.substitution query found tag d
      = ((x.textFor tag (Draws.startTag d)).1.map (placing query found tag),
          (x.textFor tag (Draws.startTag d)).2) := by
  unfold substitution textFor placing
  dsimp only [Draws.startTag]
  cases tag.kind <;> rfl

/-- A cycle at a tag: its text is drawn and put in place. -/
theorem cycle_bracketed (x : Expander) (query : Text) {inside : Text} (d : Draws σ)
    (h : BracketFree inside) :
    x.cycle query (bracketed inside) d
      = ((x.textFor (ofInside inside) (Draws.startTag d)).1.bind fun new =>
            (placing query (bracketed inside) (ofInside inside) new).apply x.sizeLimit,
          (x.textFor (ofInside inside) (Draws.startTag d)).2) := by
  unfold cycle
  rw [parse_bracketed h]
  simp only [substitution_eq]
  cases (x.textFor (ofInside inside) (Draws.startTag d)).1 <;> rfl

theorem means_of_optionalMeaning {x : Expander} {key new : Text} {d : Draws σ}
    (h : (x.optionalMeaning key d).1 = .ok new) : new = [] ∨ x.Means key new := by
  unfold optionalMeaning at h
  dsimp only at h
  split at h
  · cases h
    exact Or.inl rfl
  · cases hm : (x.meaning key
        ⟨(WordSource.coin d.source).2, d.estimate.addOmission⟩).1 with
    | error e => simp [hm, Except.map] at h
    | ok text =>
        simp only [hm, Except.map] at h
        cases h
        split
        · exact Or.inl rfl
        · exact Or.inr (means_of_meaning hm)

theorem not_knows_of_optionalMeaning {x : Expander} {key : Text} {d : Draws σ}
    {e : ExpansionError} (h : (x.optionalMeaning key d).1 = .error e) :
    e = .unknownKey key ∧ ¬ x.Knows key := by
  unfold optionalMeaning at h
  dsimp only at h
  split at h
  · cases h
  · cases hm : (x.meaning key
        ⟨(WordSource.coin d.source).2, d.estimate.addOmission⟩).1 with
    | error e' =>
        simp only [hm, Except.map] at h
        cases h
        exact not_knows_of_meaning hm
    | ok text => simp [hm, Except.map] at h

theorem means_of_textFor {x : Expander} {tag : Tag} {new : Text} {d : Draws σ}
    (h : (x.textFor tag d).1 = .ok new) :
    x.Means tag.key new ∨ tag.kind = .optional ∧ new = [] := by
  unfold textFor at h
  split at h
  · next hk => exact (means_of_optionalMeaning h).symm.imp_right fun hnew => ⟨hk, hnew⟩
  all_goals exact Or.inl (means_of_meaning h)

theorem not_knows_of_textFor {x : Expander} {tag : Tag} {e : ExpansionError} {d : Draws σ}
    (h : (x.textFor tag d).1 = .error e) : e = .unknownKey tag.key ∧ ¬ x.Knows tag.key := by
  unfold textFor at h
  split at h
  · exact not_knows_of_optionalMeaning h
  all_goals exact not_knows_of_meaning h

/-! ## Steps -/

/-- **A step of the rewriting.** The first tag is replaced by one of the texts that its key can
stand for. An optional tag can be left out, and a hidden tag is taken out of the query before
the tag without its marker is replaced. -/
inductive Step (x : Expander) (query : Text) : Text → Prop
  | shown {inside new : Text} :
      Query.FirstTag query inside → (ofInside inside).kind ≠ .hidden →
      x.Means (ofInside inside).key new →
      Step x query (replace (bracketed inside) new query.halveSpaces)
  | omitted {body : Text} :
      Query.FirstTag query ('?' :: body) →
      Step x query (replace (bracketed ('?' :: body)) [] query.halveSpaces)
  | hidden {body new : Text} :
      Query.FirstTag query ('!' :: body) → x.Means (ofInside ('!' :: body)).key new →
      Step x query
        (replace (bracketed body) new
          (replace (bracketed ('!' :: body)) [] query).halveSpaces)

theorem Step.congr {x y : Expander} (hg : y.grammar = x.grammar) (ho : y.overrides = x.overrides)
    {query next : Text} (h : x.Step query next) : y.Step query next := by
  cases h with
  | shown hf hk hm => exact .shown hf hk (hm.congr hg ho)
  | omitted hf => exact .omitted hf
  | hidden hf hm => exact .hidden hf (hm.congr hg ho)

/-- How a cycle fails at a query. -/
inductive Fails (x : Expander) (query : Text) : ExpansionError → Prop
  | noTag {opening : Nat} {e : ExpansionError} :
      Query.firstOpening? query = some opening → Query.tagAt opening query = .error e →
      Fails x query e
  | badTag {opening : Nat} {found : Text} {e : ExpansionError} :
      Query.firstOpening? query = some opening → Query.tagAt opening query = .ok found →
      Tag.parse found = .error e → Fails x query e
  | unknownKey {inside : Text} :
      Query.FirstTag query inside → ¬ x.Knows (ofInside inside).key →
      Fails x query (.unknownKey (ofInside inside).key)
  | tooLarge : Fails x query (.tooLarge x.sizeLimit)

theorem apply_eq_error {s : Substitution} {limit : Nat} {e : ExpansionError}
    (h : s.apply limit = .error e) : e = .tooLarge limit := by
  simp only [Substitution.apply] at h
  split at h
  · cases h
    rfl
  · cases h

/-- A cycle at a first tag makes a step. -/
theorem step_of_apply {x : Expander} {query inside new next : Text} {d : Draws σ}
    (hf : Query.FirstTag query inside) (htext : (x.textFor (ofInside inside) d).1 = .ok new)
    (happly : (placing query (bracketed inside) (ofInside inside) new).apply x.sizeLimit
      = .ok next) : x.Step query next := by
  obtain rfl := Substitution.eq_replace_of_apply happly
  have hmeans := means_of_textFor htext
  -- the kind of the tag decides which step it is
  cases hk : (ofInside inside).kind with
  | hidden =>
      obtain ⟨body, rfl⟩ := ofInside_of_hidden hk
      have hnew := hmeans.resolve_right (by simp [hk])
      simp only [placing, hk, unmarked_ofInside_hidden]
      exact .hidden hf hnew
  | optional =>
      obtain ⟨body, rfl⟩ := ofInside_of_optional hk
      simp only [placing, hk]
      rcases hmeans with hnew | ⟨-, rfl⟩
      · exact .shown hf (by simp [hk]) hnew
      · exact .omitted hf
  | alternation | named =>
      simp only [placing, hk]
      exact .shown hf (by simp [hk]) (hmeans.resolve_right (by simp [hk]))

/-- What a cycle makes of a query with a first tag is a step. -/
theorem step_of_cycle {x : Expander} {query inside next : Text} {d : Draws σ}
    (hf : Query.FirstTag query inside) (h : (x.cycle query (bracketed inside) d).1 = .ok next) :
    x.Step query next := by
  rw [cycle_bracketed x query d hf.bracketFree] at h
  cases htext : (x.textFor (ofInside inside) (Draws.startTag d)).1 with
  | error e =>
      rw [htext] at h
      cases h
  | ok new =>
      rw [htext] at h
      exact step_of_apply hf htext h

/-! ## The cycles, one by one -/

/-- A query that is not the one before is remembered, and the expansion does not stand still. -/
theorem next?_of_ne {progress : Progress} {query : Text} (h : query ≠ progress.previous) :
    progress.next? query = some ⟨query, false⟩ := by
  rw [Progress.next?, if_neg (by simpa using h)]

theorem cycles_of_not_mem (x : Expander) (n : Nat) (progress : Progress) {query : Text}
    (d : Draws σ) (h : '[' ∉ query) : x.cycles n progress query d = (.ok query, d) := by
  unfold cycles
  rw [Query.firstOpening?_eq_none.mpr h]

theorem cycles_of_stalled (x : Expander) (n : Nat) {progress : Progress} {query : Text}
    (d : Draws σ) (h : '[' ∈ query) (hp : progress.next? query = none) :
    x.cycles n progress query d = (.error .noProgress, d) := by
  obtain ⟨opening, ho⟩ := Query.exists_firstOpening? h
  unfold cycles
  rw [ho, hp]

theorem cycles_zero (x : Expander) {progress next : Progress} {query : Text} (d : Draws σ)
    (h : '[' ∈ query) (hp : progress.next? query = some next) :
    x.cycles 0 progress query d = (.error (.tooManyCycles x.cycleLimit), d) := by
  obtain ⟨opening, ho⟩ := Query.exists_firstOpening? h
  unfold cycles
  rw [ho, hp]

/-- Without a cycle left, a query with a tag cannot be expanded. -/
theorem cycles_zero_error (x : Expander) (progress : Progress) {query : Text} (d : Draws σ)
    (h : '[' ∈ query) : ∃ e, (x.cycles 0 progress query d).1 = .error e := by
  cases hp : progress.next? query with
  | none =>
      rw [cycles_of_stalled x 0 d h hp]
      exact ⟨_, rfl⟩
  | some next =>
      rw [cycles_zero x d h hp]
      exact ⟨_, rfl⟩

theorem cycles_succ (x : Expander) (n : Nat) {progress next : Progress} {query : Text}
    {opening : Nat} (d : Draws σ) (ho : Query.firstOpening? query = some opening)
    (hp : progress.next? query = some next) :
    x.cycles (n + 1) progress query d
      = match Query.tagAt opening query with
        | .error e => (.error e, d)
        | .ok found =>
          match x.cycle query found d with
          | (.error e, d) => (.error e, d)
          | (.ok query, d) => x.cycles n next query d := by
  have h := cycles.eq_def x (n + 1) progress query d
  simp only [ho, hp] at h
  exact h

/-- The first cycle at a query with a first tag, and the others behind it. -/
theorem cycles_firstTag (x : Expander) (n : Nat) {progress next : Progress}
    {query inside : Text} (d : Draws σ) (hf : Query.FirstTag query inside)
    (hp : progress.next? query = some next) :
    x.cycles (n + 1) progress query d
      = match x.textFor (ofInside inside) (Draws.startTag d) with
        | (.error e, d) => (.error e, d)
        | (.ok new, d) =>
          match (placing query (bracketed inside) (ofInside inside) new).apply x.sizeLimit with
          | .error e => (.error e, d)
          | .ok query => x.cycles n next query d := by
  obtain ⟨opening, ho, hat⟩ := hf.tagAt
  rw [cycles_succ x n d ho hp, hat]
  dsimp only
  rw [cycle_bracketed x query d hf.bracketFree]
  obtain ⟨r, d'⟩ := x.textFor (ofInside inside) (Draws.startTag d)
  cases r with
  | error e => rfl
  | ok new =>
      dsimp only [Except.bind]
      cases (placing query (bracketed inside) (ofInside inside) new).apply x.sizeLimit <;> rfl

/-- **What the cycles give**, by what is drawn for the first tag of the query: there is no text
for it, or the query grows too large, or the other cycles go on with a new query. -/
inductive FirstCycle (x : Expander) (n : Nat) (next : Progress) (query inside : Text) :
    Except ExpansionError Text × Draws σ → Except ExpansionError Text × Draws σ → Prop
  | unresolved {e : ExpansionError} {d : Draws σ} :
      FirstCycle x n next query inside (.error e, d) (.error e, d)
  | tooLarge {new : Text} {d : Draws σ} :
      FirstCycle x n next query inside (.ok new, d) (.error (.tooLarge x.sizeLimit), d)
  | replaced {new replaced : Text} {d : Draws σ} :
      (placing query (bracketed inside) (ofInside inside) new).apply x.sizeLimit = .ok replaced →
      FirstCycle x n next query inside (.ok new, d) (x.cycles n next replaced d)

theorem firstCycle (x : Expander) (n : Nat) {progress next : Progress} {query inside : Text}
    (d : Draws σ) (hf : Query.FirstTag query inside) (hp : progress.next? query = some next) :
    x.FirstCycle n next query inside (x.textFor (ofInside inside) (Draws.startTag d))
      (x.cycles (n + 1) progress query d) := by
  rw [cycles_firstTag x n d hf hp]
  cases x.textFor (ofInside inside) (Draws.startTag d) with
  | mk drawn d' =>
      cases drawn with
      | error e => exact .unresolved
      | ok new =>
          dsimp only
          cases happly : (placing query (bracketed inside) (ofInside inside) new).apply
              x.sizeLimit with
          | error e =>
              rw [apply_eq_error happly]
              exact .tooLarge
          | ok replaced => exact .replaced happly

/-! ## Two expanders side by side -/

/-- **Two expanders with the same cycles** take the same course, with the same draws. The cycles
need to be the same only at queries with a property that the steps of one of them keep. -/
theorem cycles_congr {x y : Expander} {P : Text → Prop} (hlimit : y.cycleLimit = x.cycleLimit)
    (hcycle : ∀ (query inside : Text) (d : Draws σ), P query → Query.FirstTag query inside →
      y.cycle query (bracketed inside) d = x.cycle query (bracketed inside) d)
    (hstep : ∀ query next, P query → x.Step query next → P next)
    (n : Nat) (progress : Progress) {query : Text} (d : Draws σ) (hquery : P query) :
    y.cycles n progress query d = x.cycles n progress query d := by
  -- the induction is on the number of cycles that are left
  induction n generalizing progress query d with
  | zero => rw [cycles.eq_def, cycles.eq_def, hlimit]
  | succ n ih =>
      by_cases hopen : '[' ∈ query
      swap
      · rw [cycles_of_not_mem _ _ _ _ hopen, cycles_of_not_mem _ _ _ _ hopen]
      cases hp : progress.next? query with
      | none => rw [cycles_of_stalled _ _ _ hopen hp, cycles_of_stalled _ _ _ hopen hp]
      | some next =>
          obtain ⟨opening, ho⟩ := Query.exists_firstOpening? hopen
          rw [cycles_succ _ _ _ ho hp, cycles_succ _ _ _ ho hp]
          cases hf : Query.tagAt opening query with
          | error e => rfl
          | ok found =>
              dsimp only
              cases ht : Tag.parse found with
              | error e => simp only [cycle, ht]
              | ok tag =>
                  obtain ⟨inside, hfirst, rfl, -⟩ := Query.firstTag_of_parse ho hf ht
                  rw [hcycle query inside d hquery hfirst]
                  cases hc : x.cycle query (bracketed inside) d with
                  | mk outcome d' =>
                      cases outcome with
                      | error e => rfl
                      | ok replaced =>
                          have hs : x.Step query replaced :=
                            step_of_cycle hfirst (congrArg Prod.fst hc)
                          exact ih next d' (hstep query replaced hquery hs)

theorem expand_congr {x y : Expander} {P : Text → Prop} (hlimit : y.cycleLimit = x.cycleLimit)
    (hcycle : ∀ (query inside : Text) (d : Draws σ), P query → Query.FirstTag query inside →
      y.cycle query (bracketed inside) d = x.cycle query (bracketed inside) d)
    (hstep : ∀ query next, P query → x.Step query next → P next)
    {query : Text} (hquery : P query) (source : σ) :
    y.expand query source = x.expand query source := by
  unfold expand
  rw [hlimit, cycles_congr hlimit hcycle hstep _ _ _ hquery]

end PhraseGrammar.Expander
