import PhraseGrammar.Proofs.Marks
import PhraseGrammar.Proofs.Sessions

set_option autoImplicit false

/-! # Posted queries

A query can be asked for, or posted together with forced texts. An expansion depends on the forced
texts only through those of keys without a slash, since a key with a slash lists its own terms
(`Expander.expand_of_agree`). So a query that is posted without a forced text of any other key is
expanded like one that is asked for, with the same draws.

The two requests still differ in the query that they accept. Who asks for a blank query is told
that there is none; who posts one gets an empty phrase. In every other case the answers are the
same, and the server after them always is (`Server.posted_eq_asked_iff`).
-/

namespace PhraseGrammar

variable {σ : Type} [WordSource σ]

namespace Overrides

/-- Both force the same text of every key that is looked up. -/
def Agree (o o' : Overrides) : Prop := ∀ key, '/' ∉ key → o.lookup key = o'.lookup key

/-- No key is ever looked up. -/
def Inert (o : Overrides) : Prop := ∀ entry ∈ o, '/' ∈ entry.1

instance (o : Overrides) : Decidable o.Inert := inferInstanceAs (Decidable (∀ entry ∈ o, _))

theorem Inert.agree_nil {o : Overrides} (h : o.Inert) : Agree [] o := by
  intro key hslash
  rw [List.lookup_nil, eq_comm, List.lookup_eq_none_iff]
  intro entry hentry
  rw [bne_iff_ne]
  rintro rfl
  exact hslash (h entry hentry)

end Overrides

/-! ## Expansions with other forced texts -/

namespace Expander

/-- The expander with other forced texts. -/
def withOverrides (x : Expander) (overrides : Overrides) : Expander := { x with overrides }

variable {x : Expander} {o : Overrides}

theorem meaning_of_agree (h : x.overrides.Agree o) (key : Text) (d : Draws σ) :
    (x.withOverrides o).meaning key d = x.meaning key d := by
  unfold meaning
  by_cases hs : '/' ∈ key
  · have hcontains : key.contains '/' = true := by simpa using hs
    rw [if_pos hcontains, if_pos hcontains]
  · have hlookup : (x.withOverrides o).overrides.lookup key = x.overrides.lookup key :=
      (h key hs).symm
    rw [hlookup]
    rfl

theorem substitution_of_agree (h : x.overrides.Agree o) (query found : Text) (tag : Tag)
    (d : Draws σ) :
    (x.withOverrides o).substitution query found tag d = x.substitution query found tag d := by
  have hoptional : ∀ d : Draws σ,
      (x.withOverrides o).optionalMeaning tag.key d = x.optionalMeaning tag.key d := by
    intro d
    unfold optionalMeaning
    simp only [meaning_of_agree h]
    rfl
  unfold substitution
  simp only [meaning_of_agree h, hoptional]

theorem cycle_of_agree (h : x.overrides.Agree o) (query found : Text) (d : Draws σ) :
    (x.withOverrides o).cycle query found d = x.cycle query found d := by
  unfold cycle
  simp only [substitution_of_agree h]
  rfl

/-- **An expansion depends on the forced texts** of keys without a slash only. -/
theorem expand_of_agree (h : x.overrides.Agree o) (query : Text) (source : σ) :
    (x.withOverrides o).expand query source = x.expand query source := by
  refine expand_congr (P := fun _ => True) ?_ ?_ ?_ trivial source
  · rfl
  · exact fun query inside d _ _ => cycle_of_agree h query _ d
  · exact fun _ _ _ _ => trivial

/-- A blank query is expanded to nothing, without a draw. -/
theorem expand_of_blank (x : Expander) {query : Text} (h : query.trim = []) (source : σ) :
    x.expand query source = (.ok [], { source }) := by
  have hblank : ∀ {c : Char}, Text.isBlank c = false → c ∉ query := by
    intro c hc hmem
    rw [Text.isBlank_of_trim_eq_nil h c hmem] at hc
    cases hc
  have hopen : '[' ∉ query := hblank (by decide)
  have hdollar : '$' ∉ query := hblank (by decide)
  unfold expand
  rw [cycles_of_not_mem x _ _ _ hopen]
  show (finish query, _) = _
  rw [finish_of_not_mem hdollar, h]

end Expander

namespace Engine

theorem phrase_of_agree (e : Engine σ) (query : Text) {o o' : Overrides} (h : o.Agree o') :
    e.phrase query o' = e.phrase query o := by
  have hexpand : (e.expander o').expand query e.source = (e.expander o).expand query e.source :=
    Expander.expand_of_agree (x := e.expander o) h query e.source
  unfold phrase
  rw [hexpand]

theorem phrase_of_blank (e : Engine σ) {query : Text} (h : query.trim = [])
    (overrides : Overrides) : e.phrase query overrides = (.ok [], e) := by
  unfold phrase
  rw [Expander.expand_of_blank _ h]
  rfl

end Engine

/-! ## Asking for a query, and posting it -/

namespace Server

theorem handle_generateWith (s : Server) (around : Surroundings) (query : Text)
    (overrides : Overrides) :
    s.handle around (.generateWith query overrides)
      = (.ofPhrase (s.engine.phrase query overrides).1,
          { s with engine := (s.engine.phrase query overrides).2 }) := rfl

theorem handle_generateWith_of_blank (s : Server) (around : Surroundings) {query : Text}
    (h : query.trim = []) (overrides : Overrides) :
    s.handle around (.generateWith query overrides) = (.ok [], s) := by
  rw [handle_generateWith, Engine.phrase_of_blank _ h]
  rfl

theorem handle_generate_of_blank (s : Server) (around : Surroundings) {query : Text}
    (h : query.trim = []) : s.handle around (.generate (some query)) = (.noQuery, s) :=
  serve_of_blank (c := ⟨around, .generate (some query)⟩) (by rintro q ⟨⟩; exact h)

/-- Asking for a query is posting it without forced texts, if the query is not blank. -/
theorem handle_generate_of_not_blank (s : Server) (around : Surroundings) {query : Text}
    (h : query.trim ≠ []) :
    s.handle around (.generate (some query)) = s.handle around (.generateWith query []) := by
  have hquery : query? (some query) = some query := by simp [query?, h]
  unfold handle
  dsimp only
  rw [hquery]

/-- **Posted and asked for**, a query is answered alike exactly if it is not blank, whatever the
server, its grammar and its random source, and the server after it is the same in any case. It may
be posted without forced texts, or with some that are never looked up. A blank query is refused when
it is asked for, and answered with an empty phrase when it is posted. -/
theorem posted_eq_asked_iff (s : Server) (around : Surroundings) (query : Text)
    {overrides : Overrides} (h : overrides.Inert) :
    (s.handle around (.generateWith query overrides)
        = s.handle around (.generate (some query)) ↔ query.trim ≠ []) ∧
    (s.handle around (.generateWith query overrides)).2
        = (s.handle around (.generate (some query))).2 ∧
    (query.trim = [] →
      s.handle around (.generate (some query)) = (.noQuery, s) ∧
        s.handle around (.generateWith query overrides) = (.ok [], s)) := by
  by_cases hblank : query.trim = []
  · have hasked := handle_generate_of_blank s around hblank
    have hposted := handle_generateWith_of_blank s around hblank overrides
    rw [hasked, hposted]
    refine ⟨⟨fun heq => ?_, fun hnot => absurd hblank hnot⟩, rfl, fun _ => ⟨rfl, rfl⟩⟩
    have hstatus : (200 : Nat) = 400 := congrArg (fun r : Response × Server => r.1.status) heq
    exact absurd hstatus (by decide)
  · have heq : s.handle around (.generateWith query overrides)
        = s.handle around (.generate (some query)) := by
      rw [handle_generate_of_not_blank s around hblank, handle_generateWith, handle_generateWith,
        Engine.phrase_of_agree s.engine query h.agree_nil]
    exact ⟨⟨fun _ => hblank, fun _ => heq⟩, congrArg Prod.snd heq, fun hnil => absurd hnil hblank⟩

/-! ### A blank query -/

/-- Asked for, a space is refused; posted, it has a phrase. -/
theorem space_posted_ne_asked :
    texts (ofFolderA.run [amongTwo (.generate (some [' '])), amongTwo (.generateWith [' '] [])]).1
      = [(400, "Missing or empty query"), (200, "")] ∧
    ¬ ∀ (s : Server) (around : Surroundings) (query : Text),
      s.handle around (.generateWith query []) = s.handle around (.generate (some query)) := by
  have htexts : texts (ofFolderA.run
        [amongTwo (.generate (some [' '])), amongTwo (.generateWith [' '] [])]).1
      = [(400, "Missing or empty query"), (200, "")] := by
    decide +kernel
  refine ⟨htexts, fun h => ?_⟩
  have hstatus := congrArg (fun r => r.1.status) (h ofFolderA (amongTwo .validate).around [' '])
  revert hstatus
  decide +kernel

/-- The query `[x/y]`, with a text for the key that is never looked up, and a blank query. -/
theorem ofFolderA_posted_eq_asked_iff :
    Overrides.Inert [(['x', '/', 'y'], ['z'])] ∧
    ofFolderA.handle (amongTwo .validate).around
        (.generateWith ['[', 'x', '/', 'y', ']'] [(['x', '/', 'y'], ['z'])])
      = ofFolderA.handle (amongTwo .validate).around
        (.generate (some ['[', 'x', '/', 'y', ']'])) ∧
    ofFolderA.handle (amongTwo .validate).around (.generate (some [' '])) = (.noQuery, ofFolderA) ∧
    ofFolderA.handle (amongTwo .validate).around (.generateWith [' '] [(['x', '/', 'y'], ['z'])])
      = (.ok [], ofFolderA) := by
  have hinert : Overrides.Inert [(['x', '/', 'y'], ['z'])] := by decide
  obtain ⟨hagree, -, -⟩ := posted_eq_asked_iff ofFolderA (amongTwo .validate).around
    ['[', 'x', '/', 'y', ']'] hinert
  obtain ⟨-, -, hblank⟩ :=
    posted_eq_asked_iff ofFolderA (amongTwo .validate).around [' '] hinert
  obtain ⟨hasked, hposted⟩ := hblank (by decide)
  exact ⟨hinert, hagree.mpr (by decide), hasked, hposted⟩

end Server

end PhraseGrammar
