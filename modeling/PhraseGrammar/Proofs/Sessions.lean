import PhraseGrammar.Server.Basic
import Mathlib.Data.List.Basic
import Mathlib.Tactic.MkIffOfInductiveProp

set_option autoImplicit false

/-! # Sessions of the server

A session is a list of calls, each of them a request with what the server finds around it, so
that the files may change from one call to the next. What a call does to the server is stated in
one place, by the kinds of requests (`Server.Obeys`). From this follows where the grammar that is
served comes from (`Server.ServesLast`), and what a request that puts another grammar in place
leaves of the session before it (`Server.Forgets`).

The folder of the server is what it leaves: a mapping comes from no folder and the folder stays,
so that a later reload without a folder reads the one that was set before the mapping
(`Server.twoFolders_recalled`).
-/

namespace PhraseGrammar

/-! ## Calls -/

/-- A request that puts another grammar in place if it succeeds. -/
def Request.puts : Request → Bool
  | .reload _ | .replace _ => true
  | _ => false

/-- A request for a query, without a query or with a blank one. -/
def Request.Blank : Request → Prop
  | .generate query | .count query => ∀ q ∈ query, q.trim = []
  | _ => False

/-- A request with what the server finds around it. -/
structure Call where
  around : Surroundings
  request : Request

/-- The same request among the same files. The fresh keys may differ. -/
structure Call.SameFiles (c c' : Call) : Prop where
  request : c.request = c'.request
  read : c.around.read = c'.around.read
  workingFolder : c.around.workingFolder = c'.around.workingFolder

namespace Engine

/-- With a seed the fresh key is of no account. -/
theorem create_of_seed {settings : EngineSettings} (h : settings.seed.isSome)
    (fresh fresh' : Vector UInt32 8) : create settings fresh = create settings fresh' := by
  obtain ⟨seed, hseed⟩ := Option.isSome_iff_exists.mp h
  simp only [create, startOf, hseed]

theorem ofMapping_eq_ok {settings : EngineSettings} {fresh : Vector UInt32 8} {m : Mapping}
    {e : Engine Keystream} :
    ofMapping settings fresh m = .ok e
      ↔ (create settings fresh).loadMapping m = (.ok (), e) := by
  unfold ofMapping
  dsimp only
  rcases (create settings fresh).loadMapping m with ⟨outcome | outcome, built⟩ <;>
    simp [Except.map]

theorem ofFolder_eq_ok {settings : EngineSettings} {fresh : Vector UInt32 8} {read : Reader}
    {root : Text} {e : Engine Keystream} :
    ofFolder settings fresh read root = .ok e
      ↔ (create settings fresh).loadFolder read root = (.ok (), e) := by
  unfold ofFolder
  dsimp only
  rcases (create settings fresh).loadFolder read root with ⟨outcome | outcome, built⟩ <;>
    simp [Except.map]

/-- A load leaves the extended grammar, whether validation follows or not. -/
theorem load_grammar (e : Engine Keystream) (extended : Grammar.Extended) :
    (e.load extended).2.grammar = extended.grammar := by
  unfold load
  dsimp only
  split
  · rfl
  · split
    · split
      · next h => rw [← congrArg (fun r => r.2.grammar) h]; rfl
      · next h => rw [← congrArg (fun r => r.2.grammar) h]; rfl
    · rfl

end Engine

namespace Server

/-- The answer to a call, and the server after it. -/
def serve (s : Server) (c : Call) : Response × Server := s.handle c.around c.request

/-- The answers to a list of calls, and the server after them. -/
def run (s : Server) : List Call → List Response × Server
  | [] => ([], s)
  | c :: calls =>
    let (answer, s) := s.serve c
    let (answers, s) := s.run calls
    (answer :: answers, s)

@[simp] theorem run_nil (s : Server) : s.run [] = ([], s) := rfl

theorem run_cons (s : Server) (c : Call) (calls : List Call) :
    s.run (c :: calls)
      = ((s.serve c).1 :: ((s.serve c).2.run calls).1, ((s.serve c).2.run calls).2) := rfl

theorem run_append (s : Server) (before later : List Call) :
    s.run (before ++ later)
      = ((s.run before).1 ++ ((s.run before).2.run later).1, ((s.run before).2.run later).2) := by
  induction before generalizing s with
  | nil => rfl
  | cons c before ih => rw [List.cons_append, run_cons, ih, run_cons, List.cons_append]

/-! ## What a request builds -/

/-- What a request that puts a grammar in place builds before it touches the server: the engine,
and the folder of its grammar if it comes from one. -/
def building (s : Server) (c : Call) :
    Option (Except EngineError (Engine Keystream) × Option Text) :=
  match c.request with
  | .reload root =>
    let (root, settings) := s.reloadPlan c.around root
    some (Engine.ofFolder settings c.around.freshKey c.around.read root, some root)
  | .replace mapping =>
    some (Engine.ofMapping s.settings c.around.freshKey mapping, none)
  | _ => none

variable {s t : Server} {c c' : Call} {calls : List Call}

theorem serve_of_building {built : Except EngineError (Engine Keystream)} {root : Option Text}
    (h : s.building c = some (built, root)) : s.serve c = s.conclude built root := by
  obtain ⟨around, request⟩ := c
  cases request <;> simp only [building, Option.some.injEq, Prod.mk.injEq, reduceCtorEq] at h
  all_goals
    obtain ⟨rfl, rfl⟩ := h
    rfl

theorem isSome_building (s : Server) (c : Call) :
    (s.building c).isSome = c.request.puts := by
  obtain ⟨around, request⟩ := c
  cases request <;> rfl

theorem exists_building (s : Server) (hputs : c.request.puts) :
    ∃ built root, s.building c = some (built, root) := by
  obtain ⟨⟨built, root⟩, hb⟩ := Option.isSome_iff_exists.mp ((isSome_building s c).trans hputs)
  exact ⟨built, root, hb⟩

/-- The other requests leave the server as it is, but for the random source. -/
theorem serve_of_not_puts (h : c.request.puts = false) :
    ∃ source, (s.serve c).2 = { s with engine := { s.engine with source } } := by
  obtain ⟨around, request⟩ := c
  cases request with
  | generate query =>
      unfold serve handle
      dsimp only
      split
      · exact ⟨s.engine.source, rfl⟩
      · exact ⟨_, rfl⟩
  | generateWith query overrides => exact ⟨_, rfl⟩
  | count query =>
      unfold serve handle
      dsimp only
      split
      · exact ⟨s.engine.source, rfl⟩
      · exact ⟨_, rfl⟩
  | validate => exact ⟨_, rfl⟩
  | categories => exact ⟨s.engine.source, rfl⟩
  | grammar => exact ⟨s.engine.source, rfl⟩
  | reload root => simp [Request.puts] at h
  | replace mapping => simp [Request.puts] at h

theorem query?_eq_none {query : Option Text} (h : ∀ q ∈ query, q.trim = []) :
    query? query = none := by
  cases query with
  | none => rfl
  | some q =>
      have hq : q.trim = [] := h q rfl
      simp [query?, hq]

theorem serve_of_blank (h : c.request.Blank) : s.serve c = (.noQuery, s) := by
  obtain ⟨around, request⟩ := c
  cases request <;> simp only [Request.Blank] at h
  all_goals simp only [serve, handle, query?_eq_none h]

theorem ofError_status_ne (e : EngineError) : (Response.ofError e).status ≠ 200 := by
  unfold Response.ofError Response.statusOf
  dsimp only
  split
  · decide
  · decide
  · split <;> decide

/-- Without a reload of a given folder, a folder that goes with an engine is the present one. -/
theorem root_of_building {built : Except EngineError (Engine Keystream)} {root : Text}
    (hc : ∀ root, c.request ≠ .reload (some root)) (hb : s.building c = some (built, some root)) :
    root = s.root := by
  obtain ⟨around, request⟩ := c
  cases request <;> simp only [building, reduceCtorEq, Option.some.injEq, Prod.mk.injEq] at hb
  · next present =>
      cases present with
      | none => exact hb.2.symm
      | some root' => exact absurd rfl (hc root')
  · exact hb.2.elim

/-! ## What a call does -/

/-- A request that puts a grammar in place, and is answered with success. -/
def Succeeds (s : Server) (c : Call) : Prop := c.request.puts ∧ (s.serve c).1.status = 200

/-- Success is that the engine could be built. -/
theorem succeeds_iff : s.Succeeds c ↔ ∃ engine root, s.building c = some (.ok engine, root) := by
  have hsome := isSome_building s c
  cases hb : s.building c with
  | none =>
      rw [hb] at hsome
      simp [Succeeds, ← hsome]
  | some found =>
      obtain ⟨built, root⟩ := found
      rw [hb] at hsome
      rw [Succeeds, serve_of_building hb, ← hsome]
      cases built with
      | ok engine => simp [conclude, Response.loaded, Response.ok]
      | error e => simp [conclude, ofError_status_ne e]

/-- **What a call does to the server**, by the kind of its request. -/
structure Obeys (s : Server) (c : Call) : Prop where
  /-- The settings stay. -/
  settings : (s.serve c).2.settings = s.settings
  /-- A grammar that is refused leaves everything as it was. -/
  refused : c.request.puts → (s.serve c).1.status ≠ 200 → (s.serve c).2 = s
  /-- A mapping comes with a new engine, and the folder stays. -/
  replaced (mapping : Mapping) : c.request = .replace mapping → (s.serve c).1.status = 200 →
    ∃ engine,
      (Engine.create s.settings c.around.freshKey).loadMapping mapping = (.ok (), engine) ∧
      (s.serve c).2 = { s with engine }
  /-- A folder comes with a new engine, and is the folder of the server from then on. -/
  reloaded (root : Option Text) : c.request = .reload root → (s.serve c).1.status = 200 →
    let folder := (root.map (Path.folder c.around.workingFolder)).getD s.root
    ∃ engine,
      (Engine.create s.settings c.around.freshKey).loadFolder c.around.read folder
          = (.ok (), engine) ∧
        (s.serve c).2 = { s with engine, root := folder }
  /-- The other requests leave everything as it was but the random source. -/
  asked : c.request.puts = false →
    ∃ source, (s.serve c).2 = { s with engine := { s.engine with source } }
  /-- Without a query the random source stays too. -/
  blank : c.request.Blank → (s.serve c).2 = s

theorem serve_settings (s : Server) (c : Call) : (s.serve c).2.settings = s.settings := by
  cases hputs : c.request.puts with
  | false =>
      obtain ⟨source, h⟩ := serve_of_not_puts (s := s) hputs
      rw [h]
  | true =>
      obtain ⟨built, root, hb⟩ := exists_building s hputs
      rw [serve_of_building hb]
      cases built <;> rfl

/-- A request that could not build its engine changes nothing. -/
theorem serve_of_not_succeeds (hputs : c.request.puts) (h : ¬ s.Succeeds c) :
    (s.serve c).2 = s := by
  obtain ⟨built, root, hb⟩ := exists_building s hputs
  cases built with
  | ok engine => exact absurd (succeeds_iff.mpr ⟨engine, root, hb⟩) h
  | error e => rw [serve_of_building hb]; rfl

theorem building_of_replace {mapping : Mapping} (h : c.request = .replace mapping) :
    s.building c = some (Engine.ofMapping s.settings c.around.freshKey mapping, none) := by
  simp only [building, h]

theorem building_of_reload {root : Option Text} (h : c.request = .reload root) :
    s.building c = some (Engine.ofFolder s.settings c.around.freshKey c.around.read
        ((root.map (Path.folder c.around.workingFolder)).getD s.root),
      some ((root.map (Path.folder c.around.workingFolder)).getD s.root)) := by
  simp only [building, h, reloadPlan]

theorem obeys (s : Server) (c : Call) : s.Obeys c where
  settings := serve_settings s c
  refused hputs hstatus := serve_of_not_succeeds hputs fun h => hstatus h.2
  replaced mapping hreq hstatus := by
    obtain ⟨engine, root, hb⟩ := succeeds_iff.mp ⟨by rw [hreq]; rfl, hstatus⟩
    rw [building_of_replace hreq, Option.some.injEq, Prod.mk.injEq] at hb
    obtain ⟨hbuilt, rfl⟩ := hb
    refine ⟨engine, Engine.ofMapping_eq_ok.mp hbuilt, ?_⟩
    rw [serve_of_building (building_of_replace hreq), hbuilt]
    rfl
  reloaded root hreq hstatus := by
    obtain ⟨engine, root, hb⟩ := succeeds_iff.mp ⟨by rw [hreq]; rfl, hstatus⟩
    rw [building_of_reload hreq, Option.some.injEq, Prod.mk.injEq] at hb
    refine ⟨engine, Engine.ofFolder_eq_ok.mp hb.1, ?_⟩
    rw [serve_of_building (building_of_reload hreq), hb.1]
    rfl
  asked := serve_of_not_puts
  blank h := by rw [serve_of_blank h]

/-! ## The grammar that is served -/

/-- The grammar that a request puts in place if it succeeds: of its mapping, or of the folder it
reads. -/
def placed (s : Server) (c : Call) : Grammar :=
  match c.request with
  | .reload root => (({} : Grammar).addFolder c.around.read (s.reloadPlan c.around root).1).grammar
  | .replace mapping => (({} : Grammar).addMapping mapping).grammar
  | _ => s.engine.grammar

theorem placed_of_succeeds (h : s.Succeeds c) : (s.serve c).2.engine.grammar = s.placed c := by
  obtain ⟨hputs, hstatus⟩ := h
  cases hreq : c.request with
  | reload root =>
      obtain ⟨engine, hload, hserve⟩ := (obeys s c).reloaded root hreq hstatus
      have hgrammar := congrArg (fun r => r.2.grammar) hload
      simp only [Engine.loadFolder, Engine.load_grammar] at hgrammar
      rw [hserve]
      simp only [placed, hreq]
      exact hgrammar.symm
  | replace mapping =>
      obtain ⟨engine, hload, hserve⟩ := (obeys s c).replaced mapping hreq hstatus
      have hgrammar := congrArg (fun r => r.2.grammar) hload
      simp only [Engine.loadMapping, Engine.load_grammar] at hgrammar
      rw [hserve]
      simp only [placed, hreq]
      exact hgrammar.symm
  | _ => simp [Request.puts, hreq] at hputs

theorem serve_grammar_of_not_succeeds (h : ¬ s.Succeeds c) :
    (s.serve c).2.engine.grammar = s.engine.grammar ∧ (s.serve c).2.root = s.root := by
  cases hputs : c.request.puts with
  | false =>
      obtain ⟨source, hserve⟩ := serve_of_not_puts (s := s) hputs
      rw [hserve]
      exact ⟨rfl, rfl⟩
  | true =>
      rw [serve_of_not_succeeds hputs h]
      exact ⟨rfl, rfl⟩

/-- No call of a list puts a grammar in place. -/
def Quiet : Server → List Call → Prop
  | _, [] => True
  | s, c :: calls => ¬ s.Succeeds c ∧ Quiet (s.serve c).2 calls

theorem run_grammar_of_quiet (h : s.Quiet calls) :
    (s.run calls).2.engine.grammar = s.engine.grammar ∧ (s.run calls).2.root = s.root := by
  induction calls generalizing s with
  | nil => exact ⟨rfl, rfl⟩
  | cons c calls ih =>
      obtain ⟨hgrammar, hroot⟩ := ih h.2
      obtain ⟨hfirst, hfirstRoot⟩ := serve_grammar_of_not_succeeds h.1
      exact ⟨hgrammar.trans hfirst, hroot.trans hfirstRoot⟩

/-- **Where the grammar that is served comes from**: from the last request of the session that
put one in place, or from before the session if there is no such request. -/
def ServesLast (s : Server) (calls : List Call) : Prop :=
  (s.Quiet calls ∧ (s.run calls).2.engine.grammar = s.engine.grammar) ∨
    ∃ before c after, calls = before ++ c :: after ∧ (s.run before).2.Succeeds c ∧
      ((s.run before).2.serve c).2.Quiet after ∧
      (s.run calls).2.engine.grammar = (s.run before).2.placed c

theorem servesLast (s : Server) (calls : List Call) : s.ServesLast calls := by
  induction calls generalizing s with
  | nil => exact .inl ⟨trivial, rfl⟩
  | cons c calls ih =>
      rcases ih (s.serve c).2 with
        ⟨hquiet, hgrammar⟩ | ⟨before, last, after, rfl, hlast, hquiet, hg⟩
      · by_cases hc : s.Succeeds c
        · exact .inr ⟨[], c, calls, rfl, hc, hquiet, hgrammar.trans (placed_of_succeeds hc)⟩
        · exact .inl ⟨⟨hc, hquiet⟩, hgrammar.trans (serve_grammar_of_not_succeeds hc).1⟩
      · exact .inr ⟨c :: before, last, after, rfl, hlast, hquiet, hg⟩

/-! ## What is left of the session before -/

/-- With a seed, what a call does depends on the files it finds and not on the fresh key. -/
theorem serve_congr (hseed : s.settings.seed.isSome) (h : c.SameFiles c') :
    s.serve c = s.serve c' := by
  obtain ⟨⟨read, workingFolder, freshKey⟩, request⟩ := c
  obtain ⟨⟨read', workingFolder', freshKey'⟩, request'⟩ := c'
  obtain ⟨rfl, rfl, rfl⟩ := h
  have hfresh := Engine.create_of_seed hseed freshKey freshKey'
  cases request with
  | reload root =>
      simp only [serve, handle, reloadPlan, Engine.ofFolder, hfresh]
  | replace mapping => simp only [serve, handle, Engine.ofMapping, hfresh]
  | _ => rfl

theorem run_congr {later later' : List Call} (hseed : s.settings.seed.isSome)
    (h : later.Forall₂ Call.SameFiles later') : s.run later = s.run later' := by
  induction h generalizing s with
  | nil => rfl
  | cons hc _ ih =>
      have hnext := hseed
      rw [← serve_settings s _] at hnext
      rw [run_cons, run_cons, ih hnext, serve_congr hseed hc]

/-- Two servers with the same settings build the same, unless they are asked for the present
folder and it is not the same. -/
theorem building_congr (hsettings : s.settings = t.settings)
    (hroot : c.request = .reload none → s.root = t.root) : s.building c = t.building c := by
  obtain ⟨around, request⟩ := c
  cases request with
  | reload root =>
      cases root with
      | none => simp only [building, reloadPlan, hsettings, hroot rfl]
      | some root => simp only [building, reloadPlan, hsettings, Option.map_some, Option.getD_some]
  | replace mapping => simp only [building, hsettings]
  | _ => rfl

/-- The same engine and the same settings. The folders may differ. -/
@[mk_iff]
structure Alike (s t : Server) : Prop where
  engine : s.engine = t.engine
  settings : s.settings = t.settings

theorem Alike.serve (h : s.Alike t) (hc : c.request ≠ .reload none) :
    (s.serve c).1 = (t.serve c).1 ∧ (s.serve c).2.Alike (t.serve c).2 := by
  cases hb : s.building c with
  | some found =>
      obtain ⟨built, root⟩ := found
      have hb' := (building_congr h.settings fun hnone => absurd hnone hc).symm.trans hb
      rw [serve_of_building hb, serve_of_building hb']
      cases built with
      | ok engine => exact ⟨rfl, rfl, h.settings⟩
      | error e => exact ⟨rfl, h⟩
  | none =>
      have hputs : c.request.puts = false := by rw [← isSome_building s c, hb]; rfl
      obtain ⟨around, request⟩ := c
      obtain ⟨engine, root, settings⟩ := s
      obtain ⟨engine', root', settings'⟩ := t
      obtain ⟨rfl, rfl⟩ := h
      cases request with
      | generate query =>
          cases hq : query? query with
          | none => simp [Server.serve, handle, hq, alike_iff]
          | some q => simp [Server.serve, handle, hq, alike_iff]
      | count query =>
          cases hq : query? query with
          | none => simp [Server.serve, handle, hq, alike_iff]
          | some q => simp [Server.serve, handle, hq, alike_iff]
      | reload root => simp [Request.puts] at hputs
      | replace mapping => simp [Request.puts] at hputs
      | _ => exact ⟨rfl, rfl, rfl⟩

/-- No reload of a list reads the folder that is there when the list begins: a reload without a
folder comes only behind one that has put another folder in place. -/
def RootFree : Server → List Call → Prop
  | _, [] => True
  | s, c :: later =>
    c.request ≠ .reload none ∧
      (((∃ root, c.request = .reload (some root)) ∧ s.Succeeds c) ∨ RootFree (s.serve c).2 later)

/-- Where the one succeeds the other succeeds with the same engine. -/
theorem exists_built (hsettings : s.settings = t.settings)
    (hroot : c.request = .reload none → s.root = t.root) (hok : s.Succeeds c) :
    ∃ engine root, s.building c = some (.ok engine, root) ∧
      s.serve c = (.loaded engine, s.install engine root) ∧
      t.serve c = (.loaded engine, t.install engine root) := by
  obtain ⟨engine, root, hb⟩ := succeeds_iff.mp hok
  have hb' := (building_congr hsettings hroot).symm.trans hb
  exact ⟨engine, root, hb, serve_of_building hb, serve_of_building hb'⟩

/-- A given folder that was put in place leaves nothing of the server before but its settings. -/
theorem serve_of_given {root : Text} (hsettings : s.settings = t.settings)
    (hc : c.request = .reload (some root)) (hok : s.Succeeds c) : s.serve c = t.serve c := by
  obtain ⟨engine, root', hb, hs, ht⟩ :=
    exists_built hsettings (fun hnone => by simp [hc] at hnone) hok
  rw [building_of_reload hc, Option.some.injEq, Prod.mk.injEq] at hb
  obtain ⟨-, rfl⟩ := hb
  rw [hs, ht]
  simp [install, hsettings]

/-- A mapping that was put in place leaves the folder too. -/
theorem serve_of_replace {mapping : Mapping} (hsettings : s.settings = t.settings)
    (hc : c.request = .replace mapping) (hok : s.Succeeds c) :
    (s.serve c).1 = (t.serve c).1 ∧ (s.serve c).2.Alike (t.serve c).2 ∧
      (s.root = t.root → (s.serve c).2 = (t.serve c).2) := by
  obtain ⟨engine, root, -, hs, ht⟩ :=
    exists_built hsettings (fun hnone => by simp [hc] at hnone) hok
  rw [hs, ht]
  refine ⟨rfl, ⟨rfl, hsettings⟩, fun hroot => ?_⟩
  simp [install, hsettings, hroot]

theorem Alike.run {later : List Call} (h : s.Alike t) (hfree : s.RootFree later) :
    (s.run later).1 = (t.run later).1 ∧ (s.run later).2.Alike (t.run later).2 := by
  induction later generalizing s t with
  | nil => exact ⟨rfl, h⟩
  | cons c later ih =>
      obtain ⟨hc, ⟨⟨root, hroot⟩, hok⟩ | hrest⟩ := hfree
      · rw [run_cons, run_cons, serve_of_given h.settings hroot hok]
        exact ⟨rfl, rfl, rfl⟩
      · obtain ⟨hanswer, hnext⟩ := h.serve hc
        obtain ⟨hanswers, hlast⟩ := ih hnext hrest
        rw [run_cons, run_cons, hanswer, hanswers]
        exact ⟨rfl, hlast⟩

/-- **What a request that puts a grammar in place leaves of the session before it**, where two
servers go on with the same request and the same list of calls behind it. -/
structure Forgets (s t : Server) (c c' : Call) (later later' : List Call) : Prop where
  /-- A given folder leaves nothing. -/
  reloaded (root : Text) : c.request = .reload (some root) →
    s.run (c :: later) = t.run (c' :: later')
  /-- A mapping leaves nothing but the folder. -/
  replaced (mapping : Mapping) : c.request = .replace mapping → s.root = t.root →
    s.run (c :: later) = t.run (c' :: later')
  /-- The answers tell the folder only where a reload reads it. -/
  unread (mapping : Mapping) : c.request = .replace mapping → (s.serve c).2.RootFree later →
    (s.run (c :: later)).1 = (t.run (c' :: later')).1

theorem forgets {later later' : List Call} (hseed : s.settings.seed.isSome)
    (hsettings : s.settings = t.settings) (hsame : c.SameFiles c')
    (hlater : later.Forall₂ Call.SameFiles later') (hok : s.Succeeds c) :
    s.Forgets t c c' later later' := by
  -- the second server may as well find the same keys as the first one
  have hrun : t.run (c' :: later') = t.run (c :: later) :=
    (run_congr (hsettings ▸ hseed) (.cons hsame hlater)).symm
  constructor
  · intro root hc
    rw [hrun, run_cons, run_cons, serve_of_given hsettings hc hok]
  · intro mapping hc hroot
    obtain ⟨hanswer, -, hnext⟩ := serve_of_replace hsettings hc hok
    rw [hrun, run_cons, run_cons, hanswer, hnext hroot]
  · intro mapping hc hfree
    obtain ⟨hanswer, halike, -⟩ := serve_of_replace hsettings hc hok
    rw [hrun, run_cons, run_cons, hanswer, (halike.run hfree).1]

theorem run_settings (s : Server) (calls : List Call) : (s.run calls).2.settings = s.settings := by
  induction calls generalizing s with
  | nil => rfl
  | cons c calls ih => exact (ih _).trans (serve_settings s c)

/-- **The server over a whole session.** The settings never change, every call does what its kind
of request says, the grammar that is served is the one that was put in place last, and with a
seed what follows a mapping or a given folder that was put in place depends on no call before it,
but for the folder that a mapping keeps. -/
theorem session_spec (s : Server) (calls : List Call) :
    (s.run calls).2.settings = s.settings ∧
    (∀ before c after, calls = before ++ c :: after → (s.run before).2.Obeys c) ∧
    s.ServesLast calls ∧
    (s.settings.seed.isSome → ∀ calls' c c' later later', c.SameFiles c' →
      later.Forall₂ Call.SameFiles later' → (s.run calls).2.Succeeds c →
      (s.run calls).2.Forgets (s.run calls').2 c c' later later') := by
  refine ⟨run_settings s calls, fun before c after _ => obeys _ c, servesLast s calls, ?_⟩
  intro hseed calls' c c' later later' hsame hlater hok
  refine forgets ?_ ?_ hsame hlater hok
  · rwa [run_settings]
  · rw [run_settings, run_settings]

/-! ### Two folders -/

/-- The files of two grammar folders: `A` has one category and `B` has two. -/
def twoFolders : Reader := fun path =>
  if path = "A/index.grammar".toList then some (.ok "f".toUTF8)
  else if path = "A/f".toList then some (.ok "*a".toUTF8)
  else if path = "B/index.grammar".toList then some (.ok "f".toUTF8)
  else if path = "B/f".toList then some (.ok "*a\n*b".toUTF8)
  else none

/-- A request among the files of the two folders. -/
def amongTwo (request : Request) : Call where
  around := { read := twoFolders, workingFolder := ['/'], freshKey := .replicate 8 0 }
  request

/-- A server with a seed and the folder `A`. -/
def ofFolderA : Server :=
  let settings := { EngineSettings.default with seed := some 7 }
  { engine := .create settings (.replicate 8 0), root := ['A'], settings }

/-- The statuses and the texts of responses. -/
def texts (answers : List Response) : List (Nat × String) :=
  answers.map fun r => (r.status, String.ofList r.body.toText)

/-- Behind the same mapping, put in place with success, a reload without a folder answers
differently after a session that has set another folder. -/
theorem twoFolders_recalled :
    ofFolderA.settings.seed = some 7 ∧
    texts (ofFolderA.run [amongTwo (.replace []), amongTwo (.reload none)]).1
      = [(200, "Loaded 0 categories"), (200, "Loaded 1 categories")] ∧
    texts (ofFolderA.run [amongTwo (.reload (some ['B'])), amongTwo (.replace []),
        amongTwo (.reload none)]).1
      = [(200, "Loaded 2 categories"), (200, "Loaded 0 categories"),
        (200, "Loaded 2 categories")] := by
  exact ⟨by decide, by decide +kernel, by decide +kernel⟩

/-- A reload of the folder `B` forgets that there was another folder and another grammar. -/
theorem twoFolders_session_spec :
    (ofFolderA.settings.seed.isSome ∧
      (ofFolderA.run [amongTwo (.reload (some ['A'])), amongTwo (.replace [])]).2.Succeeds
        (amongTwo (.reload (some ['B'])))) ∧
    (ofFolderA.run [amongTwo (.reload (some ['A'])), amongTwo (.replace [])]).2.Forgets
      (ofFolderA.run []).2 (amongTwo (.reload (some ['B']))) (amongTwo (.reload (some ['B'])))
      [amongTwo (.reload none)] [amongTwo (.reload none)] := by
  have hok : (ofFolderA.run [amongTwo (.reload (some ['A'])), amongTwo (.replace [])]).2.Succeeds
      (amongTwo (.reload (some ['B']))) := ⟨rfl, by decide +kernel⟩
  refine ⟨⟨rfl, hok⟩, ?_⟩
  obtain ⟨-, -, -, hforgets⟩ :=
    session_spec ofFolderA [amongTwo (.reload (some ['A'])), amongTwo (.replace [])]
  exact hforgets rfl [] _ _ _ _ ⟨rfl, rfl, rfl⟩ (.cons ⟨rfl, rfl, rfl⟩ .nil) hok

end Server

end PhraseGrammar
