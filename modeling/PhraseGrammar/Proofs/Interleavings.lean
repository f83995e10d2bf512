import PhraseGrammar.Proofs.Sessions
import Mathlib.Data.List.Nodup
import Mathlib.Logic.Function.Basic

set_option autoImplicit false

/-! # Overlapping calls

A call holds the server for a section at a time. A request that puts a grammar in place has two
sections: the first copies what it needs of the server, the second installs the engine that was
built in between without the server. Every other request has one. The sections of several calls
may follow one another in any order (`System.run`).

Such a schedule does what the calls do one after the other, in the order of their last sections
(`System.run_serial`), if no reload without a folder finds at its second section that another
folder was set since its first (`System.Undisturbed`). So it is if every reload gives its folder
(`System.undisturbed_of_given`), or none does (`System.Unmoved.undisturbed`). Without this condition
it need not: a reload of the present folder that is overtaken by a reload of another folder sets the
folder back, which it does in no order of the two (`System.not_serial_of_overtaken`).
-/

namespace PhraseGrammar

/-- How far a call has come. -/
inductive Stage where
  | waiting
  /-- The engine is built and not installed, with its folder if it comes from one. -/
  | built (engine : Engine Keystream) (root : Option Text)
  | answered (response : Response)

/-- The answer of a call that has been answered. -/
def Stage.answer? : Stage → Option Response
  | answered response => some response
  | _ => none

/-- The number of sections that a call has left at most. -/
def Stage.left : Stage → Nat
  | waiting => 2
  | built _ _ => 1
  | answered _ => 0

/-- A server with the calls that it is about to serve, each under a name of its own. -/
structure System (ι : Type) where
  server : Server
  stage : ι → Stage := fun _ => .waiting
  /-- The calls that have been answered, in the order of their last sections. -/
  finished : List ι := []

namespace System

variable {ι : Type} [DecidableEq ι]

/-! ## Sections -/

/-- The last section of a call ends with its answer, and leaves the given server. -/
def finish (y : System ι) (i : ι) (response : Response) (server : Server) : System ι where
  server
  stage := Function.update y.stage i (.answered response)
  finished := y.finished ++ [i]

@[simp] theorem finish_server (y : System ι) (i : ι) (response : Response) (server : Server) :
    (y.finish i response server).server = server := rfl

@[simp] theorem finish_finished (y : System ι) (i : ι) (response : Response) (server : Server) :
    (y.finish i response server).finished = y.finished ++ [i] := rfl

@[simp] theorem finish_stage_self (y : System ι) (i : ι) (response : Response)
    (server : Server) : (y.finish i response server).stage i = .answered response :=
  Function.update_self i _ y.stage

theorem finish_stage_of_ne (y : System ι) {i j : ι} (hj : j ≠ i) (response : Response)
    (server : Server) : (y.finish i response server).stage j = y.stage j :=
  Function.update_of_ne hj _ y.stage

/-- The first section of a call whose engine could be built. -/
def build (y : System ι) (i : ι) (engine : Engine Keystream) (root : Option Text) : System ι :=
  { y with stage := Function.update y.stage i (.built engine root) }

@[simp] theorem build_finished (y : System ι) (i : ι) (engine : Engine Keystream)
    (root : Option Text) : (y.build i engine root).finished = y.finished := rfl

theorem build_stage_self (y : System ι) (i : ι) (engine : Engine Keystream)
    (root : Option Text) : (y.build i engine root).stage i = .built engine root :=
  Function.update_self i _ y.stage

theorem build_stage_of_ne (y : System ι) {i j : ι} (hj : j ≠ i) (engine : Engine Keystream)
    (root : Option Text) : (y.build i engine root).stage j = y.stage j :=
  Function.update_of_ne hj _ y.stage

/-- An engine that waits after a last section has waited before it. -/
theorem built_of_finish {y : System ι} {i j : ι} {response : Response} {server : Server}
    {engine : Engine Keystream} {root : Option Text}
    (h : (y.finish i response server).stage j = .built engine root) :
    y.stage j = .built engine root := by
  have hne : j ≠ i := by
    rintro rfl
    simp at h
  rwa [finish_stage_of_ne y hne] at h

/-- An engine that waits after a first section has waited before it, or is the one just built. -/
theorem built_of_build {y : System ι} {i j : ι} {engine engine' : Engine Keystream}
    {root root' : Option Text} (h : (y.build i engine root).stage j = .built engine' root') :
    (j = i ∧ engine' = engine ∧ root' = root) ∨ y.stage j = .built engine' root' := by
  by_cases hj : j = i
  · subst hj
    rw [build_stage_self, Stage.built.injEq] at h
    exact .inl ⟨rfl, h.1.symm, h.2.symm⟩
  · rw [build_stage_of_ne y hj] at h
    exact .inr h

/-- **The next section of a call.** What is built between two sections depends on nothing but
what the first one has copied, and a grammar that cannot be built is answered without a second
section. A call that has been answered has no section left. -/
def step (calls : ι → Call) (y : System ι) (i : ι) : System ι :=
  match y.stage i with
  | .waiting =>
    match y.server.building (calls i) with
    | some (.ok engine, root) => y.build i engine root
    | some (.error e, _) => y.finish i (.ofError e) y.server
    | none => y.finish i (y.server.serve (calls i)).1 (y.server.serve (calls i)).2
  | .built engine root => y.finish i (.loaded engine) (y.server.install engine root)
  | .answered _ => y

/-- The sections of a schedule, which names for each the call whose section it is. -/
def run (calls : ι → Call) (y : System ι) (schedule : List ι) : System ι :=
  schedule.foldl (step calls) y

variable {calls : ι → Call} {s : Server} {y : System ι} {i : ι}

theorem step_stage_of_ne {j : ι} (hj : j ≠ i) : (y.step calls i).stage j = y.stage j := by
  unfold step
  split
  · split
    · exact build_stage_of_ne y hj _ _
    · exact finish_stage_of_ne y hj _ _
    · exact finish_stage_of_ne y hj _ _
  · exact finish_stage_of_ne y hj _ _
  · rfl

theorem left_step (calls : ι → Call) (y : System ι) (i : ι) :
    ((y.step calls i).stage i).left ≤ (y.stage i).left - 1 := by
  unfold step
  split
  · next hstage =>
      rw [hstage]
      split <;> simp [build_stage_self, Stage.left]
  · simp [Stage.left]
  · next hstage => simp [hstage, Stage.left]

/-- Two sections are enough for every call. -/
theorem left_run (calls : ι → Call) (y : System ι) (i : ι) (schedule : List ι) :
    ((y.run calls schedule).stage i).left ≤ (y.stage i).left - schedule.count i := by
  induction schedule generalizing y with
  | nil => simp [run]
  | cons j schedule ih =>
      have hrest := ih (y.step calls j)
      change ((y.run calls (j :: schedule)).stage i).left ≤ _ at hrest
      by_cases hj : j = i
      · subst hj
        have hfirst := left_step calls y j
        rw [List.count_cons_self]
        omega
      · rw [step_stage_of_ne (Ne.symm hj)] at hrest
        rwa [List.count_cons_of_ne hj]

/-! ## Schedules that do what a session does -/

/-- **A session that does the same**: the calls that have been answered, one after the other in
the given order, each with the same answer, and the same server at the end. -/
structure Serial (calls : ι → Call) (s : Server) (y : System ι) (order : List ι) : Prop where
  nodup : order.Nodup
  mem_iff (i : ι) : i ∈ order ↔ ∃ response, y.stage i = .answered response
  answers : (s.run (order.map calls)).1.map some = order.map fun i => (y.stage i).answer?
  server : (s.run (order.map calls)).2 = y.server

/-- A reload without a folder that is about to install the folder it has copied finds that it is
still the folder of the server. -/
def Current (calls : ι → Call) (y : System ι) (i : ι) : Prop :=
  ∀ engine root, y.stage i = .built engine (some root) → (calls i).request = .reload none →
    root = y.server.root

/-- No reload without a folder installs a folder that it has copied before another one was set. -/
def Undisturbed (calls : ι → Call) : System ι → List ι → Prop
  | _, [] => True
  | y, i :: schedule => y.Current calls i ∧ Undisturbed calls (y.step calls i) schedule

/-- Reloads that all give their folder disturb nothing. -/
theorem undisturbed_of_given {calls : ι → Call} (h : ∀ i, (calls i).request ≠ .reload none)
    (y : System ι) (schedule : List ι) : y.Undisturbed calls schedule := by
  induction schedule generalizing y with
  | nil => trivial
  | cons i schedule ih => exact ⟨fun _ _ _ hnone => absurd hnone (h i), ih _⟩

/-- Every folder that goes with an engine is still the folder of the server. -/
def Unmoved (y : System ι) : Prop :=
  ∀ i engine root, y.stage i = .built engine (some root) → root = y.server.root

theorem Unmoved.finish (h : y.Unmoved) (i : ι) (response : Response) {server : Server}
    (hroot : server.root = y.server.root) : (y.finish i response server).Unmoved := by
  intro j engine root hj
  exact (h j engine root (built_of_finish hj)).trans hroot.symm

theorem Unmoved.step (h : y.Unmoved) (hc : ∀ root, (calls i).request ≠ .reload (some root)) :
    (y.step calls i).Unmoved := by
  unfold System.step
  split
  · split
    · next engine root hb =>
        intro j engine' root' hj
        rcases built_of_build hj with ⟨-, rfl, rfl⟩ | hold
        · exact Server.root_of_building hc hb
        · exact h j engine' root' hold
    · exact h.finish i _ rfl
    · next hb =>
        have hputs : (calls i).request.puts = false := by
          rw [← Server.isSome_building y.server, hb]
          rfl
        obtain ⟨source, hserve⟩ := Server.serve_of_not_puts (s := y.server) hputs
        exact h.finish i _ (by rw [hserve])
  · next engine root hstage =>
      refine h.finish i _ ?_
      cases root with
      | none => rfl
      | some root => exact h i engine root hstage
  · exact h

/-- Reloads that all leave the folder open disturb nothing. -/
theorem Unmoved.undisturbed (h : y.Unmoved)
    (hc : ∀ i root, (calls i).request ≠ .reload (some root)) (schedule : List ι) :
    y.Undisturbed calls schedule := by
  induction schedule generalizing y with
  | nil => trivial
  | cons i schedule ih => exact ⟨fun engine root hi _ => h i engine root hi, ih (h.step (hc i))⟩

/-- What holds after any undisturbed schedule. An engine that is built and not installed is the
one that a server with the same settings would build for the call. -/
structure Agrees (calls : ι → Call) (s : Server) (y : System ι) : Prop where
  serial : y.Serial calls s y.finished
  built (i : ι) (engine : Engine Keystream) (root : Option Text) :
    y.stage i = .built engine root → ∃ t : Server, t.settings = y.server.settings ∧
      t.building (calls i) = some (.ok engine, root)

/-- The last section of a call does all that the call does to the server that it finds. -/
theorem Agrees.finish (h : y.Agrees calls s) (hi : i ∉ y.finished) {response : Response}
    {server : Server} (hserve : y.server.serve (calls i) = (response, server)) :
    (y.finish i response server).Agrees calls s := by
  have hrun : s.run ((y.finished ++ [i]).map calls)
      = ((s.run (y.finished.map calls)).1 ++ [response], server) := by
    rw [List.map_append, Server.run_append, h.serial.server]
    simp [Server.run_cons, hserve]
  constructor
  · constructor
    · simpa using h.serial.nodup.concat hi
    · intro j
      rw [finish_finished, List.mem_append, List.mem_singleton, h.serial.mem_iff]
      by_cases hj : j = i
      · simp [hj]
      · simp [hj, finish_stage_of_ne]
    · have hold : (y.finished.map fun j => ((y.finish i response server).stage j).answer?)
          = y.finished.map fun j => (y.stage j).answer? := by
        refine List.map_congr_left fun j hj => ?_
        have hne : j ≠ i := fun hji => hi (hji ▸ hj)
        rw [finish_stage_of_ne y hne]
      rw [finish_finished, hrun, List.map_append, List.map_append, h.serial.answers, hold]
      simp [Stage.answer?]
    · rw [finish_finished, hrun, finish_server]
  · intro j engine root hj
    obtain ⟨t, hsettings, hb⟩ := h.built j engine root (built_of_finish hj)
    have hkept := Server.serve_settings y.server (calls i)
    rw [hserve] at hkept
    exact ⟨t, hsettings.trans hkept.symm, hb⟩

/-- The first section of a call that builds an engine does nothing yet. -/
theorem Agrees.build (h : y.Agrees calls s) (hi : i ∉ y.finished) {engine : Engine Keystream}
    {root : Option Text} (hb : y.server.building (calls i) = some (.ok engine, root)) :
    (y.build i engine root).Agrees calls s := by
  constructor
  · constructor
    · exact h.serial.nodup
    · intro j
      by_cases hj : j = i
      · subst hj
        simpa [build_stage_self] using hi
      · rw [build_stage_of_ne y hj]
        exact h.serial.mem_iff j
    · refine h.serial.answers.trans (List.map_congr_left fun j hj => ?_)
      have hne : j ≠ i := fun hji => hi (hji ▸ hj)
      rw [build_stage_of_ne y hne]
    · exact h.serial.server
  · intro j engine' root' hj
    rcases built_of_build hj with ⟨rfl, rfl, rfl⟩ | hold
    · exact ⟨y.server, rfl, hb⟩
    · exact h.built j engine' root' hold

/-- One section keeps the agreement. -/
theorem Agrees.step (h : y.Agrees calls s) (hi : y.Current calls i) :
    (y.step calls i).Agrees calls s := by
  have hmem := h.serial.mem_iff i
  cases hstage : y.stage i with
  | answered response =>
      simp only [System.step, hstage]
      exact h
  | built engine root =>
      have hfree : i ∉ y.finished := by simp [hmem, hstage]
      -- the server that was copied builds what the present one would build
      obtain ⟨t, hsettings, hb⟩ := h.built i engine root hstage
      have hroot : (calls i).request = .reload none → t.root = y.server.root := by
        intro hnone
        rw [Server.building_of_reload hnone, Option.some.injEq, Prod.mk.injEq] at hb
        exact hi engine t.root (by rw [hstage, ← hb.2]; rfl) hnone
      rw [Server.building_congr hsettings hroot] at hb
      simp only [System.step, hstage]
      exact h.finish hfree (Server.serve_of_building hb)
  | waiting =>
      have hfree : i ∉ y.finished := by simp [hmem, hstage]
      cases hb : y.server.building (calls i) with
      | none =>
          simp only [System.step, hstage, hb]
          exact h.finish hfree rfl
      | some found =>
          obtain ⟨outcome, root⟩ := found
          cases outcome with
          | error e =>
              simp only [System.step, hstage, hb]
              exact h.finish hfree (Server.serve_of_building hb)
          | ok engine =>
              simp only [System.step, hstage, hb]
              exact h.build hfree hb

theorem Agrees.run (h : y.Agrees calls s) {schedule : List ι}
    (hu : y.Undisturbed calls schedule) : (y.run calls schedule).Agrees calls s := by
  induction schedule generalizing y with
  | nil => exact h
  | cons i schedule ih => exact ih (h.step hu.1) hu.2

omit [DecidableEq ι] in
theorem Agrees.mem_finished (h : y.Agrees calls s) (hleft : (y.stage i).left = 0) :
    i ∈ y.finished := by
  rw [h.serial.mem_iff]
  cases hstage : y.stage i with
  | answered response => exact ⟨response, rfl⟩
  | waiting => simp [hstage, Stage.left] at hleft
  | built engine root => simp [hstage, Stage.left] at hleft

omit [DecidableEq ι] in
/-- A call that puts no grammar in place never has an engine that waits, so its first section is
its last one. -/
theorem Agrees.mem_finished_of_not_puts (h : y.Agrees calls s)
    (hputs : (calls i).request.puts = false) (hleft : (y.stage i).left ≤ 1) :
    i ∈ y.finished := by
  apply h.mem_finished
  cases hstage : y.stage i with
  | answered response => rfl
  | waiting => simp [hstage, Stage.left] at hleft
  | built engine root =>
      obtain ⟨t, -, hb⟩ := h.built i engine root hstage
      have hnone := Server.isSome_building t (calls i)
      rw [hb, hputs] at hnone
      cases hnone

/-- **Overlapping calls as a session.** Whatever schedule the sections of the calls follow, the
calls that have been answered do the same one after the other, in the order of their last
sections, if no reload without a folder installs a folder that it has copied before another one
was set. A call with two sections in the schedule has been answered, and so has one that stands in
it at all and does not ask for a grammar to be put in place. -/
theorem run_serial (calls : ι → Call) (s : Server) (schedule : List ι)
    (hu : Undisturbed calls { server := s } schedule) :
    (run calls { server := s } schedule).Serial calls s
        (run calls { server := s } schedule).finished ∧
      (∀ i, 2 ≤ schedule.count i → i ∈ (run calls { server := s } schedule).finished) ∧
      ∀ i, i ∈ schedule → (calls i).request.puts = false →
        i ∈ (run calls { server := s } schedule).finished := by
  have hstart : Agrees calls s ({ server := s } : System ι) := by
    refine ⟨⟨List.nodup_nil, fun i => ?_, rfl, rfl⟩, fun i engine root hi => ?_⟩
    · simp
    · cases hi
  have hend := hstart.run hu
  have hleft : ∀ i, ((run calls { server := s } schedule).stage i).left ≤ 2 - schedule.count i :=
    fun i => left_run calls { server := s } i schedule
  refine ⟨hend.serial, fun i hi => ?_, fun i hi hputs => ?_⟩
  · have hnone := hleft i
    exact hend.mem_finished (by omega)
  · have hone := List.one_le_count_iff.mpr hi
    have hlast := hleft i
    exact hend.mem_finished_of_not_puts hputs (by omega)

/-! ## Overtaking -/

theorem serve_root_of_present {c : Call} (hc : c.request = .reload none) :
    (s.serve c).2.root = s.root := by
  by_cases hok : s.Succeeds c
  · obtain ⟨engine, -, hserve⟩ := (Server.obeys s c).reloaded none hc hok.2
    rw [hserve]
    rfl
  · exact (Server.serve_grammar_of_not_succeeds hok).2

theorem serve_root_of_given {c : Call} {root : Text} (hc : c.request = .reload (some root))
    (hok : s.Succeeds c) :
    (s.serve c).2.root = Path.folder c.around.workingFolder root := by
  obtain ⟨engine, -, hserve⟩ := (Server.obeys s c).reloaded (some root) hc hok.2
  rw [hserve]
  rfl

/-- Two calls, a reload of the present folder first. -/
def reloads (present other : Call) : Bool → Call
  | false => present
  | true => other

/-- Both sections of a request that puts a grammar in place come between those of a reload of the
present folder. Both are answered, and the present folder is back. -/
theorem run_overtaken {present other : Call} (hpresent : present.request = .reload none)
    (hp : s.Succeeds present) (ho : s.Succeeds other) :
    let y := run (reloads present other) { server := s } [false, true, true, false]
    y.server.root = s.root ∧ ∀ i, ∃ response, y.stage i = .answered response := by
  obtain ⟨engine, root', hb⟩ := Server.succeeds_iff.mp hp
  obtain ⟨engine', root'', hb'⟩ := Server.succeeds_iff.mp ho
  have hroot := hb
  rw [Server.building_of_reload hpresent, Option.some.injEq, Prod.mk.injEq] at hroot
  obtain ⟨-, rfl⟩ := hroot
  simp [run, step, build, finish, reloads, hb, hb', Server.install]

/-- **An overtaken reload.** A reload of the present folder that is overtaken by a reload of
another folder sets the folder back. In no order of the two does that happen. -/
theorem not_serial_of_overtaken {present given : Call} {root : Text}
    (hpresent : present.request = .reload none) (hgiven : given.request = .reload (some root))
    (hp : s.Succeeds present) (hg : s.Succeeds given)
    (hother : Path.folder given.around.workingFolder root ≠ s.root) (order : List Bool) :
    ¬ (run (reloads present given) { server := s } [false, true, true, false]).Serial
      (reloads present given) s order := by
  intro h
  obtain ⟨hback, hall⟩ := run_overtaken hpresent hp hg
  rw [← h.server] at hback
  have hperm : order.Perm [false, true] :=
    (List.perm_ext_iff_of_nodup h.nodup (by decide)).mpr fun i => by simp [h.mem_iff, hall]
  obtain ⟨i, j, rfl⟩ := List.length_eq_two.mp hperm.length_eq
  have hij : i ≠ j := by simpa using h.nodup
  cases i with
  | false =>
      -- the given folder comes last
      obtain rfl : j = true := by simpa using hij.symm
      have hlast := Server.serve_of_given (Server.serve_settings s present).symm hgiven hg
      simp only [List.map_cons, List.map_nil, reloads, Server.run_cons, Server.run_nil,
        ← hlast, serve_root_of_given hgiven hg] at hback
      exact hother hback
  | true =>
      -- the present folder is the given one by then
      obtain rfl : j = false := by simpa using hij.symm
      simp only [List.map_cons, List.map_nil, reloads, Server.run_cons, Server.run_nil,
        serve_root_of_present hpresent, serve_root_of_given hgiven hg] at hback
      exact hother hback

/-! ### Overlapping reloads of two folders -/

open Server in
/-- A reload of the present folder that a mapping overtakes comes after it. -/
theorem ofFolderA_run_serial :
    Undisturbed (reloads (amongTwo (.reload none)) (amongTwo (.replace [])))
        { server := ofFolderA } [false, true, true, false] ∧
      ((run (reloads (amongTwo (.reload none)) (amongTwo (.replace [])))
        { server := ofFolderA } [false, true, true, false]).Serial
        (reloads (amongTwo (.reload none)) (amongTwo (.replace []))) ofFolderA [true, false]) := by
  have hu : Undisturbed (reloads (amongTwo (.reload none)) (amongTwo (.replace [])))
      { server := ofFolderA } [false, true, true, false] := by
    refine Unmoved.undisturbed (fun i engine root hi => by cases hi) (fun i root => ?_) _
    cases i <;> simp [reloads, amongTwo]
  exact ⟨hu, (run_serial _ ofFolderA _ hu).1⟩

open Server in
/-- A reload of the present folder `A` that a reload of the folder `B` overtakes. Both succeed,
with the same seed, and no order of the two does what they do. -/
theorem twoFolders_not_serial :
    ofFolderA.settings.seed = some 7 ∧
    ofFolderA.Succeeds (amongTwo (.reload none)) ∧
    ofFolderA.Succeeds (amongTwo (.reload (some ['B']))) ∧
    ¬ ∃ order,
      (run (reloads (amongTwo (.reload none)) (amongTwo (.reload (some ['B']))))
        { server := ofFolderA } [false, true, true, false]).Serial
        (reloads (amongTwo (.reload none)) (amongTwo (.reload (some ['B'])))) ofFolderA order := by
  have hp : ofFolderA.Succeeds (amongTwo (.reload none)) := ⟨rfl, by decide +kernel⟩
  have hg : ofFolderA.Succeeds (amongTwo (.reload (some ['B']))) := ⟨rfl, by decide +kernel⟩
  refine ⟨by decide, hp, hg, fun ⟨order, h⟩ => ?_⟩
  exact not_serial_of_overtaken rfl rfl hp hg (by decide) order h

end System

end PhraseGrammar
