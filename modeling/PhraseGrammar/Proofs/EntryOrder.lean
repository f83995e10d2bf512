import PhraseGrammar.Proofs.Folders
import PhraseGrammar.Proofs.Sessions

set_option autoImplicit false

/-! # The order of entries

The entries of a mapping are added one by one, but their order shows only in a fault: where the
addition stops, and for which name. Whether there is a fault at all depends on the names alone
(`Grammar.addMapping_fault_eq_none_iff`). A mapping that is added is joined to the grammar, and
since a grammar keeps its categories in order, only one grammar can come of that
(`Grammar.Joins.unique`). So the entries leave the same grammar in every order
(`Grammar.addMapping_perm`). A server that puts a mapping in place therefore ends up the same, and
answers with the same status, whichever order the entries come in (`Server.replace_perm`).
-/

namespace PhraseGrammar

namespace Grammar

/-! ## Adding a mapping -/

/-- A mapping with trimmed names. -/
def trimmed (m : Mapping) : Mapping := m.map fun entry => (entry.1.trim, entry.2)

theorem addMapping_eq_addEach (g : Grammar) (m : Mapping) :
    g.addMapping m = g.addEach (attributedTo (some mappingOrigin) (trimmed m)) := by
  rw [addMapping_eq_addAll, ← addAll_map_congr Text.trim_trim, addAll_eq_addEach]
  rfl

theorem trim_attributedTo_trimmed (origin : Option Text) (m : Mapping) :
    ∀ entry ∈ attributedTo origin (trimmed m), entry.2.1.trim = entry.2.1 := by
  refine trim_attributedTo (fun entry hentry => ?_) origin
  obtain ⟨given, -, rfl⟩ := List.mem_map.mp hentry
  exact Text.trim_trim given.1

/-- **A mapping is added** exactly if its trimmed names are fresh. -/
theorem addMapping_fault_eq_none_iff {g : Grammar} {m : Mapping} :
    (g.addMapping m).fault = none ↔ Fresh g (trimmed m) := by
  rw [addMapping_eq_addEach, addEach_fault_eq_none_iff (trim_attributedTo_trimmed _ m),
    map_snd_attributedTo]

/-- A mapping that is added without a fault is joined to the grammar with trimmed names. -/
theorem joins_addMapping {g : Grammar} {m : Mapping} (h : (g.addMapping m).fault = none) :
    Joins g (trimmed m) (g.addMapping m).grammar := by
  have hfresh := addMapping_fault_eq_none_iff.mp h
  rw [← map_snd_attributedTo (some mappingOrigin) (trimmed m)] at hfresh
  obtain ⟨g', hg', hjoins⟩ := addEach_of_fresh hfresh (trim_attributedTo_trimmed _ m)
  rw [map_snd_attributedTo] at hjoins
  rw [addMapping_eq_addEach, hg']
  exact hjoins

theorem Fresh.perm {g : Grammar} {m m' : Mapping} (h : m.Perm m') (hfresh : Fresh g m) :
    Fresh g m' where
  named entry hentry := hfresh.named entry (h.mem_iff.mpr hentry)
  distinct := (h.map Prod.fst).nodup_iff.mp hfresh.distinct
  new entry hentry := hfresh.new entry (h.mem_iff.mpr hentry)

/-- **The order of the entries makes no difference** to a mapping that is added. -/
theorem addMapping_perm {g : Grammar} {m m' : Mapping} (h : m.Perm m')
    (hfresh : Fresh g (trimmed m)) : g.addMapping m = g.addMapping m' := by
  have hperm : (trimmed m).Perm (trimmed m') := h.map _
  have hnone := addMapping_fault_eq_none_iff.mpr hfresh
  have hnone' := addMapping_fault_eq_none_iff.mpr (hfresh.perm hperm)
  exact Extended.ext (Joins.unique hperm (joins_addMapping hnone) (joins_addMapping hnone'))
    (hnone.trans hnone'.symm)

end Grammar

/-! ## Putting a mapping in place -/

namespace Engine

/-- What is loaded into a new engine settles what is made of it. -/
theorem ofMapping_congr {settings : EngineSettings} {fresh fresh' : Vector UInt32 8}
    {m m' : Mapping} (hcreate : create settings fresh = create settings fresh')
    (h : Grammar.addMapping {} m = Grammar.addMapping {} m') :
    ofMapping settings fresh m = ofMapping settings fresh' m' := by
  have hload : (create settings fresh).loadMapping m
      = (create settings fresh').loadMapping m' := by
    rw [hcreate]
    exact congrArg (create settings fresh').load h
  unfold ofMapping
  rw [hload]

theorem ofMapping_of_fault {settings : EngineSettings} {fresh : Vector UInt32 8} {m : Mapping}
    {fault : GrammarError} (h : (Grammar.addMapping {} m).fault = some fault) :
    ofMapping settings fresh m = .error (.grammar fault) := by
  have hload : ((create settings fresh).loadMapping m).1 = .error (.grammar fault) := by
    show ((create settings fresh).load (Grammar.addMapping {} m)).1 = _
    unfold load
    rw [h]
  show Except.map _ ((create settings fresh).loadMapping m).1 = _
  rw [hload]
  rfl

end Engine

namespace Server

theorem handle_replace (s : Server) (around : Surroundings) (m : Mapping) :
    s.handle around (.replace m)
      = s.conclude (Engine.ofMapping s.settings around.freshKey m) none := rfl

/-- **A mapping put in place in another order**: the status is the same and so is the server
after it. -/
theorem replace_perm {s : Server} (hseed : s.settings.seed.isSome) {m m' : Mapping}
    (h : m.Perm m') (around around' : Surroundings) :
    (s.handle around (.replace m)).1.status = (s.handle around' (.replace m')).1.status ∧
      (s.handle around (.replace m)).2 = (s.handle around' (.replace m')).2 := by
  have hcreate := Engine.create_of_seed hseed around.freshKey around'.freshKey
  have hperm : (Grammar.trimmed m).Perm (Grammar.trimmed m') := h.map _
  by_cases hfresh : Grammar.Fresh {} (Grammar.trimmed m)
  · -- the loads are the same, and so is the validation behind them
    have hsame := Grammar.addMapping_perm h hfresh
    have hbuilt := Engine.ofMapping_congr hcreate hsame
    rw [handle_replace, handle_replace, hbuilt]
    exact ⟨rfl, rfl⟩
  · have hfresh' : ¬ Grammar.Fresh {} (Grammar.trimmed m') :=
      fun hf => hfresh (hf.perm hperm.symm)
    rw [← Grammar.addMapping_fault_eq_none_iff] at hfresh hfresh'
    obtain ⟨fault, hfault⟩ := Option.ne_none_iff_exists'.mp hfresh
    obtain ⟨fault', hfault'⟩ := Option.ne_none_iff_exists'.mp hfresh'
    rw [handle_replace, handle_replace, Engine.ofMapping_of_fault hfault,
      Engine.ofMapping_of_fault hfault']
    exact ⟨rfl, rfl⟩

/-- **The order of the entries.** A mapping is added to a grammar exactly if its names, trimmed,
are neither empty nor taken and no two of them are the same. This does not depend on the order of
the entries, and neither does the grammar that it leaves then. So a server with a seed that puts
the mapping in place answers with the same status, and is the same after it, in every order of the
entries: whether they can be added or not, and whether validation follows or not. -/
theorem mapping_orderFree {m m' : Mapping} (h : m.Perm m') :
    (∀ g : Grammar,
      ((g.addMapping m).fault = none ↔ (g.addMapping m').fault = none) ∧
      ((g.addMapping m).fault = none ↔ Grammar.Fresh g (Grammar.trimmed m)) ∧
      ((g.addMapping m).fault = none →
        (g.addMapping m).grammar = (g.addMapping m').grammar)) ∧
    ∀ (s : Server) (around around' : Surroundings), s.settings.seed.isSome →
      (s.handle around (.replace m)).1.status = (s.handle around' (.replace m')).1.status ∧
      (s.handle around (.replace m)).2 = (s.handle around' (.replace m')).2 := by
  refine ⟨fun g => ⟨?_, Grammar.addMapping_fault_eq_none_iff, fun hnone => ?_⟩,
    fun s around around' hseed => replace_perm hseed h around around'⟩
  · have hperm : (Grammar.trimmed m).Perm (Grammar.trimmed m') := h.map _
    rw [Grammar.addMapping_fault_eq_none_iff, Grammar.addMapping_fault_eq_none_iff]
    exact ⟨Grammar.Fresh.perm hperm, Grammar.Fresh.perm hperm.symm⟩
  · rw [Grammar.addMapping_perm h (Grammar.addMapping_fault_eq_none_iff.mp hnone)]

/-! ### Two entries in two orders -/

/-- A category whose name is to be trimmed, and one that refers to it. -/
def twoEntries : Mapping :=
  [([' ', 'b'], [['x'], ['y']]), (['a', '\t'], [['[', 'b', ']'], ['[', '?', 'b', ']']])]

/-- A server with a seed that validates what it loads. -/
def validating : Server :=
  let settings := { EngineSettings.default with seed := some 7, validateOnLoad := true }
  { engine := .create settings (.replicate 8 0), root := [], settings }

/-- No files, and a fresh key. -/
def noFiles (word : UInt32) : Surroundings :=
  { read := fun _ => none, workingFolder := ['/'], freshKey := .replicate 8 word }

theorem twoEntries_mapping_orderFree :
    (twoEntries.Perm twoEntries.reverse ∧ (Grammar.addMapping {} twoEntries).fault = none ∧
      validating.settings.seed.isSome) ∧
    (Grammar.addMapping {} twoEntries).grammar
      = (Grammar.addMapping {} twoEntries.reverse).grammar ∧
    (validating.handle (noFiles 0) (.replace twoEntries)).1.status = 200 ∧
    (validating.handle (noFiles 1) (.replace twoEntries.reverse)).1.status = 200 ∧
    (validating.handle (noFiles 0) (.replace twoEntries)).2
      = (validating.handle (noFiles 1) (.replace twoEntries.reverse)).2 := by
  have hperm : twoEntries.Perm twoEntries.reverse := (List.reverse_perm twoEntries).symm
  have hnone : (Grammar.addMapping {} twoEntries).fault = none := by decide
  obtain ⟨hload, hserve⟩ := mapping_orderFree hperm
  obtain ⟨hstatus, hserver⟩ := hserve validating (noFiles 0) (noFiles 1) rfl
  have hok : (validating.handle (noFiles 0) (.replace twoEntries)).1.status = 200 := by
    decide +kernel
  exact ⟨⟨hperm, hnone, rfl⟩, (hload {}).2.2 hnone, hok, hstatus ▸ hok, hserver⟩

end Server

end PhraseGrammar
