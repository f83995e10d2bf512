import PhraseGrammar.Proofs.Numerals
import PhraseGrammar.Server.Settings

set_option autoImplicit false

/-! # The variables of a server

Four variables of a server are numbers (`ServerSettings.numberVariables`). A variable that is set has
to be a numeral, and but for the seed it must not be zero (`NumberVariable.Accepted`). They are looked
at one after the other, and reading stops at the first one that is not accepted, with what is to be
said of it (`ServerSettings.FirstOffence`).

So settings are read exactly if all four are accepted, and then they are what is set, with a default
for everything that is not (`ServerSettings.read_spec`).
-/

namespace PhraseGrammar.ServerSettings

open Text

/-! ## What is accepted -/

/-- A variable with a number, and what is said of a zero if none is accepted. -/
structure NumberVariable where
  name : Text
  zero : Option String

def workersNumber : NumberVariable :=
  ⟨workersVariable, some "RS_PHRASE_WORKERS must be at least 1"⟩

def seedNumber : NumberVariable := ⟨seedVariable, none⟩

def cycleLimitNumber : NumberVariable :=
  ⟨cycleLimitVariable, some "max_parse_cycles must be at least 1"⟩

def sizeLimitNumber : NumberVariable :=
  ⟨sizeLimitVariable, some "max_query_len must be at least 1"⟩

/-- **The variables with numbers**, in the order in which they are looked at. -/
def numberVariables : List NumberVariable :=
  [workersNumber, seedNumber, cycleLimitNumber, sizeLimitNumber]

/-- The number that a variable is set to, or none if it is not set. -/
inductive Given (lookup : Lookup) (name : Text) : Option UInt64 → Prop
  | unset : lookup name = none → Given lookup name none
  | set {value : Text} {n : UInt64} :
      lookup name = some value → Numeral value n → Given lookup name (some n)

namespace NumberVariable

/-- The variable is not set, or set to a number that is not refused. -/
def Accepted (v : NumberVariable) (lookup : Lookup) : Prop :=
  ∀ value, lookup v.name = some value → ∃ n, Numeral value n ∧ (v.zero.isSome → n ≠ 0)

/-- **What is said of a variable** that is not accepted. A value that is no numeral is shown as it
was given. -/
inductive Offends (v : NumberVariable) (lookup : Lookup) : String → Prop
  | notANumber {value : Text} :
      lookup v.name = some value → (∀ n, ¬ Numeral value n) →
      Offends v lookup
        (String.ofList v.name ++ " has an invalid value: '" ++ String.ofList value ++ "'")
  | zero {value : Text} {message : String} :
      lookup v.name = some value → Numeral value 0 → v.zero = some message →
      Offends v lookup message

variable {v : NumberVariable} {lookup : Lookup}

theorem Offends.not_accepted {message : String} (h : v.Offends lookup message) :
    ¬ v.Accepted lookup := by
  intro haccepted
  cases h with
  | notANumber hvalue hnot =>
      obtain ⟨n, hn, -⟩ := haccepted _ hvalue
      exact hnot n hn
  | zero hvalue hzero hmessage =>
      obtain ⟨n, hn, hne⟩ := haccepted _ hvalue
      exact hne (by rw [hmessage]; rfl) (hn.unique hzero)

/-- There is one thing to be said of a variable. -/
theorem Offends.unique {message message' : String} (h : v.Offends lookup message)
    (h' : v.Offends lookup message') : message = message' := by
  cases h with
  | notANumber hvalue hnot =>
      cases h' with
      | notANumber hvalue' _ =>
          obtain rfl := Option.some.inj (hvalue.symm.trans hvalue')
          rfl
      | zero hvalue' hzero _ =>
          obtain rfl := Option.some.inj (hvalue.symm.trans hvalue')
          exact absurd hzero (hnot 0)
  | zero hvalue hzero hmessage =>
      cases h' with
      | notANumber hvalue' hnot =>
          obtain rfl := Option.some.inj (hvalue.symm.trans hvalue')
          exact absurd hzero (hnot 0)
      | zero _ _ hmessage' => exact Option.some.inj (hmessage.symm.trans hmessage')

end NumberVariable

/-- **The first variable that is not accepted**, and what is said of it. -/
def FirstOffence (lookup : Lookup) (message : String) : List NumberVariable → Prop
  | [] => False
  | v :: rest => v.Offends lookup message ∨ v.Accepted lookup ∧ FirstOffence lookup message rest

variable {lookup : Lookup} {message message' : String} {vs : List NumberVariable}

theorem FirstOffence.not_accepted (h : FirstOffence lookup message vs) :
    ¬ ∀ v ∈ vs, v.Accepted lookup := by
  intro hall
  induction vs with
  | nil => exact h
  | cons v rest ih =>
      rcases h with hv | ⟨-, hrest⟩
      · exact hv.not_accepted (hall v List.mem_cons_self)
      · exact ih hrest fun w hw => hall w (List.mem_cons_of_mem v hw)

theorem FirstOffence.unique (h : FirstOffence lookup message vs)
    (h' : FirstOffence lookup message' vs) : message = message' := by
  induction vs with
  | nil => cases h
  | cons v rest ih =>
      rcases h with hv | ⟨haccepted, hrest⟩
      · rcases h' with hv' | ⟨haccepted', -⟩
        · exact hv.unique hv'
        · exact absurd haccepted' hv.not_accepted
      · rcases h' with hv' | ⟨-, hrest'⟩
        · exact absurd haccepted hv'.not_accepted
        · exact ih hrest hrest'

/-! ## Reading one variable -/

/-- How the number of a variable is read. A zero is not refused here. -/
inductive NumberRead (lookup : Lookup) (v : NumberVariable) :
    Except Refusal (Option UInt64) → Prop
  | unset : lookup v.name = none → NumberRead lookup v (.ok none)
  | set {value : Text} {n : UInt64} :
      lookup v.name = some value → Numeral value n → NumberRead lookup v (.ok (some n))
  | refused {refusal : Refusal} :
      v.Offends lookup refusal.message → NumberRead lookup v (.error refusal)

theorem number?_read (lookup : Lookup) (v : NumberVariable) :
    NumberRead lookup v (number? lookup v.name) := by
  unfold number?
  cases hvalue : lookup v.name with
  | none => exact .unset hvalue
  | some value =>
      dsimp only
      cases hn : value.trim.toUInt64? with
      | none =>
          refine .refused (.notANumber hvalue fun n hnumeral => ?_)
          rw [toUInt64?_trim_eq_some.mpr hnumeral] at hn
          cases hn
      | some n => exact .set hvalue (toUInt64?_trim_eq_some.mp hn)

theorem accepted_of_given {v : NumberVariable} {given : Option UInt64}
    (h : Given lookup v.name given) (hzero : v.zero.isSome → given ≠ some 0) :
    v.Accepted lookup := by
  intro value hvalue
  cases h with
  | unset hnone =>
      rw [hnone] at hvalue
      cases hvalue
  | @set value' n hsome hn =>
      obtain rfl := Option.some.inj (hsome.symm.trans hvalue)
      exact ⟨n, hn, fun h hz => hzero h (congrArg some hz)⟩

/-- An accepted variable that must not be zero is not. -/
theorem Given.ne_zero {v : NumberVariable} {given : Option UInt64}
    (h : Given lookup v.name given) (haccepted : v.Accepted lookup) (hzero : v.zero.isSome) :
    given ≠ some 0 := by
  rintro rfl
  cases h with
  | set hvalue hn =>
      obtain ⟨n, hn', hne⟩ := haccepted _ hvalue
      exact hne hzero (hn'.unique hn)

/-- How a setting is made of a variable: the variable is accepted, and the setting holds what it is
set to, or nothing is made of it. -/
inductive SettingRead {α : Type} (lookup : Lookup) (v : NumberVariable)
    (holds : Option UInt64 → α → Prop) : Except Refusal α → Prop
  | accepted {given : Option UInt64} {a : α} :
      Given lookup v.name given → (v.zero.isSome → given ≠ some 0) → holds given a →
      SettingRead lookup v holds (.ok a)
  | refused {refusal : Refusal} :
      v.Offends lookup refusal.message → SettingRead lookup v holds (.error refusal)

theorem workers?_read (lookup : Lookup) :
    SettingRead lookup workersNumber (fun given workers => workers = given)
      (workers? lookup) := by
  have hread : NumberRead lookup workersNumber (number? lookup workersVariable) :=
    number?_read lookup workersNumber
  unfold workers?
  generalize number? lookup workersVariable = r at hread ⊢
  cases hread with
  | unset h => exact .accepted (.unset h) (fun _ => nofun) rfl
  | set hvalue hn =>
      split
      · next hzero =>
          cases hzero
          exact .refused (.zero hvalue hn (by decide))
      · next hzero =>
          exact .accepted (.set hvalue hn) (fun _ h => hzero (congrArg Except.ok h)) rfl
  | refused h => exact .refused h

theorem seed_read (lookup : Lookup) :
    SettingRead lookup seedNumber (fun given seed => seed = given)
      (number? lookup seedVariable) := by
  have hread : NumberRead lookup seedNumber (number? lookup seedVariable) :=
    number?_read lookup seedNumber
  generalize number? lookup seedVariable = r at hread ⊢
  cases hread with
  | unset h => exact .accepted (.unset h) nofun rfl
  | set hvalue hn => exact .accepted (.set hvalue hn) nofun rfl
  | refused h => exact .refused h

/-- A limit that refuses zero, with any way to set it. -/
theorem withLimit_read (lookup : Lookup) {v : NumberVariable} {s : EngineSettings}
    {set : EngineSettings → UInt64 → Except EngineSettings.Refusal EngineSettings}
    {refusal : EngineSettings.Refusal} {holds : Option UInt64 → EngineSettings → Prop}
    (hmessage : v.zero = some refusal.message) (hzero : set s 0 = .error refusal)
    (hunset : holds none s) (hset : ∀ n, n ≠ 0 → ∃ s', set s n = .ok s' ∧ holds (some n) s') :
    SettingRead lookup v holds (withLimit lookup v.name set s) := by
  have hread := number?_read lookup v
  unfold withLimit
  generalize number? lookup v.name = r at hread ⊢
  cases hread with
  | unset h => exact .accepted (.unset h) (fun _ => nofun) hunset
  | @set value n hvalue hn =>
      dsimp only
      by_cases hn0 : n = 0
      · subst hn0
        rw [hzero]
        exact .refused (.zero hvalue hn hmessage)
      · obtain ⟨s', hs, hholds⟩ := hset n hn0
        rw [hs]
        exact .accepted (.set hvalue hn) (fun _ h => hn0 (Option.some.inj h)) hholds
  | refused h => exact .refused h

/-! ## Reading one variable after the other -/

/-- How settings are made of several variables. -/
inductive SettingsRead {α : Type} (lookup : Lookup) (vs : List NumberVariable)
    (holds : α → Prop) : Except Refusal α → Prop
  | accepted {a : α} :
      (∀ v ∈ vs, v.Accepted lookup) → holds a → SettingsRead lookup vs holds (.ok a)
  | refused {refusal : Refusal} :
      FirstOffence lookup refusal.message vs → SettingsRead lookup vs holds (.error refusal)

variable {α β : Type} {v : NumberVariable}

/-- Nothing is left to read. -/
theorem SettingsRead.pure {holds : α → Prop} {a : α} (h : holds a) :
    SettingsRead lookup [] holds (.ok a) := .accepted nofun h

/-- **One variable, and then the others.** -/
theorem SettingRead.bind {holds : Option UInt64 → α → Prop} {holds' : β → Prop}
    {r : Except Refusal α} {f : α → Except Refusal β} (h : SettingRead lookup v holds r)
    (hf : ∀ given a, Given lookup v.name given → holds given a →
      SettingsRead lookup vs holds' (f a)) :
    SettingsRead lookup (v :: vs) holds' (r.bind f) := by
  cases h with
  | refused hoffends => exact .refused (Or.inl hoffends)
  | @accepted given a hgiven hzero hholds =>
      have haccepted := accepted_of_given hgiven hzero
      have hrest := hf given a hgiven hholds
      show SettingsRead lookup (v :: vs) holds' (f a)
      generalize f a = r at hrest ⊢
      cases hrest with
      | accepted hall hholds' => exact .accepted (List.forall_mem_cons.mpr ⟨haccepted, hall⟩) hholds'
      | refused hfirst => exact .refused (Or.inr ⟨haccepted, hfirst⟩)

theorem SettingRead.last {holds : Option UInt64 → α → Prop} {holds' : α → Prop}
    {r : Except Refusal α} (h : SettingRead lookup v holds r)
    (hf : ∀ given a, Given lookup v.name given → holds given a → holds' a) :
    SettingsRead lookup [v] holds' r := by
  have hbind : SettingsRead lookup [v] holds' (r.bind .ok) :=
    h.bind fun given a hgiven hholds => .pure (hf given a hgiven hholds)
  cases r with
  | error refusal => exact hbind
  | ok a => exact hbind

theorem SettingsRead.map {holds : α → Prop} {holds' : β → Prop} {r : Except Refusal α}
    {g : α → β} (h : SettingsRead lookup vs holds r) (hg : ∀ a, holds a → holds' (g a)) :
    SettingsRead lookup vs holds' (r.bind fun a => .ok (g a)) := by
  cases h with
  | accepted hall hholds => exact .accepted hall (hg _ hholds)
  | refused hfirst => exact .refused hfirst

/-! ## Reading all of them -/

/-- **The settings of an engine are those that are given**, with the defaults for the others. -/
structure EngineStored (lookup : Lookup) (s : EngineSettings) : Prop where
  seed : Given lookup seedVariable s.seed
  cycleLimit : ∃ given, Given lookup cycleLimitVariable given ∧
    s.cycleLimit = given.getD EngineSettings.default.cycleLimit
  sizeLimit : ∃ given, Given lookup sizeLimitVariable given ∧
    s.sizeLimit = given.getD EngineSettings.default.sizeLimit
  validateOnLoad : s.validateOnLoad = false

/-- **The settings of a server are those that are given**, with the defaults for the others. -/
structure Stored (workingFolder : Text) (lookup : Lookup) (processors : UInt64)
    (s : ServerSettings) : Prop where
  root : s.root = Path.folder workingFolder ((lookup rootVariable).getD "./data".toList)
  bind : s.bind = (lookup bindVariable).getD "127.0.0.1:5000".toList
  workers : ∃ given, Given lookup workersVariable given ∧
    s.workerCount processors = given.getD processors
  engine : EngineStored lookup s.engine

theorem withCycleLimit_ok (s : EngineSettings) {n : UInt64} (hn : n ≠ 0) :
    ∃ s', s.withCycleLimit n = .ok s' ∧ s'.cycleLimit = n ∧ s'.sizeLimit = s.sizeLimit ∧
      s'.seed = s.seed ∧ s'.validateOnLoad = s.validateOnLoad :=
  ⟨_, dif_neg hn, rfl, rfl, rfl, rfl⟩

theorem withSizeLimit_ok (s : EngineSettings) {n : UInt64} (hn : n ≠ 0) :
    ∃ s', s.withSizeLimit n = .ok s' ∧ s'.sizeLimit = n ∧ s'.cycleLimit = s.cycleLimit ∧
      s'.seed = s.seed ∧ s'.validateOnLoad = s.validateOnLoad :=
  ⟨_, dif_neg hn, rfl, rfl, rfl, rfl⟩

theorem engineSettings_read (lookup : Lookup) :
    SettingsRead lookup [seedNumber, cycleLimitNumber, sizeLimitNumber] (EngineStored lookup)
      (engineSettings lookup) := by
  refine (seed_read lookup).bind fun given seed hgiven hseed => ?_
  subst hseed
  have hcycles : SettingRead lookup cycleLimitNumber
      (fun given s => s.cycleLimit = given.getD EngineSettings.default.cycleLimit ∧
        s.sizeLimit = EngineSettings.default.sizeLimit ∧ s.seed = seed ∧
        s.validateOnLoad = false)
      (withLimit lookup cycleLimitVariable EngineSettings.withCycleLimit
        { EngineSettings.default with seed }) :=
    withLimit_read lookup rfl rfl ⟨rfl, rfl, rfl, rfl⟩ fun n hn => withCycleLimit_ok _ hn
  refine hcycles.bind fun cycles s hcycles hs => ?_
  have hsize : SettingRead lookup sizeLimitNumber
      (fun given s' => s'.sizeLimit = given.getD EngineSettings.default.sizeLimit ∧
        s'.cycleLimit = s.cycleLimit ∧ s'.seed = s.seed ∧ s'.validateOnLoad = s.validateOnLoad)
      (withLimit lookup sizeLimitVariable EngineSettings.withSizeLimit s) :=
    withLimit_read lookup rfl rfl ⟨hs.2.1, rfl, rfl, rfl⟩ fun n hn => withSizeLimit_ok s hn
  refine hsize.last fun size s' hsize hs' => ?_
  obtain ⟨hcycleLimit, -, hseed, hvalidate⟩ := hs
  obtain ⟨hsizeLimit, hcycleLimit', hseed', hvalidate'⟩ := hs'
  exact
    { seed := by rwa [hseed', hseed]
      cycleLimit := ⟨cycles, hcycles, hcycleLimit'.trans hcycleLimit⟩
      sizeLimit := ⟨size, hsize, hsizeLimit⟩
      validateOnLoad := hvalidate'.trans hvalidate }

theorem read_outcome (workingFolder : Text) (lookup : Lookup) (processors : UInt64) :
    SettingsRead lookup numberVariables (Stored workingFolder lookup processors)
      (read workingFolder lookup) := by
  refine (workers?_read lookup).bind fun given workers hgiven hworkers => ?_
  refine (engineSettings_read lookup).map fun engine hengine => ?_
  exact ⟨rfl, rfl, ⟨given, hgiven, by rw [workerCount, hworkers]⟩, hengine⟩

theorem one_le_of_ne_zero {n : UInt64} (h : n ≠ 0) : 1 ≤ n :=
  UInt64.le_iff_toNat_le.mpr (Nat.one_le_iff_ne_zero.mpr fun hzero => h (UInt64.toNat_inj.mp hzero))

/-- There is at least one worker if there is a processor. -/
theorem Stored.one_le_workers {workingFolder : Text} {processors : UInt64} {s : ServerSettings}
    (h : Stored workingFolder lookup processors s) (hprocessors : 1 ≤ processors)
    (hall : ∀ v ∈ numberVariables, v.Accepted lookup) : 1 ≤ s.workerCount processors := by
  obtain ⟨given, hgiven, hcount⟩ := h.workers
  rw [hcount]
  cases given with
  | none => exact hprocessors
  | some n =>
      have hne : some n ≠ some 0 := hgiven.ne_zero (hall _ List.mem_cons_self) rfl
      exact one_le_of_ne_zero fun hn => hne (congrArg some hn)

/-- **Settings are accepted exactly.** They are read if every variable with a number is accepted, and
then they are what is given, with the defaults for the others; there is at least one worker, if there
is a processor, and both limits are at least one. Otherwise it is told of the first variable that is
not accepted what is to be said of it, and nothing else. -/
theorem read_spec (workingFolder : Text) (lookup : Lookup) {processors : UInt64}
    (hprocessors : 1 ≤ processors) :
    ((∃ s, read workingFolder lookup = .ok s) ↔ ∀ v ∈ numberVariables, v.Accepted lookup) ∧
    (∀ s, read workingFolder lookup = .ok s →
      Stored workingFolder lookup processors s ∧ 1 ≤ s.workerCount processors ∧
        1 ≤ s.engine.cycleLimit ∧ 1 ≤ s.engine.sizeLimit) ∧
    ∀ message, (∃ refusal, read workingFolder lookup = .error refusal ∧
      refusal.message = message) ↔ FirstOffence lookup message numberVariables := by
  have hread := read_outcome workingFolder lookup processors
  generalize read workingFolder lookup = r at hread ⊢
  cases hread with
  | @accepted settings hall hstored =>
      refine ⟨⟨fun _ => hall, fun _ => ⟨_, rfl⟩⟩, ?_, fun message => ⟨nofun, fun hfirst => ?_⟩⟩
      · rintro _ ⟨⟩
        exact ⟨hstored, hstored.one_le_workers hprocessors hall,
          one_le_of_ne_zero settings.engine.cycleLimit_ne_zero,
          one_le_of_ne_zero settings.engine.sizeLimit_ne_zero⟩
      · exact absurd hall hfirst.not_accepted
  | refused hfirst =>
      refine ⟨⟨nofun, fun hall => absurd hall hfirst.not_accepted⟩, nofun, fun message => ⟨?_, ?_⟩⟩
      · rintro ⟨refusal, hrefusal, rfl⟩
        cases hrefusal
        exact hfirst
      · exact fun hfirst' => ⟨_, rfl, hfirst.unique hfirst'⟩

/-! ### Numbers with blanks, and a number that is too large -/

/-- Seven workers, the largest seed, and a limit of 42 bytes. -/
def padded : Lookup := fun name =>
  [(workersVariable, ['\u00a0', '+', '0', '0', '7', '\t']),
    (seedVariable, "18446744073709551615".toList),
    (sizeLimitVariable, ['\u3000', '4', '2', ' '])].lookup name

/-- Two workers, a seed of 65 bits, and no cycles. -/
def overflowing : Lookup := fun name =>
  [(workersVariable, ['2']), (seedVariable, " 18446744073709551616".toList),
    (cycleLimitVariable, "+00".toList)].lookup name

/-- The second lookup is refused for its seed, although zero cycles are refused as well. -/
theorem padded_read_spec :
    (1 : UInt64) ≤ 4 ∧
    (∃ s, read [] padded = .ok s ∧
      (s.workers, s.engine.seed, s.engine.cycleLimit, s.engine.sizeLimit)
        = (some 7, some 18446744073709551615, 1024, 42) ∧
      (∀ v ∈ numberVariables, v.Accepted padded) ∧ Stored [] padded 4 s) ∧
    FirstOffence overflowing "RS_PHRASE_SEED has an invalid value: ' 18446744073709551616'"
      numberVariables := by
  have hprocessors : (1 : UInt64) ≤ 4 := by decide
  refine ⟨hprocessors, ?_, ?_⟩
  · have hok : (read [] padded).map
        (fun s => (s.workers, s.engine.seed, s.engine.cycleLimit, s.engine.sizeLimit))
        = .ok (some 7, some 18446744073709551615, 1024, 42) := by
      decide +kernel
    obtain ⟨haccepted, hstored, -⟩ := read_spec [] padded hprocessors
    cases hread : read [] padded with
    | error refusal =>
        rw [hread] at hok
        cases hok
    | ok s =>
        rw [hread] at hok
        exact ⟨s, rfl, Except.ok.inj hok, haccepted.mp ⟨s, hread⟩, (hstored s hread).1⟩
  · have herror : (read [] overflowing).mapError Refusal.message
        = .error "RS_PHRASE_SEED has an invalid value: ' 18446744073709551616'" := by
      decide +kernel
    obtain ⟨-, -, hrefused⟩ := read_spec [] overflowing hprocessors
    cases hread : read [] overflowing with
    | error refusal =>
        rw [hread] at herror
        exact (hrefused _).mp ⟨refusal, hread, Except.error.inj herror⟩
    | ok s =>
        rw [hread] at herror
        cases herror

end PhraseGrammar.ServerSettings
