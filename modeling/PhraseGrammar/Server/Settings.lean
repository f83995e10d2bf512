import PhraseGrammar.Engine.Settings
import PhraseGrammar.Files.Path
import PhraseGrammar.Text.Blank
import PhraseGrammar.Text.Decimal

set_option autoImplicit false

/-! # Server settings

The settings of a server are read from variables. A variable that is not set leaves its default;
a number may have blanks around it, and one that cannot be read is shown with its value as it
was given. Numbers are checked in the order workers, seed, limit on cycles, limit on size, and
the first fault is the one that is told.
-/

namespace PhraseGrammar

/-- The settings of a server. -/
structure ServerSettings where
  root : Text
  bind : Text
  /-- The number of workers; if it is not set, there are as many as processors. -/
  workers : Option UInt64
  engine : EngineSettings
  deriving DecidableEq

namespace ServerSettings

/-- Gives the value of a variable, if it is set. -/
abbrev Lookup := Text → Option Text

/-- The variable with the folder of the grammar. -/
def rootVariable : Text := "RS_PHRASE_ROOT".toList

/-- The variable with the address to serve at. -/
def bindVariable : Text := "RS_PHRASE_BIND".toList

/-- The variable with the number of workers. -/
def workersVariable : Text := "RS_PHRASE_WORKERS".toList

/-- The variable with the seed of the engine. -/
def seedVariable : Text := "RS_PHRASE_SEED".toList

/-- The variable with the limit on cycles. -/
def cycleLimitVariable : Text := "RS_PHRASE_MAX_CYCLES".toList

/-- The variable with the limit on the size of a query. -/
def sizeLimitVariable : Text := "RS_PHRASE_MAX_LEN".toList

/-- Why settings are refused. -/
inductive Refusal where
  /-- A variable whose value is not a number. -/
  | notANumber (variableName value : Text)
  | noWorkers
  /-- A limit that the engine refuses. -/
  | engine (refusal : EngineSettings.Refusal)
  deriving DecidableEq, Repr

/-- The wording of a refusal. -/
def Refusal.message : Refusal → String
  | notANumber variableName value =>
    String.ofList variableName ++ " has an invalid value: '" ++ String.ofList value ++ "'"
  | noWorkers => String.ofList workersVariable ++ " must be at least 1"
  | engine refusal => refusal.message

/-- The number that a variable is set to, if it is set. -/
def number? (lookup : Lookup) (variableName : Text) : Except Refusal (Option UInt64) :=
  match lookup variableName with
  | none => .ok none
  | some value =>
    match value.trim.toUInt64? with
    | some n => .ok (some n)
    | none => .error (.notANumber variableName value)

/-- The number of workers, which is not zero. -/
def workers? (lookup : Lookup) : Except Refusal (Option UInt64) :=
  match number? lookup workersVariable with
  | .ok (some 0) => .error .noWorkers
  | read => read

/-- Engine settings with one more limit, if its variable is set. -/
def withLimit (lookup : Lookup) (variableName : Text)
    (set : EngineSettings → UInt64 → Except EngineSettings.Refusal EngineSettings)
    (s : EngineSettings) : Except Refusal EngineSettings :=
  match number? lookup variableName with
  | .error e => .error e
  | .ok none => .ok s
  | .ok (some n) => (set s n).mapError .engine

/-- The settings of the engine. -/
def engineSettings (lookup : Lookup) : Except Refusal EngineSettings := do
  let seed ← number? lookup seedVariable
  let s : EngineSettings := { EngineSettings.default with seed }
  let s ← withLimit lookup cycleLimitVariable EngineSettings.withCycleLimit s
  withLimit lookup sizeLimitVariable EngineSettings.withSizeLimit s

/-- Reads the settings. -/
def read (workingFolder : Text) (lookup : Lookup) : Except Refusal ServerSettings := do
  let root := Path.folder workingFolder ((lookup rootVariable).getD "./data".toList)
  let bind := (lookup bindVariable).getD "127.0.0.1:5000".toList
  let workers ← workers? lookup
  let engine ← engineSettings lookup
  return { root, bind, workers, engine }

/-- The number of workers on a machine with a number of processors. -/
def workerCount (s : ServerSettings) (processors : UInt64) : UInt64 := s.workers.getD processors

end ServerSettings

end PhraseGrammar
