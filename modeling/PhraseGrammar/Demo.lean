import PhraseGrammar.Engine.Basic

set_option autoImplicit false

/-! # The demonstration

A tour of an engine with a fixed seed over the grammar folder `./data`: phrases of one category, a
query of its own, forced texts, the bounds of a query's options, an unknown category, and
validation. It prints as it goes, and the first error that it does not expect ends it. What was
printed before stays.
-/

namespace PhraseGrammar.Demo

/-- The folder of the grammar. -/
def root : Text := "./data".toList

/-- The settings: a fixed seed, validation on loading, and twice the usual cycles. -/
def settings : EngineSettings :=
  { EngineSettings.default with
    seed := some 2024
    validateOnLoad := true
    cycleLimit := 2048
    cycleLimit_ne_zero := by decide }

/-- A demonstration under way: its engine, and the lines it has printed, newest first. -/
structure Session where
  engine : Engine Keystream
  newestFirst : List Text := []

/-- A part of the demonstration. The session is kept also when the part ends in an error. -/
abbrev Part := ExceptT EngineError (StateM Session)

/-- Prints a line. -/
def say (line : Text) : Part Unit :=
  modify fun s => { s with newestFirst := line :: s.newestFirst }

/-- Runs an operation of the engine, and leaves its outcome to the caller. -/
def tryOn {α : Type} (operation : Engine Keystream → α × Engine Keystream) : Part α :=
  modifyGet fun s =>
    let (outcome, engine) := operation s.engine
    (outcome, { s with engine })

/-- Runs an operation of the engine that has to succeed. -/
def on {α : Type} (operation : Engine Keystream → Except EngineError α × Engine Keystream) :
    Part α := do
  match ← tryOn operation with
  | .ok a => return a
  | .error e => throw e

/-- A limit of zero is refused. -/
def refuseZero : Part Unit :=
  match settings.withCycleLimit 0 with
  | .ok _ => say "Should not happen".toList
  | .error _ => say "A cycle cap of 0 is invalid, must be at least 1".toList

/-- Loads the grammar and lists its categories. -/
def load (read : Reader) : Part Unit := do
  on (·.loadFolder read root)
  let names := (← get).engine.grammar.names
  say ("Loaded categories: ".toList ++ List.intercalate ", ".toList names)

/-- Ten phrases of one category. -/
def observe : Part Unit :=
  (List.range 10).forM fun i => do
    let phrase ← on (·.phrase "[observation]".toList)
    say (("Generated phrase " ++ toString (i + 1) ++ ": ").toList ++ phrase)

/-- A query of its own, and a query with a forced text. -/
def explore : Part Unit := do
  say (← on (·.phrase "[a] [colour] [animal] and [a] [tiny/huge] [animal#2]".toList))
  say (← on (·.phrase "[!animal]the [animal] goes [[animal] sound]".toList
    [("animal".toList, "owl".toList)]))

/-- The bounds of a query's options. -/
def count : Part Unit := do
  let bounds ← on (·.options "[a] [colour] [animal] [verb]".toList)
  say ("Between " ++ toString bounds.lower ++ " and " ++ toString bounds.upper
    ++ " phrases").toList

/-- A category that the grammar should not have. -/
def stray : Part Unit := do
  match ← tryOn (·.phrase "[unicorn]".toList) with
  | .ok _ => say "Should not happen".toList
  | .error e => say e.message.toList

/-- What validation finds. -/
def check : Part Unit := do
  let findings ← tryOn (·.validate)
  say (toString findings.length ++ " validation finding(s)").toList
  findings.forM fun f => say ("  " ++ f.message).toList

/-- The whole demonstration. -/
def tour (read : Reader) : Part Unit := do
  refuseZero
  load read
  observe
  explore
  count
  stray
  check

/-- The printed lines, and the error that ended the demonstration early. -/
structure Transcript where
  lines : List Text
  failure : Option EngineError

/-- What the demonstration prints over the given files. Its source has a seed, so no fresh key
is needed. -/
def run (read : Reader) : Transcript :=
  let engine := Engine.create settings (Vector.replicate 8 0)
  match (tour read).run.run { engine } with
  | (.ok (), session) => ⟨session.newestFirst.reverse, none⟩
  | (.error e, session) => ⟨session.newestFirst.reverse, some e⟩

end PhraseGrammar.Demo
