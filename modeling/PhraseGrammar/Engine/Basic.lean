import PhraseGrammar.Engine.Settings
import PhraseGrammar.Engine.Validation
import PhraseGrammar.Grammar.Folder
import PhraseGrammar.Random.Keystream

set_option autoImplicit false

/-! # Engines

An engine owns a grammar, its settings and a random source. It loads grammars, expands queries,
counts their options and validates its grammar. The source goes on from one operation to the
next, whether they succeed or fail, and each operation gives the engine back as it is afterwards.

The operations work with any random source; an engine that is made here has a keystream.
-/

namespace PhraseGrammar

/-- A grammar with settings and a random source. -/
structure Engine (σ : Type) where
  grammar : Grammar := {}
  settings : EngineSettings
  source : σ

/-- What an operation of an engine can fail with. -/
inductive EngineError where
  /-- A grammar could not be loaded. -/
  | grammar (error : GrammarError)
  /-- A grammar was loaded and did not pass validation. -/
  | invalid (findings : Nat) (first : Finding)
  /-- A query could not be expanded. -/
  | expansion (error : ExpansionError)
  deriving DecidableEq, Repr

namespace EngineError

/-- What is said of a grammar that did not pass validation. -/
def invalidText (findings : Nat) (first : Finding) : String :=
  "validation found " ++ toString findings ++ " problem(s), first: " ++ first.message

/-- The wording of an error. -/
def message : EngineError → String
  | grammar error => error.message
  | invalid findings first => GrammarError.frame none (invalidText findings first)
  | expansion error => error.message

end EngineError

namespace Engine

/-- The start of the random source: the seed decides it, and without a seed a fresh key. -/
def startOf (settings : EngineSettings) (fresh : Vector UInt32 8) : Keystream :=
  match settings.seed with
  | some seed => Keystream.ofSeed seed
  | none => Keystream.ofKey fresh

/-- An engine with an empty grammar. -/
def create (settings : EngineSettings) (fresh : Vector UInt32 8) : Engine Keystream :=
  { settings, source := startOf settings fresh }

variable {σ : Type} [WordSource σ]

/-! ## Expanding -/

/-- The expander of an engine. -/
def expander (e : Engine σ) (overrides : Overrides) : Expander :=
  { grammar := e.grammar
    overrides
    cycleLimit := e.settings.cycleLimit.toNat
    sizeLimit := e.settings.sizeLimit.toNat }

/-- The phrase of a query, with forced texts. -/
def phrase (e : Engine σ) (query : Text) (overrides : Overrides := []) :
    Except EngineError Text × Engine σ :=
  let (phrase, d) := (e.expander overrides).expand query e.source
  (phrase.mapError .expansion, { e with source := d.source })

/-- The bounds of the options of a query, with forced texts. -/
def options (e : Engine σ) (query : Text) (overrides : Overrides := []) :
    Except EngineError Bounds × Engine σ :=
  let (bounds, d) := (e.expander overrides).countOptions query e.source
  (bounds.mapError .expansion, { e with source := d.source })

/-- What validation has to say about the grammar. -/
def validate (e : Engine σ) : List Finding × Engine σ :=
  let (findings, source) := (e.expander []).validate e.source
  (findings, { e with source })

/-! ## Loading

What was added to the grammar stays, also when the load or the validation behind it fails. -/

/-- Takes over an extended grammar, and validates it if no fault ended the load and the settings
ask for it. -/
def load (e : Engine σ) (extended : Grammar.Extended) : Except EngineError Unit × Engine σ :=
  let e := { e with grammar := extended.grammar }
  match extended.fault with
  | some fault => (.error (.grammar fault), e)
  | none =>
    if e.settings.validateOnLoad then
      match e.validate with
      | ([], e) => (.ok (), e)
      | (first :: rest, e) => (.error (.invalid (rest.length + 1) first), e)
    else (.ok (), e)

/-- Loads lines. -/
def loadLines (e : Engine σ) (lines : List Text) (origin : Option Text) :
    Except EngineError Unit × Engine σ :=
  e.load (e.grammar.addLines lines origin)

/-- Loads a text. -/
def loadText (e : Engine σ) (text : Text) (origin : Option Text) :
    Except EngineError Unit × Engine σ :=
  e.load (e.grammar.addText text origin)

/-- Loads a mapping. -/
def loadMapping (e : Engine σ) (mapping : Mapping) : Except EngineError Unit × Engine σ :=
  e.load (e.grammar.addMapping mapping)

/-- Loads the files of a grammar folder. -/
def loadFolder (e : Engine σ) (read : Reader) (root : Text) :
    Except EngineError Unit × Engine σ :=
  e.load (e.grammar.addFolder read root)

/-- A new engine with the grammar of a mapping. -/
def ofMapping (settings : EngineSettings) (fresh : Vector UInt32 8) (mapping : Mapping) :
    Except EngineError (Engine Keystream) :=
  let (outcome, e) := (create settings fresh).loadMapping mapping
  outcome.map fun _ => e

/-- A new engine with the grammar of a folder. -/
def ofFolder (settings : EngineSettings) (fresh : Vector UInt32 8) (read : Reader) (root : Text) :
    Except EngineError (Engine Keystream) :=
  let (outcome, e) := (create settings fresh).loadFolder read root
  outcome.map fun _ => e

end Engine

end PhraseGrammar
