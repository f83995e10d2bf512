set_option autoImplicit false

/-! # Engine settings

The limits that every expansion of an engine obeys, the seed of its random source, and whether a
grammar is validated when it is loaded. Limits have 64 bits and are at least one: a new limit is
checked when it is set.
-/

namespace PhraseGrammar

/-- The settings of an engine. -/
structure EngineSettings where
  /-- The number of the cycle at which an expansion gives up. -/
  cycleLimit : UInt64 := 1024
  /-- The largest size of a query, in bytes. -/
  sizeLimit : UInt64 := 1048576
  /-- Without a seed, the random source starts from a fresh key. -/
  seed : Option UInt64 := none
  validateOnLoad : Bool := false
  cycleLimit_ne_zero : cycleLimit ≠ 0 := by decide
  sizeLimit_ne_zero : sizeLimit ≠ 0 := by decide
  deriving DecidableEq

namespace EngineSettings

/-- The settings of an engine that is given none. -/
def default : EngineSettings := {}

/-- Why a limit is refused. -/
inductive Refusal where
  | noCycles
  | noSize
  deriving DecidableEq, Repr

/-- The wording of a refusal. -/
def Refusal.message : Refusal → String
  | noCycles => "max_parse_cycles must be at least 1"
  | noSize => "max_query_len must be at least 1"

/-- The settings with another limit on cycles. -/
def withCycleLimit (s : EngineSettings) (limit : UInt64) : Except Refusal EngineSettings :=
  if h : limit = 0 then .error .noCycles
  else .ok { s with cycleLimit := limit, cycleLimit_ne_zero := h }

/-- The settings with another limit on the size of a query. -/
def withSizeLimit (s : EngineSettings) (limit : UInt64) : Except Refusal EngineSettings :=
  if h : limit = 0 then .error .noSize
  else .ok { s with sizeLimit := limit, sizeLimit_ne_zero := h }

end EngineSettings

end PhraseGrammar
