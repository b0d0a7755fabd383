import ModeTree.Hint.Codec
import ModeTree.Json.Reader

/-!
# Configuration

How many changes the history keeps and how deep machines may nest. Every field has a default, so the
empty JSON object is a configuration.
-/

namespace ModeTree

/-- The settings of a session and of the definitions that it runs. -/
structure Config where
  historyCapacity : Nat := 256
  maxDepth : Nat := 16
  traceLevel : Option String := none
  deriving DecidableEq, Repr

/-- Why a text is no configuration. -/
inductive ConfigError where
  | malformed
  | zeroDepth
  deriving DecidableEq, Repr

/-- The wording of an error. -/
def ConfigError.message : ConfigError → String
  | malformed => "invalid configuration"
  | zeroDepth => "invalid configuration: max_depth must be at least 1"

namespace Config

/-- A configuration in JSON; a trace level that is not set is left out. -/
def toJson (c : Config) : Json :=
  .record ([("history_capacity", .nat c.historyCapacity), ("max_depth", .nat c.maxDepth)] ++
    Json.present "trace_level" Json.text c.traceLevel)

/-- Reads a configuration from JSON without checking it; unknown keys are refused. -/
def ofJson? (v : Json) : Option Config := do
  let row ← v.row? ["history_capacity", "max_depth", "trace_level"] true
  let standard : Config := {}
  return {
    historyCapacity := ← row.defaulted "history_capacity" Json.size? standard.historyCapacity
    maxDepth := ← row.defaulted "max_depth" Json.size? standard.maxDepth
    traceLevel := ← row.defaulted "trace_level" (Json.nullable? Json.string?) standard.traceLevel }

/-- The configuration of a JSON value; it has to allow at least one level. -/
def check (v : Option Json) : Except ConfigError Config :=
  match v.bind ofJson? with
  | none => .error .malformed
  | some c => if c.maxDepth = 0 then .error .zeroDepth else .ok c

/-- Reads a configuration from a JSON text. -/
def parse (s : String) : Except ConfigError Config := check (Json.parse s)

end Config

end ModeTree
