import ModeTree.Document.Codec
import ModeTree.Document.Resolution

/-!
# Reading machine sets
-/

namespace ModeTree

/-- Why a text gives no machines. -/
inductive LoadError where
  | malformed
  | invalid (defects : List Defect)
  deriving DecidableEq, Repr

/-- The machines of a JSON text. -/
def MachineSet.parse (s : String) (config : Config) : Except LoadError MachineSet :=
  match (Json.parse s).bind Document.ofJson? with
  | none => .error .malformed
  | some d =>
    match d.load config.maxDepth with
    | .ok set => .ok set
    | .error defects => .error (.invalid defects)

end ModeTree
