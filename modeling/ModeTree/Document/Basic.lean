import ModeTree.Hint.Basic
import ModeTree.NameTable

/-!
# Definition documents

A document names every machine, and a state refers to the machines in it by name, so that one machine
can be shared by many states. Nothing in a document is checked yet.
-/

namespace ModeTree

/-- A transition as written: either the state it leads to or the action it performs should be set. -/
structure TransitionEntry where
  target : Option String := none
  action : Option String := none
  also : List String := []
  on : List String := []
  label : Option Label := none
  help : Option String := none
  deriving DecidableEq, Repr

/-- A state as written, with the names of the machines in it. -/
structure StateEntry where
  enter : List String := []
  exit : List String := []
  subMachines : List String := []
  hint : HintMode := .inherit
  description : Option String := none
  transitions : List TransitionEntry := []
  deriving DecidableEq, Repr

/-- A machine as written: the id of its start, and its states by id. -/
structure MachineEntry where
  start : String
  states : NameTable StateEntry
  deriving DecidableEq, Repr

/-- Machines by name, and the name of the one that a session runs. -/
structure Document where
  root : String
  machines : NameTable MachineEntry
  deriving DecidableEq, Repr

end ModeTree
