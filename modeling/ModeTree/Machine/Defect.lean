import ModeTree.Stimulus.Parser
import ModeTree.Text.Split

/-!
# Defects

What may be wrong with a definition, each defect with the place where it stands.
-/

namespace ModeTree

/-- A defect of a draft or of a document. It names the machine where it stands, and the state if there is one. -/
inductive Defect where
  | noStates (machine : String)
  | missingStart (machine : String)
  | unknownStart (machine start : String)
  | duplicateState (machine state : String)
  | danglingTarget (machine state target : String)
  | badStimulus (machine state text : String) (cause : ParseError)
  | noStimuli (machine state transition : String)
  | ambiguousTransition (machine state : String) (index : Nat)
  | unknownSubMachine (machine state subMachine : String)
  | cyclicSubMachines (cycle : List String)
  | tooDeep (machine : String) (depth limit : Nat)
  | unknownRoot (root : String)
  deriving DecidableEq, Repr

namespace Defect

/-- How a message names a machine. -/
def inMachine (machine : String) : String := "machine '" ++ machine ++ "'"

/-- How a message begins that is about a state. -/
def inState (machine state : String) : String := inMachine machine ++ ", state '" ++ state ++ "': "

/-- The wording of a defect. -/
def message : Defect → String
  | noStates machine => inMachine machine ++ " has no states"
  | missingStart machine =>
    inMachine machine ++ " has no start state. Call .start(id) before .build()"
  | unknownStart machine start => inMachine machine ++ " starts in unknown state '" ++ start ++ "'"
  | duplicateState machine state =>
    inMachine machine ++ " declares state '" ++ state ++ "' more than once"
  | danglingTarget machine state target =>
    inState machine state ++ "transition targets unknown state '" ++ target ++ "'"
  | badStimulus machine state text cause =>
    inState machine state ++ "bad stimulus '" ++ text ++ "': " ++ cause.message
  | noStimuli machine state transition =>
    inState machine state ++ "transition '" ++ transition ++ "' has no stimuli"
  | ambiguousTransition machine state index =>
    inState machine state ++ "transition #" ++ toString index ++
      " must set exactly one of 'to' or 'action'"
  | unknownSubMachine machine state sub =>
    inState machine state ++ "unknown sub-machine '" ++ sub ++ "'"
  | cyclicSubMachines cycle => "cyclic sub-machine reference: " ++ Text.joinWith " -> " cycle
  | tooDeep machine depth limit =>
    inMachine machine ++ " nests " ++ toString depth ++ " levels deep (limit " ++ toString limit ++ ")"
  | unknownRoot root => "root machine '" ++ root ++ "' is not defined"

/-- The wording of a list of defects. -/
def report (defects : List Defect) : String :=
  "invalid machine definition (" ++ toString defects.length ++ " violation(s)): " ++
    Text.joinWith "; " (defects.map message)

end Defect

end ModeTree
