import ModeTree.Hint.Basic
import ModeTree.NameTable
import ModeTree.Stimulus.Basic

/-!
# Machines

A machine has named states, one of which it starts in. A state may hold further machines that run
while it is active, and its transitions either lead to another state of its machine or only perform an
action.
-/

namespace ModeTree

/-- Where a transition leads: to a state, or nowhere. In both cases it may perform further actions. -/
inductive TransitionKind where
  | arrow (target : String) (also : List String)
  | action (name : String) (also : List String)
  deriving DecidableEq, Repr

namespace TransitionKind

/-- The state that an arrow leads to. -/
def target? : TransitionKind → Option String
  | arrow target _ => some target
  | action _ _ => none

/-- The further actions, in order. -/
def also : TransitionKind → List String
  | arrow _ also => also
  | action _ also => also

/-- The actions that the transition itself performs, in order. -/
def actions : TransitionKind → List String
  | arrow _ also => also
  | action name also => name :: also

/-- Short description in messages. -/
def key : TransitionKind → String
  | arrow target _ => "-> " ++ target
  | action name _ => name

end TransitionKind

/-- A transition with its patterns. `targetIndex` is the position of the state an arrow leads to. -/
structure Transition where
  kind : TransitionKind
  stimuli : List Stimulus
  hint : Hint
  targetIndex : Option Nat
  deriving DecidableEq, Repr

/-- Whether one of the patterns matches an occurrence. -/
def Transition.matchesStimulus (t : Transition) (s : Stimulus) : Bool :=
  t.stimuli.any fun pattern => pattern.matchesStimulus s

/-- A state with transitions in `τ` and machines in `μ`. -/
structure State (τ μ : Type) where
  id : String
  enter : List String
  exit : List String
  transitions : List τ
  subMachines : List μ
  hintMode : HintMode
  description : Option String
  deriving Repr

namespace State

variable {τ μ : Type}

/-- A state without actions, transitions and machines. -/
def named (id : String) : State τ μ := ⟨id, [], [], [], [], .inherit, none⟩

instance : Inhabited (State τ μ) := ⟨named ""⟩

/-- The first transition that matches an occurrence. -/
def findTransition? (state : State Transition μ) (s : Stimulus) : Option Transition :=
  state.transitions.find? fun t => t.matchesStimulus s

/-- The actions of a state itself: on entry, on exit, and of its transitions. -/
def ownActions (state : State Transition μ) : List String :=
  state.enter ++ state.exit ++ state.transitions.flatMap fun t => t.kind.actions

end State

/-- A machine: its name, the position of its start, and its states in order. -/
structure Machine where
  name : String
  start : Nat
  states : List (State Transition Machine)
  deriving Inhabited, Repr

namespace Machine

/-- The state at a position. -/
def stateAt (m : Machine) (index : Nat) : State Transition Machine := m.states.getD index default

/-- The state that a machine starts in. -/
def startState (m : Machine) : State Transition Machine := m.stateAt m.start

/-- The first state with a given id. -/
def state? (m : Machine) (id : String) : Option (State Transition Machine) :=
  m.states.find? fun s => s.id == id

/-- Whether there is a state with a given id. -/
def containsState (m : Machine) (id : String) : Bool := (m.state? id).isSome

mutual

/-- Number of levels: the machine itself and the deepest machine in one of its states. -/
def depth : Machine → Nat
  | ⟨_, _, states⟩ => 1 + depthOfStates states

/-- Number of levels below a machine with the given states. -/
def depthOfStates : List (State Transition Machine) → Nat
  | [] => 0
  | state :: rest => max (depthOfState state) (depthOfStates rest)

/-- Number of levels in a state. -/
def depthOfState : State Transition Machine → Nat
  | ⟨_, _, _, _, subs, _, _⟩ => depthOfMachines subs

/-- Depth of the deepest of some machines. -/
def depthOfMachines : List Machine → Nat
  | [] => 0
  | m :: rest => max (depth m) (depthOfMachines rest)

end

mutual

/-- Every action that occurs in a machine or in one of its states' machines. -/
def actions : Machine → List String
  | ⟨_, _, states⟩ => actionsOfStates states

/-- Every action that occurs in some states. -/
def actionsOfStates : List (State Transition Machine) → List String
  | [] => []
  | state :: rest => actionsOfState state ++ actionsOfStates rest

/-- Every action that occurs in a state: its own, then those of the machines in it. -/
def actionsOfState : State Transition Machine → List String
  | ⟨id, enter, exit, transitions, subs, hint, description⟩ =>
    State.ownActions (μ := Machine) ⟨id, enter, exit, transitions, [], hint, description⟩ ++
      actionsOfMachines subs

/-- Every action that occurs in some machines. -/
def actionsOfMachines : List Machine → List String
  | [] => []
  | m :: rest => actions m ++ actionsOfMachines rest

end

/-- The names of all actions in ascending order. -/
def actionNames (m : Machine) : List String :=
  (NameTable.ofList (m.actions.map fun a => (a, ()))).names

end Machine

end ModeTree
