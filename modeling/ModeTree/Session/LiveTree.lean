import ModeTree.Action.Journal
import ModeTree.Machine.Basic

/-!
# Live trees

The machines that run: each with its current state, and with the machines of that state below it. To
launch a machine performs the entry actions from the outside in, to leave a tree performs the exit
actions from the inside out.
-/

namespace ModeTree

universe u

/-- A running machine, the position of its current state, and the machines that run in that state. -/
structure LiveTree where
  machine : Machine
  current : Nat
  children : List LiveTree
  deriving Inhabited, Repr

/-- A running machine and the way to it from the root: the position of a child at each level. -/
structure Context where
  path : List Nat
  tree : LiveTree
  deriving Repr

namespace LiveTree

variable {σ : Type u}

/-- The name of the running machine. -/
def name (t : LiveTree) : String := t.machine.name

/-- The state that the machine is in. -/
def currentState (t : LiveTree) : State Transition Machine := t.machine.stateAt t.current

/-- The id of the state that the machine is in. -/
def currentId (t : LiveTree) : String := t.currentState.id

/-- The tree at the end of a path. -/
def descendant? : LiveTree → List Nat → Option LiveTree
  | t, [] => some t
  | t, index :: path =>
    match t.children[index]? with
    | none => none
    | some child => child.descendant? path

/-- The tree with another one at the end of a path. -/
def replace : LiveTree → List Nat → LiveTree → LiveTree
  | _, [], new => new
  | t, index :: path, new =>
    { t with children := t.children.modify index fun c => replace c path new }

mutual

/-- The running machines, each before those below it and children in order. -/
def walkFrom (path : List Nat) : LiveTree → List Context
  | ⟨machine, current, children⟩ =>
    ⟨path, ⟨machine, current, children⟩⟩ :: walkChildren path 0 children

/-- The same for the children of the machine at a path, from a position on. -/
def walkChildren (path : List Nat) (index : Nat) : List LiveTree → List Context
  | [] => []
  | child :: rest => walkFrom (path ++ [index]) child ++ walkChildren path (index + 1) rest

end

/-- All running machines with their paths. -/
def walk (t : LiveTree) : List Context := t.walkFrom []

mutual

/-- Number of levels. -/
def height : LiveTree → Nat
  | ⟨_, _, children⟩ => 1 + heightOfAll children

/-- Number of levels of the highest of some trees. -/
def heightOfAll : List LiveTree → Nat
  | [] => 0
  | child :: rest => max (height child) (heightOfAll rest)

end

/-- The running machines at one depth, in the order of the walk. -/
def atDepth (t : LiveTree) (depth : Nat) : List Context :=
  t.walk.filter fun c => c.path.length == depth

/-- The running machines, level by level from the root. -/
def outermostFirst (t : LiveTree) : List Context := (List.range t.height).flatMap t.atDepth

/-- The running machines, level by level towards the root. -/
def deepestFirst (t : LiveTree) : List Context := (List.range t.height).reverse.flatMap t.atDepth

mutual

/-- Starts a machine: enters its start state. -/
def launch (r : Registry σ) : Machine → Journal σ → LiveTree × Journal σ
  | ⟨name, start, states⟩, j =>
    let (children, j) := enterAt r states start j
    (⟨⟨name, start, states⟩, start, children⟩, j)

/-- Enters the state at a position. -/
def enterAt (r : Registry σ) :
    List (State Transition Machine) → Nat → Journal σ → List LiveTree × Journal σ
  | [], _, j => ([], j)
  | state :: _, 0, j => enter r state j
  | _ :: rest, index + 1, j => enterAt r rest index j

/-- Enters a state: performs its entry actions, then starts the machines in it. -/
def enter (r : Registry σ) : State Transition Machine → Journal σ → List LiveTree × Journal σ
  | ⟨_, actions, _, _, subs, _, _⟩, j => launchAll r subs (j.performAll r actions)

/-- Starts machines one after the other. -/
def launchAll (r : Registry σ) : List Machine → Journal σ → List LiveTree × Journal σ
  | [], j => ([], j)
  | m :: rest, j =>
    let (t, j) := launch r m j
    let (ts, j) := launchAll r rest j
    (t :: ts, j)

end

mutual

/-- Leaves a tree: leaves the children in order, then performs the exit actions of the current
state. -/
def leave (r : Registry σ) : LiveTree → Journal σ → Journal σ
  | ⟨machine, current, children⟩, j =>
    (leaveAll r children j).performAll r (machine.stateAt current).exit

/-- Leaves trees one after the other. -/
def leaveAll (r : Registry σ) : List LiveTree → Journal σ → Journal σ
  | [], j => j
  | child :: rest, j => leaveAll r rest (leave r child j)

end

/-- Moves to another state of the machine: leaves the tree, performs the arrow's actions and enters the
target. -/
def moveTo (r : Registry σ) (t : LiveTree) (target : Nat) (also : List String) (j : Journal σ) :
    LiveTree × Journal σ :=
  -- the arrow's own actions stand between the last exit and the first entry
  let j := (t.leave r j).performAll r also
  let (children, j) := enter r (t.machine.stateAt target) j
  (⟨t.machine, target, children⟩, j)

end LiveTree

end ModeTree
