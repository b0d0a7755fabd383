import ModeTree.Event.Normalizer
import ModeTree.Hint.Projection
import ModeTree.History.Basic
import ModeTree.Session.LiveTree

/-!
# Sessions

A session runs a tree of machines for a host. A stimulus goes to the deepest machine with a transition
for it, and at equal depth to the first in the order of the walk; at most one transition acts.
-/

namespace ModeTree

universe u

/-- What came of a stimulus: nothing, an action of a state, or a move of a machine. -/
inductive Outcome where
  | dropped
  | fired (machine state action : String)
  | moved (machine source target : String)
  deriving DecidableEq, Repr

/-- A running machine with its depth and its current state. -/
structure ActiveState where
  depth : Nat
  machine : String
  state : String
  deriving DecidableEq, Repr

/-- A running interpreter. `shown` holds the views that the host's panel has been given, oldest first,
if it has one. -/
structure Session (σ : Type u) where
  tree : LiveTree
  registry : Registry σ
  normalizer : Normalizer
  history : History
  view : View
  shown : Option (List View)
  journal : Journal σ

namespace Session

variable {σ : Type u}

/-- The view of all running machines. -/
def viewOf (t : LiveTree) : View := View.project (t.outermostFirst.map fun c => c.tree.currentState)

/-- Starts a machine. -/
def start (root : Machine) (registry : Registry σ) (config : Config) (host : σ) : Session σ :=
  let (tree, journal) := LiveTree.launch registry root (.start host)
  ⟨tree, registry, .standard, .withCapacity config.historyCapacity, viewOf tree, none, journal⟩

/-- Gives the panel the current view, if there is a panel. -/
def present (s : Session σ) : Session σ :=
  { s with shown := s.shown.map (· ++ [s.view]) }

/-- Attaches a panel, which is given the current view at once. -/
def attachPanel (s : Session σ) : Session σ := { s with shown := some [s.view] }

/-- Takes another normalizer for the events to come. -/
def withNormalizer (s : Session σ) (n : Normalizer) : Session σ := { s with normalizer := n }

/-- A running machine together with its transition for a stimulus. -/
def select? (t : LiveTree) (stimulus : Stimulus) : Option (Context × Transition) :=
  t.deepestFirst.findSome? fun c =>
    (c.tree.currentState.findTransition? stimulus).map fun transition => (c, transition)

/-- Performs the action of a transition that leads nowhere. -/
def fire (s : Session σ) (c : Context) (action : String) (also : List String) :
    Outcome × Session σ :=
  (.fired c.tree.name c.tree.currentId action,
    { s with journal := s.journal.performAll s.registry (action :: also) })

/-- Moves the running machine at the path of a context to the state at a position. -/
def move (s : Session σ) (now : Instant) (stimulus : Stimulus) (c : Context) (live : LiveTree)
    (target : Nat) (also : List String) : Outcome × Session σ :=
  let (moved, journal) := live.moveTo s.registry target also s.journal
  let tree := s.tree.replace c.path moved
  -- the change is told from the context, which is as the machine was before the move
  let source := c.tree.currentId
  let reached := (c.tree.machine.stateAt target).id
  let change : ModeChange := ⟨c.tree.name, c.path.length, source, reached, stimulus.text, now⟩
  (.moved c.tree.name source reached,
    { s with tree, journal, history := s.history.record change, view := viewOf tree })

/-- Lets a transition act. An arrow without a target does nothing, and neither does one of a machine
that no longer runs at its path. -/
def act (s : Session σ) (now : Instant) (stimulus : Stimulus) (c : Context) (t : Transition) :
    Outcome × Session σ :=
  match t.kind, t.targetIndex with
  | .action name also, _ => s.fire c name also
  | .arrow _ also, some target =>
    match s.tree.descendant? c.path with
    | some live => s.move now stimulus c live target also
    | none => (.dropped, s)
  | .arrow _ _, none => (.dropped, s)

/-- Takes a stimulus, and gives the panel the view that results. -/
def dispatch (s : Session σ) (now : Instant) (stimulus : Stimulus) : Outcome × Session σ :=
  let (outcome, s) := match select? s.tree stimulus with
    | none => (Outcome.dropped, s)
    | some (c, t) => s.act now stimulus c t
  -- the panel is given a view even when nothing has changed
  (outcome, s.present)

/-- Takes an event of the host. One without a stimulus changes nothing. -/
def feed (s : Session σ) (now : Instant) (event : Event) (hit : Option Hit) : Outcome × Session σ :=
  match s.normalizer.normalize event hit with
  | some stimulus => s.dispatch now stimulus
  | none => (Outcome.dropped, s)

/-- Invokes a callback for the host itself. -/
def invoke (s : Session σ) (name : String) : InvokeOutcome × Session σ :=
  let (outcome, host) := s.registry.invoke name s.journal.host
  (outcome, { s with journal := { s.journal with host } })

/-- The running machines with their current states, in the order of the walk. -/
def activeStates (s : Session σ) : List ActiveState :=
  s.tree.walk.map fun c => ⟨c.path.length, c.tree.name, c.tree.currentId⟩

/-- Current state of the first running machine with a name. -/
def currentState? (s : Session σ) (machine : String) : Option String :=
  (s.tree.walk.find? fun c => c.tree.name == machine).map fun c => c.tree.currentId

/-- Ends the session: leaves the whole tree. -/
def stop (s : Session σ) : Journal σ := s.tree.leave s.registry s.journal

end Session

end ModeTree
