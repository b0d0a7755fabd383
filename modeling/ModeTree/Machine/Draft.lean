import ModeTree.Config
import ModeTree.Machine.Basic
import ModeTree.Machine.Defect

/-!
# Drafts of machines

A draft names its start and the targets of its arrows by the ids of states, and gives stimuli as
texts. `MachineDraft.build` makes a machine of it, or answers with all of its defects.
-/

namespace ModeTree

/-- A transition of a draft; its stimuli are texts, and nothing is checked yet. -/
structure TransitionDraft where
  kind : TransitionKind
  stimuli : List String
  hint : Hint := .empty
  deriving DecidableEq, Repr

/-- A state of a draft; the machines in it are built already. -/
abbrev StateDraft := State TransitionDraft Machine

/-- A machine that is still to be checked, with the id of its start, if it has one, and how deep it may nest. -/
structure MachineDraft where
  name : String
  start : Option String
  states : List StateDraft
  maxDepth : Nat := ({} : Config).maxDepth

namespace MachineDraft

/-- The ids of the states in order. -/
def ids (d : MachineDraft) : List String := d.states.map (·.id)

/-- Position of the first state with an id. -/
def indexOf? (d : MachineDraft) (id : String) : Option Nat := d.states.findIdx? fun s => s.id == id

/-- Number of levels of the machine. -/
def depth (d : MachineDraft) : Nat :=
  1 + ((d.states.flatMap (·.subMachines)).map Machine.depth).foldl max 0

/-- The start has to be given and to be a state. Without states it cannot be one, which is a defect of
its own. -/
def startDefects (d : MachineDraft) : List Defect :=
  match d.start with
  | none => [.missingStart d.name]
  | some start =>
    if d.states.isEmpty || d.ids.contains start then [] else [.unknownStart d.name start]

/-- The ids that stand more than once, each where it stands for the second time. -/
def repeatedIds (seen : List String) : List String → List String
  | [] => []
  | id :: rest =>
    if seen.count id = 1 then id :: repeatedIds (id :: seen) rest else repeatedIds (id :: seen) rest

/-- A defect for a text that is no stimulus. -/
def stimulusDefect? (machine state text : String) : Option Defect :=
  match Stimulus.parse text with
  | .ok _ => none
  | .error cause => some (.badStimulus machine state text cause)

/-- Every transition needs a stimulus, every stimulus has to be well formed, and an arrow has to lead
to a state. -/
def transitionDefects (d : MachineDraft) (state : String) (t : TransitionDraft) : List Defect :=
  (if t.stimuli.isEmpty then [.noStimuli d.name state t.kind.key] else []) ++
    t.stimuli.filterMap (stimulusDefect? d.name state) ++
    -- only an arrow has a target
    match t.kind.target? with
    | none => []
    | some target =>
      if d.ids.contains target then [] else [.danglingTarget d.name state target]

/-- All defects of a draft: of the machine as a whole, of its states in order, and of its depth. -/
def defects (d : MachineDraft) : List Defect :=
  (if d.states.isEmpty then [.noStates d.name] else []) ++
    d.startDefects ++
    (repeatedIds [] d.ids).map (.duplicateState d.name) ++
    (d.states.flatMap fun s => s.transitions.flatMap (d.transitionDefects s.id)) ++
    (if d.maxDepth < d.depth then [.tooDeep d.name d.depth d.maxDepth] else [])

/-- A transition with its stimuli read and its target found; what cannot be read or found is left out. -/
def buildTransition (d : MachineDraft) (t : TransitionDraft) : Transition :=
  ⟨t.kind, t.stimuli.filterMap fun s => (Stimulus.parse s).toOption, t.hint,
    t.kind.target?.bind d.indexOf?⟩

/-- A state with its transitions built. -/
def buildState (d : MachineDraft) (s : StateDraft) : State Transition Machine :=
  ⟨s.id, s.enter, s.exit, s.transitions.map d.buildTransition, s.subMachines, s.hintMode,
    s.description⟩

/-- The machine of a draft without defects. -/
def build (d : MachineDraft) : Except (List Defect) Machine :=
  match d.defects with
  | [] => .ok ⟨d.name, (d.start.bind d.indexOf?).getD 0, d.states.map d.buildState⟩
  | defects => .error defects

end MachineDraft

end ModeTree
