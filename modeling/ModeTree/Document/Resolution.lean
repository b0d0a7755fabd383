import ModeTree.Document.Basic
import ModeTree.Machine.Draft

/-!
# Resolving documents

Every machine of a document is built once, after the machines that its states refer to. A machine that
refers to itself on some way, and one with a defect, is not built; the defects of all machines are
collected. `Document.load` gives the machines when there are none.
-/

namespace ModeTree

/-- The machines of a document, and the one that a session runs. -/
structure MachineSet where
  root : Machine
  machines : NameTable Machine

/-- What has come of a document so far. -/
structure Resolution where
  built : NameTable Machine
  failed : List String
  defects : List Defect

namespace Resolution

/-- Before any machine has been tried. -/
def empty : Resolution := ⟨.empty, [], []⟩

/-- Notes defects behind those noted so far. -/
def report (r : Resolution) (defects : List Defect) : Resolution :=
  { r with defects := r.defects ++ defects }

/-- Notes how a machine came out. -/
def settle (r : Resolution) (name : String) : Option Machine → Resolution
  | some m => { r with built := r.built.insert name m }
  | none => { r with failed := name :: r.failed }

/-- The machine of a name, if there is one, and what has come of the document then. -/
abbrev Lookup := String → Resolution → Option Machine × Resolution

/-- The machines that a state refers to, in order; none if one of them is unknown or not built. The
others are looked up all the same. -/
def subMachines (lookup : Lookup) (known : String → Bool) (machine state : String) :
    List String → Resolution → Option (List Machine) × Resolution
  | [], r => (some [], r)
  | name :: names, r =>
    let (found, r) :=
      if known name then lookup name r else (none, r.report [.unknownSubMachine machine state name])
    -- one that fails does not keep the others from being looked up
    let (others, r) := subMachines lookup known machine state names r
    (found.bind fun m => others.map (m :: ·), r)

/-- The kind of a written transition, which sets exactly one of its target and its action. -/
def kind? (t : TransitionEntry) : Option TransitionKind :=
  match t.target, t.action with
  | some target, none => some (.arrow target t.also)
  | none, some action => some (.action action t.also)
  | _, _ => none

/-- The draft of a written transition, if it has a kind. -/
def transition? (t : TransitionEntry) : Option TransitionDraft :=
  (kind? t).map fun kind => ⟨kind, t.on, ⟨t.label, t.help⟩⟩

/-- A defect for each transition without a kind. -/
def ambiguities (machine state : String) (index : Nat) : List TransitionEntry → List Defect
  | [] => []
  | t :: ts =>
    (if (kind? t).isNone then [.ambiguousTransition machine state index] else []) ++
      ambiguities machine state (index + 1) ts

/-- The draft of a state, once the machines in it have been looked up. -/
def state (lookup : Lookup) (known : String → Bool) (machine : String) (id : String)
    (entry : StateEntry) (r : Resolution) : Option StateDraft × Resolution :=
  let (subs, r) := subMachines lookup known machine id entry.subMachines r
  -- these defects come after those of the machines in the state
  let r := r.report (ambiguities machine id 0 entry.transitions)
  (do
    let subs ← subs
    let transitions ← entry.transitions.mapM transition?
    some ⟨id, entry.enter, entry.exit, transitions, subs, entry.hint, entry.description⟩, r)

/-- The drafts of states in order; none if one of them has none. -/
def states (lookup : Lookup) (known : String → Bool) (machine : String) :
    List (String × StateEntry) → Resolution → Option (List StateDraft) × Resolution
  | [], r => (some [], r)
  | (id, entry) :: rest, r =>
    let (draft, r) := state lookup known machine id entry r
    let (drafts, r) := states lookup known machine rest r
    (draft.bind fun d => drafts.map (d :: ·), r)

/-- Builds the machine of an entry. A machine whose states have drafts may still have defects. -/
def machine (lookup : Lookup) (known : String → Bool) (maxDepth : Nat) (name : String)
    (entry : MachineEntry) (r : Resolution) : Option Machine × Resolution :=
  match states lookup known name entry.states.entries r with
  | (none, r) => (none, r)
  | (some drafts, r) =>
    match MachineDraft.build ⟨name, some entry.start, drafts, maxDepth⟩ with
    | .ok m => (some m, r)
    | .error defects => (none, r.report defects)

/-- Looks a machine up and builds it if that has not been tried. `trail` holds the machines that are
being built, outermost first: to meet one of them again is a cycle. Every level opens another machine,
so that as many levels as there are machines, and one more, are enough. -/
def resolve (machines : NameTable MachineEntry) (maxDepth : Nat) :
    (levels : Nat) → (trail : List String) → Lookup
  | 0, _, _, r => (none, r)
  | levels + 1, trail, name, r =>
    match r.built.get? name with
    | some m => (some m, r)
    | none =>
      if r.failed.contains name then (none, r)
      -- the cycle is the end of the trail, from the first time the name stood there
      else if trail.contains name then
        (none, r.report [.cyclicSubMachines ((trail.dropWhile (· != name)) ++ [name])])
      else
        match machines.get? name with
        | none => (none, r)
        | some entry =>
          let (found, r) := machine (resolve machines maxDepth levels (trail ++ [name]))
            machines.contains maxDepth name entry r
          (found, r.settle name found)

/-- Resolves machines one after another. -/
def resolveAll (machines : NameTable MachineEntry) (maxDepth : Nat) :
    List String → Resolution → Resolution
  | [], r => r
  | name :: names, r =>
    resolveAll machines maxDepth names (resolve machines maxDepth (machines.size + 1) [] name r).2

end Resolution

namespace Document

/-- What comes of all machines of a document, taken in the order of their names. -/
def resolution (d : Document) (maxDepth : Nat) : Resolution :=
  let r := Resolution.resolveAll d.machines maxDepth d.machines.names .empty
  if d.machines.contains d.root then r else r.report [.unknownRoot d.root]

/-- The machines of a document without defects. -/
def load (d : Document) (maxDepth : Nat) : Except (List Defect) MachineSet :=
  let r := d.resolution maxDepth
  match r.built.get? d.root, r.defects with
  | some root, [] => .ok ⟨root, r.built⟩
  | _, defects => .error defects

end Document

end ModeTree
