import ModeTree.Proofs.Machine.Draft
import ModeTree.Proofs.Tree.Walk

/-!
# Launching and leaving

To launch a machine gives a tree that depends on the machine alone (`fresh`) and performs the entry
actions of that tree in the order of the walk; to leave a tree performs its exit actions with every
machine after those below it (`closeFrom`). `launch_eq`, `leave_eq` and `moveTo_eq` say so: what a tree
operation does to the journal is one list of names, whatever the callbacks do.
-/

set_option autoImplicit false

namespace ModeTree

universe u

namespace LiveTree

variable {σ : Type u}

mutual

/-- The tree of a machine that has just been launched. -/
def fresh : Machine → LiveTree
  | ⟨name, start, states⟩ => ⟨⟨name, start, states⟩, start, freshAt states start⟩

/-- The trees of the machines in the state at a position, just launched. -/
def freshAt : List (State Transition Machine) → Nat → List LiveTree
  | [], _ => []
  | state :: _, 0 => freshIn state
  | _ :: rest, index + 1 => freshAt rest index

/-- The trees of the machines in a state, just launched. -/
def freshIn : State Transition Machine → List LiveTree
  | ⟨_, _, _, _, subs, _, _⟩ => freshAll subs

/-- The trees of some machines, just launched. -/
def freshAll : List Machine → List LiveTree
  | [] => []
  | m :: rest => fresh m :: freshAll rest

end

/-- A machine in the state at a position, with the machines of that state just launched. -/
def inState (m : Machine) (index : Nat) : LiveTree :=
  ⟨m, index, (m.stateAt index).subMachines.map fresh⟩

mutual

/-- The running machines, each after those below it and children in order. -/
def closeFrom (path : List Nat) : LiveTree → List Context
  | ⟨machine, current, children⟩ =>
    closeChildren path 0 children ++ [⟨path, ⟨machine, current, children⟩⟩]

/-- The same for the children of the machine at a path, from a position on. -/
def closeChildren (path : List Nat) (index : Nat) : List LiveTree → List Context
  | [] => []
  | child :: rest => closeFrom (path ++ [index]) child ++ closeChildren path (index + 1) rest

end

/-- The entry actions of running machines, in order. -/
def entryActions (contexts : List Context) : List String :=
  contexts.flatMap fun c => c.tree.currentState.enter

/-- The exit actions of running machines, in order. -/
def exitActions (contexts : List Context) : List String :=
  contexts.flatMap fun c => c.tree.currentState.exit

@[simp] theorem entryActions_append (cs ds : List Context) :
    entryActions (cs ++ ds) = entryActions cs ++ entryActions ds := List.flatMap_append

@[simp] theorem exitActions_append (cs ds : List Context) :
    exitActions (cs ++ ds) = exitActions cs ++ exitActions ds := List.flatMap_append

@[simp] theorem machine_inState (m : Machine) (index : Nat) : (inState m index).machine = m := rfl

@[simp] theorem current_inState (m : Machine) (index : Nat) : (inState m index).current = index := rfl

/-! ## Fresh trees -/

theorem freshAll_eq_map (ms : List Machine) : freshAll ms = ms.map fresh := by
  induction ms with
  | nil => rfl
  | cons m ms ih => rw [freshAll, ih, List.map_cons]

theorem freshIn_eq_map (s : State Transition Machine) : freshIn s = s.subMachines.map fresh := by
  cases s
  rw [freshIn, freshAll_eq_map]

theorem freshAt_eq (states : List (State Transition Machine)) (index : Nat) :
    freshAt states index = freshIn (states.getD index default) := by
  apply Machine.eq_getD_of_descent
  · intro index
    rw [freshAt]
    rfl
  · intro s rest
    rw [freshAt]
  · intro s rest index
    rw [freshAt]

theorem fresh_eq_inState (m : Machine) : fresh m = inState m m.start := by
  cases m
  rw [fresh, freshAt_eq, freshIn_eq_map]
  rfl

/-! ## Walks that begin at a path -/

theorem walkFrom_eq (path : List Nat) (t : LiveTree) :
    t.walkFrom path = ⟨path, t⟩ :: walkChildren path 0 t.children := by
  cases t
  rw [walkFrom]

/-! ## Effects on the journal -/

theorem enterAt_eq (r : Registry σ) (states : List (State Transition Machine)) (index : Nat)
    (j : Journal σ) : enterAt r states index j = enter r (states.getD index default) j := by
  apply Machine.eq_getD_of_descent (f := fun states index => enterAt r states index j)
    (g := fun s => enter r s j)
  · intro index
    rw [enterAt]
    rfl
  · intro s rest
    rw [enterAt]
  · intro s rest index
    rw [enterAt]

theorem enter_eq_launchAll (r : Registry σ) (s : State Transition Machine) (j : Journal σ) :
    enter r s j = launchAll r s.subMachines (j.performAll r s.enter) := by
  cases s
  rw [enter]

theorem launch_eq_enter (r : Registry σ) (m : Machine) (j : Journal σ) :
    launch r m j = (⟨m, m.start, (enter r m.startState j).1⟩, (enter r m.startState j).2) := by
  cases m
  rw [launch, enterAt_eq]
  rfl

theorem launchAll_eq {r : Registry σ} {ms : List Machine}
    (ih : ∀ m ∈ ms, ∀ path j,
      launch r m j = (fresh m, j.performAll r (entryActions ((fresh m).walkFrom path))))
    (path : List Nat) (index : Nat) (j : Journal σ) :
    launchAll r ms j =
      (ms.map fresh, j.performAll r (entryActions (walkChildren path index (ms.map fresh)))) := by
  induction ms generalizing index j with
  | nil => rfl
  | cons m ms ihms =>
      -- what the first machine performs goes before what the others do
      have hfirst := ih m List.mem_cons_self (path ++ [index]) j
      have hrest := ihms (fun n hn => ih n (List.mem_cons_of_mem _ hn)) (index + 1)
      rw [launchAll, hfirst]
      simp only [hrest, List.map_cons, walkChildren, entryActions_append, Journal.performAll_append]

theorem launch_eq (r : Registry σ) (m : Machine) (path : List Nat) (j : Journal σ) :
    launch r m j = (fresh m, j.performAll r (entryActions ((fresh m).walkFrom path))) := by
  induction m using Machine.induction generalizing path j with
  | nest m ih =>
      have hall : ∀ sub ∈ m.startState.subMachines, ∀ path j,
          launch r sub j = (fresh sub, j.performAll r (entryActions ((fresh sub).walkFrom path))) := by
        intro sub hsub
        exact ih m.startState (Machine.stateAt_mem_of_sub hsub) sub hsub
      rw [launch_eq_enter, enter_eq_launchAll, launchAll_eq hall path 0, fresh_eq_inState, walkFrom_eq]
      refine Prod.ext rfl ?_
      show (j.performAll r m.startState.enter).performAll r _ = j.performAll r (m.startState.enter ++ _)
      rw [Journal.performAll_append]
      rfl

theorem enter_eq (r : Registry σ) (m : Machine) (index : Nat) (path : List Nat) (j : Journal σ) :
    enter r (m.stateAt index) j =
      ((inState m index).children,
        j.performAll r (entryActions ((inState m index).walkFrom path))) := by
  rw [enter_eq_launchAll, launchAll_eq (fun sub _ => launch_eq r sub) path 0, walkFrom_eq]
  refine Prod.ext rfl ?_
  show (j.performAll r (m.stateAt index).enter).performAll r _ =
    j.performAll r ((m.stateAt index).enter ++ _)
  rw [Journal.performAll_append]
  rfl

theorem leaveAll_eq {r : Registry σ} {ts : List LiveTree}
    (ih : ∀ t ∈ ts, ∀ path j, leave r t j = j.performAll r (exitActions (t.closeFrom path)))
    (path : List Nat) (index : Nat) (j : Journal σ) :
    leaveAll r ts j = j.performAll r (exitActions (closeChildren path index ts)) := by
  induction ts generalizing index j with
  | nil => rfl
  | cons t ts ihts =>
      rw [leaveAll, ih t List.mem_cons_self (path ++ [index]),
        ihts (fun u hu => ih u (List.mem_cons_of_mem _ hu)) (index + 1), closeChildren,
        exitActions_append, Journal.performAll_append]

theorem leave_eq (r : Registry σ) (t : LiveTree) (path : List Nat) (j : Journal σ) :
    leave r t j = j.performAll r (exitActions (t.closeFrom path)) := by
  induction t using LiveTree.induction generalizing path j with
  | node machine current children ih =>
      rw [leave, leaveAll_eq ih path 0, closeFrom, exitActions_append, Journal.performAll_append]
      simp [exitActions, currentState]

/-- A move performs the exit actions, the arrow's own and the entry actions, and starts everything in
the target afresh. -/
theorem moveTo_eq (r : Registry σ) (t : LiveTree) (target : Nat) (also : List String)
    (path : List Nat) (j : Journal σ) :
    moveTo r t target also j =
      (inState t.machine target,
        j.performAll r (exitActions (t.closeFrom path) ++ also ++
          entryActions ((inState t.machine target).walkFrom path))) := by
  rw [moveTo, leave_eq r t path j, Journal.performAll_append, Journal.performAll_append]
  simp only [enter_eq r t.machine target path]
  rfl

end LiveTree

end ModeTree
