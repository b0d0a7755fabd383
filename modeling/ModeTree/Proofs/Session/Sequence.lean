import ModeTree.Proofs.Session.Run

/-!
# The order of actions

What a stimulus performs, name by name. To leave a tree is to leave the children in order and then to
perform the exit actions of the current state; to launch a machine is to perform the entry actions of its
start state and then to launch the machines in it. `exitSequence` and `entrySequence` say so without a
journal, and `dispatch_performs` gives the names that one dispatch hands to the registry: none, an action
with those that go with it, or the exits, the arrow's own actions and the entries of a move.
-/

set_option autoImplicit false

namespace ModeTree

universe u

namespace LiveTree

mutual

/-- The exit actions of a tree, from the inside out. -/
def exitSequence : LiveTree → List String
  | ⟨machine, current, children⟩ => exitSequenceOfAll children ++ (machine.stateAt current).exit

/-- The exit actions of some trees, one after the other. -/
def exitSequenceOfAll : List LiveTree → List String
  | [] => []
  | child :: rest => exitSequence child ++ exitSequenceOfAll rest

end

theorem exitSequenceOfAll_eq_flatMap (ts : List LiveTree) :
    exitSequenceOfAll ts = ts.flatMap exitSequence := by
  induction ts with
  | nil => rfl
  | cons t ts ih => rw [exitSequenceOfAll, ih, List.flatMap_cons]

theorem exitSequence_eq (t : LiveTree) :
    t.exitSequence = t.children.flatMap exitSequence ++ t.currentState.exit := by
  cases t
  rw [exitSequence, exitSequenceOfAll_eq_flatMap]
  rfl

theorem exitActions_closeChildren {ts : List LiveTree}
    (ih : ∀ t ∈ ts, ∀ path, exitActions (t.closeFrom path) = t.exitSequence) (path : List Nat)
    (index : Nat) : exitActions (closeChildren path index ts) = ts.flatMap exitSequence := by
  induction ts generalizing index with
  | nil => rfl
  | cons t ts ihts =>
      have hrest := ihts (fun u hu => ih u (List.mem_cons_of_mem _ hu)) (index + 1)
      rw [closeChildren, exitActions_append, ih t List.mem_cons_self, hrest, List.flatMap_cons]

/-- The exit actions do not depend on where a tree stands. -/
theorem exitActions_closeFrom (t : LiveTree) (path : List Nat) :
    exitActions (t.closeFrom path) = t.exitSequence := by
  induction t using LiveTree.induction generalizing path with
  | node machine current children ih =>
      rw [closeFrom, exitActions_append, exitActions_closeChildren ih path 0, exitSequence_eq]
      simp [exitActions, currentState]

end LiveTree

namespace Machine

mutual

/-- The entry actions of a machine that is launched, from the outside in. -/
def entrySequence : Machine → List String
  | ⟨_, start, states⟩ => entrySequenceAt states start

/-- The entry actions of the state at a position, and of the machines in it. -/
def entrySequenceAt : List (State Transition Machine) → Nat → List String
  | [], _ => []
  | state :: _, 0 => entrySequenceOfState state
  | _ :: rest, index + 1 => entrySequenceAt rest index

/-- The entry actions of a state, then those of the machines in it. -/
def entrySequenceOfState : State Transition Machine → List String
  | ⟨_, enter, _, _, subs, _, _⟩ => enter ++ entrySequenceOfAll subs

/-- The entry actions of some machines, one after the other. -/
def entrySequenceOfAll : List Machine → List String
  | [] => []
  | m :: rest => entrySequence m ++ entrySequenceOfAll rest

end

theorem entrySequenceOfAll_eq_flatMap (ms : List Machine) :
    entrySequenceOfAll ms = ms.flatMap entrySequence := by
  induction ms with
  | nil => rfl
  | cons m ms ih => rw [entrySequenceOfAll, ih, List.flatMap_cons]

theorem entrySequenceOfState_eq (s : State Transition Machine) :
    entrySequenceOfState s = s.enter ++ s.subMachines.flatMap entrySequence := by
  cases s
  rw [entrySequenceOfState, entrySequenceOfAll_eq_flatMap]

theorem entrySequenceAt_eq (states : List (State Transition Machine)) (index : Nat) :
    entrySequenceAt states index = entrySequenceOfState (states.getD index default) := by
  apply eq_getD_of_descent
  · intro index
    rw [entrySequenceAt]
    rfl
  · intro s rest
    rw [entrySequenceAt]
  · intro s rest index
    rw [entrySequenceAt]

theorem entrySequence_eq (m : Machine) :
    m.entrySequence = m.startState.enter ++ m.startState.subMachines.flatMap entrySequence := by
  cases m
  rw [entrySequence, entrySequenceAt_eq, entrySequenceOfState_eq]
  rfl

end Machine

namespace LiveTree

theorem entryActions_walkChildren {ms : List Machine}
    (ih : ∀ m ∈ ms, ∀ path, entryActions ((fresh m).walkFrom path) = m.entrySequence)
    (path : List Nat) (index : Nat) :
    entryActions (walkChildren path index (ms.map fresh)) = ms.flatMap Machine.entrySequence := by
  induction ms generalizing index with
  | nil => rfl
  | cons m ms ihms =>
      have hrest := ihms (fun n hn => ih n (List.mem_cons_of_mem _ hn)) (index + 1)
      rw [List.map_cons, walkChildren, entryActions_append, ih m List.mem_cons_self, hrest,
        List.flatMap_cons]

theorem entryActions_inState {m : Machine} {index : Nat}
    (ih : ∀ sub ∈ (m.stateAt index).subMachines, ∀ path,
      entryActions ((fresh sub).walkFrom path) = sub.entrySequence) (path : List Nat) :
    entryActions ((inState m index).walkFrom path) =
      (m.stateAt index).enter ++ (m.stateAt index).subMachines.flatMap Machine.entrySequence := by
  have hchildren := entryActions_walkChildren ih path 0
  rw [walkFrom_eq, ← hchildren]
  rfl

/-- The entry actions of a fresh tree are those of its machine, wherever it stands. -/
theorem entryActions_fresh (m : Machine) (path : List Nat) :
    entryActions ((fresh m).walkFrom path) = m.entrySequence := by
  induction m using Machine.induction generalizing path with
  | nest m ih =>
      rw [fresh_eq_inState, entryActions_inState, Machine.entrySequence_eq]
      · rfl
      · intro sub hsub
        exact ih m.startState (Machine.stateAt_mem_of_sub hsub) sub hsub

end LiveTree

namespace Session

open LiveTree

variable {σ : Type u}

/-- What one dispatch hands to the registry, in order. A stimulus that is dropped performs nothing, and an
action that is fired is followed by those that go with it. A move performs the exits of the children in
order, each from the inside out, the exit actions of the state that is left, the actions of the arrow, the
entry actions of its target, and those of the machines in the target in order, each from the outside in. -/
theorem dispatch_performs {root : Machine} (hroot : root.Validated) (registry : Registry σ)
    (config : Config) (host : σ) (calls : List Call) (now : Instant) (x : Stimulus) :
    let s := (start root registry config host).run calls
    ∃ names : List String,
      (s.dispatch now x).2.journal = s.journal.performAll s.registry names ∧
        (s.dispatch now x).2.journal.names = s.journal.names ++ names ∧
        match (s.dispatch now x).1 with
        | .dropped => names = []
        | .fired machine state action =>
          ∃ (c : Context) (t : Transition) (also : List String),
            select? s.tree x = some (c, t) ∧ t.kind = .action action also ∧ c.tree.name = machine ∧
              c.tree.currentId = state ∧ names = action :: also
        | .moved machine source target =>
          ∃ (c : Context) (t : Transition) (also : List String) (index : Nat)
            (state : State Transition Machine),
            select? s.tree x = some (c, t) ∧ t.kind = .arrow target also ∧ c.tree.name = machine ∧
              c.tree.currentId = source ∧ t.targetIndex = some index ∧
              c.tree.machine.states[index]? = some state ∧ state.id = target ∧
              names = c.tree.children.flatMap exitSequence ++ c.tree.currentState.exit ++ also ++
                (state.enter ++ state.subMachines.flatMap Machine.entrySequence) := by
  intro s
  have hwf := Machine.wellFormed_of_validated hroot
  have hrun : Running root s := running_run hwf registry config host calls
  obtain ⟨outcome, after, heq, hresponse⟩ := hrun.response hwf now x
  rw [heq]
  -- the panel is given its view after the actions, which does not change the journal
  have hnames : ∀ names, after.journal = s.journal.performAll s.registry names →
      after.present.journal.names = s.journal.names ++ names := by
    intro names hjournal
    show after.journal.names = _
    rw [hjournal, Journal.names_performAll]
  cases hresponse with
  | dropped hselect => exact ⟨[], rfl, hnames [] rfl, rfl⟩
  | fired hselect hkind => exact ⟨_, rfl, hnames _ rfl, _, _, _, hselect, hkind, rfl, rfl, rfl⟩
  | @moved c t target also index hselect hkind hindex hlt hid =>
      have hstate : c.tree.machine.states[index]? = some (c.tree.machine.stateAt index) := by
        rw [Machine.stateAt_eq_getElem hlt, List.getElem?_eq_getElem hlt]
      refine ⟨_, rfl, hnames _ rfl, c, t, also, index, _, hselect, hkind, rfl, rfl, hindex, hstate, hid, ?_⟩
      rw [exitActions_closeFrom, exitSequence_eq, entryActions_inState fun sub _ => entryActions_fresh sub]

/-- A desk with two lights, one of them dark, that is set up anew. -/
theorem dispatch_performs_desk :
    ∃ inner root, MachineDraft.blinker.build = .ok inner ∧ (MachineDraft.desk inner).build = .ok root ∧
      ∀ now now',
        let s := (start root (.empty : Registry Unit) {} ()).run [.dispatch now (.command "tick")]
        s.journal.names = ["plug", "fade"] ∧
        (s.dispatch now' (.command "reset")).2.journal.names =
          ["plug", "fade"] ++ ["fade", "unplug", "bell", "plug"] := by
  refine ⟨_, _, rfl, rfl, ?_⟩
  intro now now' s
  obtain ⟨names, -, hnames, houtcome⟩ := dispatch_performs (Machine.validated_desk rfl rfl)
    (.empty : Registry Unit) {} () [.dispatch now (.command "tick")] now' (.command "reset")
  refine ⟨rfl, hnames.trans (congrArg (["plug", "fade"] ++ ·) ?_)⟩
  have hmoved : (s.dispatch now' (.command "reset")).1 = .moved "desk" "lit" "lit" := rfl
  rw [hmoved] at houtcome
  obtain ⟨c, t, also, index, state, hselect, hkind, -, -, hindex, hstate, -, rfl⟩ := houtcome
  have hroot : select? s.tree (.command "reset") = some (⟨[], s.tree⟩, _) := rfl
  obtain ⟨rfl, rfl⟩ := Prod.mk.inj (Option.some.inj (hroot.symm.trans hselect))
  cases hkind
  cases hindex
  cases hstate
  rfl

end Session

end ModeTree
