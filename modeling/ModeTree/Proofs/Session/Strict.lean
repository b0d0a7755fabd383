import ModeTree.Proofs.Session.Run

/-!
# Sessions that insist

The definitions of a session answer every lookup: behind the last state of a machine there is an empty
one, an arrow without a target does nothing, and neither does one whose machine no longer runs at its
path. The functions here are the same session with `none` in each of these places, so that a result is
a proof that no such lookup was made. In a well-formed tree of a well-formed machine the two agree
(`dispatch_eq`, `run_eq`), and `never_stuck` puts this together with the shape of the tree for every run
of a validated machine.
-/

set_option autoImplicit false

namespace ModeTree

universe u

namespace Strict

variable {σ : Type u}

/-- The current state of a running machine, if its position exists. -/
def currentState? (t : LiveTree) : Option (State Transition Machine) := t.machine.states[t.current]?

mutual

/-- Starts a machine whose start exists. -/
def launch (r : Registry σ) : Machine → Journal σ → Option (LiveTree × Journal σ)
  | ⟨name, start, states⟩, j =>
    (enterAt r states start j).map fun (children, j) => (⟨⟨name, start, states⟩, start, children⟩, j)

/-- Enters the state at a position, if there is one. -/
def enterAt (r : Registry σ) :
    List (State Transition Machine) → Nat → Journal σ → Option (List LiveTree × Journal σ)
  | [], _, _ => none
  | state :: _, 0, j => enter r state j
  | _ :: rest, index + 1, j => enterAt r rest index j

/-- Enters a state: performs its entry actions, then starts the machines in it. -/
def enter (r : Registry σ) : State Transition Machine → Journal σ → Option (List LiveTree × Journal σ)
  | ⟨_, actions, _, _, subs, _, _⟩, j => launchAll r subs (j.performAll r actions)

/-- Starts machines one after the other, if each of their starts exists. -/
def launchAll (r : Registry σ) : List Machine → Journal σ → Option (List LiveTree × Journal σ)
  | [], j => some ([], j)
  | m :: rest, j =>
    (launch r m j).bind fun (t, j) => (launchAll r rest j).map fun (ts, j) => (t :: ts, j)

end

mutual

/-- Leaves a tree in which every position exists. -/
def leave (r : Registry σ) : LiveTree → Journal σ → Option (Journal σ)
  | ⟨machine, current, children⟩, j =>
    (leaveAll r children j).bind fun j =>
      machine.states[current]?.map fun state => j.performAll r state.exit

/-- Leaves trees one after the other, if every position in them exists. -/
def leaveAll (r : Registry σ) : List LiveTree → Journal σ → Option (Journal σ)
  | [], j => some j
  | child :: rest, j => (leave r child j).bind (leaveAll r rest)

end

/-- Moves to a state that exists. -/
def moveTo (r : Registry σ) (t : LiveTree) (target : Nat) (also : List String) (j : Journal σ) :
    Option (LiveTree × Journal σ) :=
  (leave r t j).bind fun j =>
    t.machine.states[target]?.bind fun state =>
      (enter r state (j.performAll r also)).map fun (children, j) => (⟨t.machine, target, children⟩, j)

/-- The view of all running machines. -/
def viewOf (t : LiveTree) : Option View :=
  (t.outermostFirst.mapM fun c => currentState? c.tree).map View.project

/-- A running machine together with its transition for a stimulus; the search ends at the first. -/
def select (t : LiveTree) (x : Stimulus) : Option (Option (Context × Transition)) :=
  t.deepestFirst.findSomeM? fun c =>
    (currentState? c.tree).map fun state =>
      (state.findTransition? x).map fun transition => (c, transition)

/-- Performs the action of a transition that leads nowhere. -/
def fire (s : Session σ) (c : Context) (action : String) (also : List String) :
    Option (Outcome × Session σ) :=
  (currentState? c.tree).map fun state =>
    (.fired c.tree.name state.id action,
      { s with journal := s.journal.performAll s.registry (action :: also) })

/-- Moves the machine that runs at the path of a context. -/
def move (s : Session σ) (now : Instant) (x : Stimulus) (c : Context) (target : Nat)
    (also : List String) : Option (Outcome × Session σ) :=
  (currentState? c.tree).bind fun source =>
    (s.tree.descendant? c.path).bind fun live =>
      (moveTo s.registry live target also s.journal).bind fun (moved, journal) =>
        c.tree.machine.states[target]?.bind fun reached =>
          let tree := s.tree.replace c.path moved
          let change : ModeChange := ⟨c.tree.name, c.path.length, source.id, reached.id, x.text, now⟩
          (viewOf tree).map fun view =>
            (.moved c.tree.name source.id reached.id,
              { s with tree, journal, history := s.history.record change, view })

/-- Lets a transition act; an arrow has to have a target. -/
def act (s : Session σ) (now : Instant) (x : Stimulus) (c : Context) (t : Transition) :
    Option (Outcome × Session σ) :=
  match t.kind, t.targetIndex with
  | .action name also, _ => fire s c name also
  | .arrow _ also, some target => move s now x c target also
  | .arrow _ _, none => none

/-- Takes a stimulus, and gives the panel the view that results. -/
def dispatch (s : Session σ) (now : Instant) (x : Stimulus) : Option (Outcome × Session σ) :=
  (select s.tree x).bind fun selected =>
    match selected with
    | none => some (.dropped, s.present)
    | some (c, t) => (act s now x c t).map fun (outcome, s) => (outcome, s.present)

/-- The session after a call. -/
def call (s : Session σ) : Session.Call → Option (Session σ)
  | .dispatch now stimulus => (dispatch s now stimulus).map (·.2)
  | .feed now event hit =>
    match s.normalizer.normalize event hit with
    | some stimulus => (dispatch s now stimulus).map (·.2)
    | none => some s
  | .attachPanel => some s.attachPanel
  | .useNormalizer n => some (s.withNormalizer n)
  | .invoke name => some (s.invoke name).2

/-- The session after some calls. -/
def run (s : Session σ) (calls : List Session.Call) : Option (Session σ) := calls.foldlM call s

/-- Starts a session with a machine whose starts exist. -/
def start (root : Machine) (registry : Registry σ) (config : Config) (host : σ) :
    Option (Session σ) :=
  (launch registry root (.start host)).bind fun (tree, journal) =>
    (viewOf tree).map fun view =>
      ⟨tree, registry, .standard, .withCapacity config.historyCapacity, view, none, journal⟩

/-- Ends a session in whose tree every position exists. -/
def stop (s : Session σ) : Option (Journal σ) := leave s.registry s.tree s.journal

/-! ## Lookups -/

theorem getElem?_states {m : Machine} {index : Nat} (h : index < m.states.length) :
    m.states[index]? = some (m.stateAt index) := by
  rw [Machine.stateAt_eq_getElem h, List.getElem?_eq_getElem h]

theorem currentState?_eq {t : LiveTree} (h : t.WellFormed) : currentState? t = some t.currentState :=
  getElem?_states h.position

theorem mapM_eq_map {α β : Type} {f : α → Option β} {g : α → β} {l : List α}
    (h : ∀ a ∈ l, f a = some (g a)) : l.mapM f = some (l.map g) := by
  induction l with
  | nil => rfl
  | cons a l ih =>
      rw [List.mapM_cons, h a List.mem_cons_self, ih fun b hb => h b (List.mem_cons_of_mem _ hb)]
      rfl

theorem findSomeM?_eq_findSome? {α β : Type} {f : α → Option (Option β)} {g : α → Option β}
    {l : List α} (h : ∀ a ∈ l, f a = some (g a)) : l.findSomeM? f = some (l.findSome? g) := by
  induction l with
  | nil => rfl
  | cons a l ih =>
      rw [List.findSomeM?_cons, h a List.mem_cons_self, List.findSome?_cons,
        ih fun b hb => h b (List.mem_cons_of_mem _ hb)]
      cases g a <;> rfl

/-! ## Trees -/

theorem enterAt_eq (r : Registry σ) {states : List (State Transition Machine)} {index : Nat}
    (h : index < states.length) (j : Journal σ) :
    enterAt r states index j = enter r (states.getD index default) j := by
  induction states generalizing index with
  | nil => exact absurd h (Nat.not_lt_zero index)
  | cons s states ih =>
      cases index with
      | zero => rw [enterAt, List.getD_cons_zero]
      | succ index => rw [enterAt, ih (Nat.lt_of_succ_lt_succ h), List.getD_cons_succ]

theorem launchAll_eq {r : Registry σ} {ms : List Machine}
    (ih : ∀ m ∈ ms, ∀ j, launch r m j = some (LiveTree.launch r m j)) (j : Journal σ) :
    launchAll r ms j = some (LiveTree.launchAll r ms j) := by
  induction ms generalizing j with
  | nil => rfl
  | cons m ms ihms =>
      have hrest := ihms fun n hn => ih n (List.mem_cons_of_mem _ hn)
      rw [launchAll, ih m List.mem_cons_self, Option.bind_some]
      show (launchAll r ms (LiveTree.launch r m j).2).map _ = _
      rw [hrest]
      rfl

theorem enter_eq_of_subs {r : Registry σ} {s : State Transition Machine}
    (ih : ∀ m ∈ s.subMachines, ∀ j, launch r m j = some (LiveTree.launch r m j)) (j : Journal σ) :
    enter r s j = some (LiveTree.enter r s j) := by
  cases s
  rw [enter, launchAll_eq ih, LiveTree.enter]

theorem launch_eq (r : Registry σ) {m : Machine} (hm : m.WellFormed) (j : Journal σ) :
    launch r m j = some (LiveTree.launch r m j) := by
  induction m using Machine.induction generalizing j with
  | nest m ih =>
      have hstate := Machine.stateAt_mem hm.start
      -- the machines in the start state are well formed, so launching them goes through
      have henter : ∀ j, enter r m.startState j = some (LiveTree.enter r m.startState j) :=
        enter_eq_of_subs fun sub hsub => ih _ hstate sub hsub (hm.subs hstate hsub)
      have hat : enterAt r m.states m.start j = enter r m.startState j := enterAt_eq r hm.start j
      rw [LiveTree.launch_eq_enter]
      cases m
      rw [launch, hat, henter]
      rfl

theorem enter_eq (r : Registry σ) {m : Machine} (hm : m.WellFormed) {s : State Transition Machine}
    (hs : s ∈ m.states) (j : Journal σ) : enter r s j = some (LiveTree.enter r s j) :=
  enter_eq_of_subs (fun _ hsub => launch_eq r (hm.subs hs hsub)) j

theorem leaveAll_eq {r : Registry σ} {ts : List LiveTree}
    (ih : ∀ t ∈ ts, ∀ j, leave r t j = some (t.leave r j)) (j : Journal σ) :
    leaveAll r ts j = some (LiveTree.leaveAll r ts j) := by
  induction ts generalizing j with
  | nil => rfl
  | cons t ts ihts =>
      rw [leaveAll, ih t List.mem_cons_self, Option.bind_some,
        ihts fun u hu => ih u (List.mem_cons_of_mem _ hu)]
      rfl

theorem leave_eq (r : Registry σ) {t : LiveTree} (ht : t.WellFormed) (j : Journal σ) :
    leave r t j = some (t.leave r j) := by
  induction t using LiveTree.induction generalizing j with
  | node machine current children ih =>
      have hstate := getElem?_states ht.position
      rw [leave, leaveAll_eq (fun c hc => ih c hc (ht.nested hc)), Option.bind_some]
      simp only [hstate, Option.map_some]
      rfl

theorem moveTo_eq (r : Registry σ) {t : LiveTree} (ht : t.WellFormed) (hm : t.machine.WellFormed)
    {target : Nat} (htarget : target < t.machine.states.length) (also : List String) (j : Journal σ) :
    moveTo r t target also j = some (t.moveTo r target also j) := by
  rw [moveTo, leave_eq r ht, Option.bind_some, getElem?_states htarget, Option.bind_some,
    enter_eq r hm (Machine.stateAt_mem htarget)]
  rfl

/-- Every running machine of a well-formed tree is in a well-formed tree itself. -/
theorem wellFormed_of_mem_walk {t : LiveTree} (ht : t.WellFormed) (hm : t.machine.WellFormed)
    {c : Context} (hc : c ∈ t.walk) : c.tree.WellFormed :=
  (ht.descendant hm ((LiveTree.mem_walk_iff t c).1 hc)).1

theorem viewOf_eq {t : LiveTree} (ht : t.WellFormed) (hm : t.machine.WellFormed) :
    viewOf t = some (Session.viewOf t) := by
  rw [viewOf, mapM_eq_map, Option.map_some]
  · rfl
  · intro c hc
    have hwalk := (LiveTree.mem_outermostFirst_iff t c).1 hc
    exact currentState?_eq (wellFormed_of_mem_walk ht hm hwalk)

theorem select_eq {t : LiveTree} (ht : t.WellFormed) (hm : t.machine.WellFormed) (x : Stimulus) :
    select t x = some (Session.select? t x) := by
  rw [select, findSomeM?_eq_findSome?]
  · rfl
  · intro c hc
    have hwalk := (LiveTree.mem_deepestFirst_iff t c).1 hc
    rw [currentState?_eq (wellFormed_of_mem_walk ht hm hwalk), Option.map_some]

/-! ## Sessions -/

open Session (Running Call)

variable {root : Machine}

theorem start_eq (hroot : root.WellFormed) (registry : Registry σ) (config : Config) (host : σ) :
    start root registry config host = some (Session.start root registry config host) := by
  have h := Session.running_start hroot registry config host
  have hview := viewOf_eq h.wellFormed (by rw [h.machine]; exact hroot)
  rw [start, launch_eq registry hroot, Option.bind_some]
  show (viewOf (Session.start root registry config host).tree).map _ = _
  rw [hview]
  rfl

/-- A selected transition acts without a lookup that fails. -/
theorem act_eq (hroot : root.WellFormed) {s : Session σ} (h : Running root s) (now : Instant)
    {x : Stimulus} {c : Context} {t : Transition}
    (hselect : Session.select? s.tree x = some (c, t)) :
    act s now x c t = some (s.act now x c t) := by
  obtain ⟨hc, hm, -⟩ := h.selected hroot hselect
  have hlive := Session.descendant?_of_select? hselect
  cases hkind : t.kind with
  | action name also =>
      rw [act, Session.act, hkind]
      show fire s c name also = some (s.fire c name also)
      rw [fire, currentState?_eq hc]
      rfl
  | arrow target also =>
      obtain ⟨index, hindex, hlt⟩ := h.target_lt hroot hselect hkind
      obtain ⟨htree, hmachine⟩ := h.wellFormed.replace hlive
        (LiveTree.wellFormed_inState hm hlt) (LiveTree.machine_inState _ _)
      -- the view shows the tree after the move, which is well formed again
      have hview := viewOf_eq htree (by rw [hmachine, h.machine]; exact hroot)
      rw [act, Session.act, hkind, hindex]
      simp only [hlive]
      rw [move, currentState?_eq hc, Option.bind_some, hlive, Option.bind_some,
        moveTo_eq s.registry hc hm hlt, LiveTree.moveTo_eq s.registry c.tree index also c.path,
        Option.bind_some]
      simp only [getElem?_states hlt, Option.bind_some, hview, Option.map_some, Session.move_eq]
      rfl

theorem dispatch_eq (hroot : root.WellFormed) {s : Session σ} (h : Running root s) (now : Instant)
    (x : Stimulus) : dispatch s now x = some (s.dispatch now x) := by
  rw [dispatch, Session.dispatch, select_eq h.wellFormed (h.machine ▸ hroot), Option.bind_some]
  cases hselect : Session.select? s.tree x with
  | none => rfl
  | some found =>
      obtain ⟨c, t⟩ := found
      show (act s now x c t).map _ = some _
      rw [act_eq hroot h now hselect]
      rfl

theorem call_eq (hroot : root.WellFormed) {s : Session σ} (h : Running root s) (c : Call) :
    call s c = some (s.call c) := by
  cases c with
  | dispatch now stimulus => rw [call, dispatch_eq hroot h, Option.map_some, Session.call]
  | feed now event hit =>
      rw [call, Session.call, Session.feed]
      cases s.normalizer.normalize event hit with
      | none => rfl
      | some stimulus => simp only [dispatch_eq hroot h, Option.map_some]
  | attachPanel => rfl
  | useNormalizer n => rfl
  | invoke name => rfl

theorem run_eq (hroot : root.WellFormed) {s : Session σ} (h : Running root s) (calls : List Call) :
    run s calls = some (s.run calls) := by
  induction calls generalizing s with
  | nil => rfl
  | cons c calls ih =>
      -- the session after the first call is still one to which this applies
      have hcall := Session.running_call hroot s c h
      rw [run, List.foldlM_cons, call_eq hroot h]
      exact ih hcall

theorem stop_eq {s : Session σ} (h : s.tree.WellFormed) : stop s = some s.stop :=
  leave_eq s.registry h s.journal

/-- Every run of a validated machine goes through without a lookup that fails. Throughout, every running
machine is in one of its states and runs exactly the machines of that state, the tree is no higher than
the machine is deep, and a stimulus is dropped exactly when no running machine has a transition for
it. -/
theorem never_stuck {root : Machine} (hroot : root.Validated) (registry : Registry σ) (config : Config)
    (host : σ) (calls : List Call) :
    ∃ s, s = (Session.start root registry config host).run calls ∧
      (start root registry config host).bind (fun s => run s calls) = some s ∧
      s.tree.machine = root ∧
      (∀ c ∈ s.tree.walk, c.tree.current < c.tree.machine.states.length ∧
        c.tree.children.map (·.machine) = c.tree.currentState.subMachines) ∧
      s.tree.height ≤ root.depth ∧
      (∀ now x, dispatch s now x = some (s.dispatch now x) ∧
        ((s.dispatch now x).1 = .dropped ↔
          ∀ c ∈ s.tree.walk, ∀ t ∈ c.tree.currentState.transitions, t.matchesStimulus x = false)) ∧
      stop s = some s.stop := by
  have hwf := Machine.wellFormed_of_validated hroot
  have hstart := Session.running_start hwf registry config host
  have hrun := Session.running_run hwf registry config host calls
  refine ⟨_, rfl, ?_, hrun.machine, ?_, ?_, ?_, stop_eq hrun.wellFormed⟩
  · rw [start_eq hwf, Option.bind_some, run_eq hwf hstart]
  · intro c hc
    have hmachine := hrun.machine ▸ hwf
    have htree := wellFormed_of_mem_walk hrun.wellFormed hmachine hc
    exact ⟨htree.position, htree.runs⟩
  · have hheight := hrun.wellFormed.height_le_depth
    rwa [hrun.machine] at hheight
  · intro now x
    exact ⟨dispatch_eq hwf hrun now x, Session.dropped_iff hwf hrun now x⟩

/-- A lamp that blinks is such a machine, of two levels. -/
theorem never_stuck_lamp :
    ∃ inner root, MachineDraft.blinker.build = .ok inner ∧
      (MachineDraft.lamp inner).build = .ok root ∧ ∀ calls,
        (start root (.empty : Registry Unit) {} ()).bind (fun s => run s calls) =
          some ((Session.start root .empty {} ()).run calls) ∧
        ((Session.start root (.empty : Registry Unit) {} ()).run calls).tree.height ≤ 2 := by
  refine ⟨_, _, rfl, rfl, ?_⟩
  intro calls
  have hroot := Machine.validated_lamp rfl rfl
  obtain ⟨s, rfl, hrun, -, -, hheight, -⟩ := never_stuck hroot (.empty : Registry Unit) {} () calls
  exact ⟨hrun, hheight⟩

end Strict

end ModeTree
