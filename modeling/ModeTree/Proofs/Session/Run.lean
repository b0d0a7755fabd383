import ModeTree.Proofs.Tree.Shape

/-!
# Runs of a session

A run is a list of calls on a session. What one dispatch can do is said once, by `Effect` and
`dispatch_effect`: nothing, an action of the current state of a running machine, or a move of one
running machine. The tree of a validated machine stays well formed throughout (`running_run`).
-/

set_option autoImplicit false

namespace ModeTree

universe u

namespace Session

variable {σ : Type u}

/-- What a host may ask of a running session. -/
inductive Call where
  | dispatch (now : Instant) (stimulus : Stimulus)
  | feed (now : Instant) (event : Event) (hit : Option Hit)
  | attachPanel
  | useNormalizer (n : Normalizer)
  | invoke (name : String)

/-- The session after a call. -/
def call (s : Session σ) : Call → Session σ
  | .dispatch now stimulus => (s.dispatch now stimulus).2
  | .feed now event hit => (s.feed now event hit).2
  | .attachPanel => s.attachPanel
  | .useNormalizer n => s.withNormalizer n
  | .invoke name => (s.invoke name).2

/-- The session after some calls. -/
def run (s : Session σ) (calls : List Call) : Session σ := calls.foldl call s

@[simp] theorem run_nil (s : Session σ) : s.run [] = s := rfl

@[simp] theorem run_cons (s : Session σ) (c : Call) (calls : List Call) :
    s.run (c :: calls) = (s.call c).run calls := rfl

/-- What every call keeps holds after every run. -/
theorem run_keeps {P : Session σ → Prop} (step : ∀ s c, P s → P (s.call c)) {s : Session σ} (h : P s)
    (calls : List Call) : P (s.run calls) := by
  induction calls generalizing s with
  | nil => exact h
  | cons c calls ih => exact ih (step s c h)

/-! ## One dispatch -/

/-- The session after the machine of a context has moved to the state at a position. -/
def afterMove (s : Session σ) (now : Instant) (stimulus : Stimulus) (c : Context) (target : Nat)
    (also : List String) : Session σ :=
  let moved := LiveTree.inState c.tree.machine target
  let names := LiveTree.exitActions (c.tree.closeFrom c.path) ++ also ++
    LiveTree.entryActions (moved.walkFrom c.path)
  { s with
    tree := s.tree.replace c.path moved
    journal := s.journal.performAll s.registry names
    history := s.history.record
      ⟨c.tree.name, c.path.length, c.tree.currentId, (c.tree.machine.stateAt target).id, stimulus.text,
        now⟩
    view := viewOf (s.tree.replace c.path moved) }

@[simp] theorem tree_present (s : Session σ) : s.present.tree = s.tree := rfl

@[simp] theorem view_present (s : Session σ) : s.present.view = s.view := rfl

@[simp] theorem tree_afterMove (s : Session σ) (now : Instant) (x : Stimulus) (c : Context)
    (target : Nat) (also : List String) :
    (s.afterMove now x c target also).tree =
      s.tree.replace c.path (LiveTree.inState c.tree.machine target) := rfl

@[simp] theorem view_afterMove (s : Session σ) (now : Instant) (x : Stimulus) (c : Context)
    (target : Nat) (also : List String) :
    (s.afterMove now x c target also).view = viewOf (s.afterMove now x c target also).tree := rfl

/-- What a stimulus may do to a session, before the panel is given its view. -/
inductive Effect (s : Session σ) (now : Instant) (x : Stimulus) : Outcome → Session σ → Prop
  | unmatched (hselect : select? s.tree x = none) : Effect s now x .dropped s
  | fired {c : Context} {t : Transition} {name : String} {also : List String}
      (hselect : select? s.tree x = some (c, t)) (hkind : t.kind = .action name also) :
      Effect s now x (.fired c.tree.name c.tree.currentId name)
        { s with journal := s.journal.performAll s.registry (name :: also) }
  | moved {c : Context} {t : Transition} {target : String} {also : List String} {index : Nat}
      (hselect : select? s.tree x = some (c, t)) (hkind : t.kind = .arrow target also)
      (hindex : t.targetIndex = some index) :
      Effect s now x
        (.moved c.tree.name c.tree.currentId (c.tree.machine.stateAt index).id)
        (s.afterMove now x c index also)
  | untargeted {c : Context} {t : Transition} {target : String} {also : List String}
      (hselect : select? s.tree x = some (c, t)) (hkind : t.kind = .arrow target also)
      (hindex : t.targetIndex = none) : Effect s now x .dropped s

/-- The context of a selected transition runs in the tree at its path. -/
theorem descendant?_of_select? {t : LiveTree} {x : Stimulus} {c : Context} {transition : Transition}
    (h : select? t x = some (c, transition)) : t.descendant? c.path = some c.tree :=
  (LiveTree.mem_walk_iff t c).1 (mem_walk_of_select? h).1

theorem move_eq (s : Session σ) (now : Instant) (x : Stimulus) (c : Context) (target : Nat)
    (also : List String) :
    s.move now x c c.tree target also =
      (.moved c.tree.name c.tree.currentId (c.tree.machine.stateAt target).id,
        s.afterMove now x c target also) := by
  rw [move, LiveTree.moveTo_eq s.registry c.tree target also c.path]
  rfl

/-- A dispatch has one of the effects, and then gives the panel the view. -/
theorem dispatch_effect (s : Session σ) (now : Instant) (x : Stimulus) :
    ∃ outcome after, s.dispatch now x = (outcome, after.present) ∧ Effect s now x outcome after := by
  rw [dispatch]
  cases hselect : select? s.tree x with
  | none => exact ⟨_, _, rfl, .unmatched hselect⟩
  | some found =>
      obtain ⟨c, t⟩ := found
      show ∃ outcome after, ((s.act now x c t).1, (s.act now x c t).2.present) = (outcome, after.present) ∧
        Effect s now x outcome after
      cases hkind : t.kind with
      | action name also =>
          have hact : s.act now x c t = s.fire c name also := by rw [act, hkind]
          rw [hact]
          exact ⟨_, _, rfl, .fired hselect hkind⟩
      | arrow target also =>
          cases hindex : t.targetIndex with
          | none =>
              have hact : s.act now x c t = (.dropped, s) := by rw [act, hkind, hindex]
              rw [hact]
              exact ⟨_, _, rfl, .untargeted hselect hkind hindex⟩
          | some index =>
              -- the selected machine runs at its path, so it is moved
              have hact : s.act now x c t = s.move now x c c.tree index also := by
                rw [act, hkind, hindex]
                simp only [descendant?_of_select? hselect]
              rw [hact, move_eq]
              exact ⟨_, _, rfl, .moved hselect hkind hindex⟩

/-! ## Well-formed trees throughout -/

/-- The session runs `root`, in a well-formed tree. -/
structure Running (root : Machine) (s : Session σ) : Prop where
  wellFormed : s.tree.WellFormed
  machine : s.tree.machine = root

variable {root : Machine}

theorem tree_start (root : Machine) (registry : Registry σ) (config : Config) (host : σ) :
    (start root registry config host).tree = LiveTree.fresh root := by
  rw [start, LiveTree.launch_eq registry root []]

theorem running_start (hroot : root.WellFormed) (registry : Registry σ) (config : Config) (host : σ) :
    Running root (start root registry config host) := by
  refine ⟨?_, ?_⟩
  · rw [tree_start]
    exact LiveTree.wellFormed_fresh hroot
  · rw [tree_start, LiveTree.machine_fresh]

/-- The selected transition is one of a well-formed machine in a well-formed tree. -/
theorem Running.selected {s : Session σ} (hroot : root.WellFormed) (h : Running root s) {x : Stimulus}
    {c : Context} {t : Transition} (hselect : select? s.tree x = some (c, t)) :
    c.tree.WellFormed ∧ c.tree.machine.WellFormed ∧ t.Resolved c.tree.machine := by
  obtain ⟨hc, hm⟩ := h.wellFormed.descendant (h.machine ▸ hroot) (descendant?_of_select? hselect)
  have ht : t ∈ c.tree.currentState.transitions :=
    List.mem_of_find?_eq_some (mem_walk_of_select? hselect).2
  exact ⟨hc, hm, hm.targets hc.currentState_mem ht⟩

/-- An arrow that is selected leads to a state of its machine. -/
theorem Running.target_lt {s : Session σ} (hroot : root.WellFormed) (h : Running root s) {x : Stimulus}
    {c : Context} {t : Transition} (hselect : select? s.tree x = some (c, t)) {target : String}
    {also : List String} (hkind : t.kind = .arrow target also) :
    ∃ index, t.targetIndex = some index ∧ index < c.tree.machine.states.length := by
  obtain ⟨-, -, hresolved⟩ := h.selected hroot hselect
  obtain ⟨index, hlt, hindex, -⟩ := hresolved target (by rw [hkind]; rfl)
  exact ⟨index, hindex, hlt⟩

/-- What a stimulus does to a session that runs a well-formed machine: nothing, an action of the current
state of a running machine, or a move of a running machine to the state that its arrow names. -/
inductive Response (s : Session σ) (now : Instant) (x : Stimulus) : Outcome → Session σ → Prop
  | dropped (hselect : select? s.tree x = none) : Response s now x .dropped s
  | fired {c : Context} {t : Transition} {name : String} {also : List String}
      (hselect : select? s.tree x = some (c, t)) (hkind : t.kind = .action name also) :
      Response s now x (.fired c.tree.name c.tree.currentId name)
        { s with journal := s.journal.performAll s.registry (name :: also) }
  | moved {c : Context} {t : Transition} {target : String} {also : List String} {index : Nat}
      (hselect : select? s.tree x = some (c, t)) (hkind : t.kind = .arrow target also)
      (hindex : t.targetIndex = some index) (hlt : index < c.tree.machine.states.length)
      (hid : (c.tree.machine.stateAt index).id = target) :
      Response s now x (.moved c.tree.name c.tree.currentId target) (s.afterMove now x c index also)

/-- In a session that runs a well-formed machine every dispatch is such a response. -/
theorem Running.response {s : Session σ} (hroot : root.WellFormed) (h : Running root s) (now : Instant)
    (x : Stimulus) :
    ∃ outcome after, s.dispatch now x = (outcome, after.present) ∧ Response s now x outcome after := by
  obtain ⟨outcome, after, heq, heffect⟩ := dispatch_effect s now x
  refine ⟨outcome, after, heq, ?_⟩
  cases heffect with
  | unmatched hselect => exact .dropped hselect
  | fired hselect hkind => exact .fired hselect hkind
  | @moved c t target also index hselect hkind hindex =>
      obtain ⟨-, -, hresolved⟩ := h.selected hroot hselect
      obtain ⟨i, hlt, hi, hid⟩ := hresolved target (by rw [hkind]; rfl)
      obtain rfl : index = i := by simpa [hindex] using hi
      rw [← Machine.stateAt_eq_getElem hlt] at hid
      rw [hid]
      exact .moved hselect hkind hindex hlt hid
  | untargeted hselect hkind hindex =>
      -- a selected arrow has a target
      obtain ⟨index, hsome, -⟩ := h.target_lt hroot hselect hkind
      rw [hindex] at hsome
      exact absurd hsome (by simp)

/-- After a response the session still runs its machine, in a well-formed tree. -/
theorem Running.after_response {s after : Session σ} (hroot : root.WellFormed) (h : Running root s)
    {now : Instant} {x : Stimulus} {outcome : Outcome} (hresponse : Response s now x outcome after) :
    Running root after := by
  -- only a move changes the tree
  cases hresponse with
  | dropped hselect => exact h
  | fired hselect hkind => exact ⟨h.wellFormed, h.machine⟩
  | moved hselect hkind hindex hlt hid =>
      -- the moved machine is still the one that the state above it holds in this place
      obtain ⟨-, hm, -⟩ := h.selected hroot hselect
      obtain ⟨hwf, hmachine⟩ := h.wellFormed.replace (descendant?_of_select? hselect)
        (LiveTree.wellFormed_inState hm hlt) (LiveTree.machine_inState _ _)
      exact ⟨hwf, hmachine.trans h.machine⟩

/-- A stimulus is dropped exactly when no running machine has a transition for it. -/
theorem dropped_iff {s : Session σ} (hroot : root.WellFormed) (h : Running root s) (now : Instant)
    (x : Stimulus) :
    (s.dispatch now x).1 = .dropped ↔
      ∀ c ∈ s.tree.walk, ∀ t ∈ c.tree.currentState.transitions, t.matchesStimulus x = false := by
  have hnone : select? s.tree x = none ↔
      ∀ c ∈ s.tree.walk, ∀ t ∈ c.tree.currentState.transitions, t.matchesStimulus x = false := by
    simp [select?_eq_none_iff, State.findTransition?]
  rw [← hnone]
  obtain ⟨outcome, after, heq, hresponse⟩ := h.response hroot now x
  rw [heq]
  cases hresponse with
  | dropped hselect => simp [hselect]
  | fired hselect hkind => simp [hselect]
  | moved hselect hkind hindex hlt hid => simp [hselect]

theorem running_dispatch {s : Session σ} (hroot : root.WellFormed) (h : Running root s)
    (now : Instant) (x : Stimulus) : Running root (s.dispatch now x).2 := by
  obtain ⟨outcome, after, heq, hresponse⟩ := h.response hroot now x
  have hafter := h.after_response hroot hresponse
  rw [heq]
  exact ⟨hafter.wellFormed, hafter.machine⟩

theorem running_call (hroot : root.WellFormed) (s : Session σ) (c : Call) (h : Running root s) :
    Running root (s.call c) := by
  cases c with
  | dispatch now stimulus => exact running_dispatch hroot h now stimulus
  | feed now event hit =>
      rw [call, feed]
      cases s.normalizer.normalize event hit with
      | none => exact h
      | some stimulus => exact running_dispatch hroot h now stimulus
  | attachPanel => exact ⟨h.wellFormed, h.machine⟩
  | useNormalizer n => exact ⟨h.wellFormed, h.machine⟩
  | invoke name => exact ⟨h.wellFormed, h.machine⟩

/-- Throughout a run, the session runs its machine in a well-formed tree. -/
theorem running_run (hroot : root.WellFormed) (registry : Registry σ) (config : Config) (host : σ)
    (calls : List Call) : Running root ((start root registry config host).run calls) :=
  run_keeps (running_call hroot) (running_start hroot registry config host) calls

end Session

end ModeTree
