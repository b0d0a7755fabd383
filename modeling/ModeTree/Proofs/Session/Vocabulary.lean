import ModeTree.Proofs.Machine.Vocabulary
import ModeTree.Proofs.Session.Blocks
import ModeTree.Proofs.Session.Report

/-!
# The actions that a session performs

Every machine that runs in a session is the root or a machine in it, so whatever its current state performs is
among the actions of the root (`WellFormed.ownActions_subset`). What one input performs is said once, by
`Running.performs_take`. From the start through every input to the end a session hands no other name to the
registry, and to invoke these is all that it does to the host (`endTrial_performs`).
-/

set_option autoImplicit false

namespace ModeTree

universe u

namespace LiveTree

variable {names : List String} {t u : LiveTree}

/-- Whatever runs in a tree runs a machine whose actions are among those of the machine of the tree. -/
theorem WellFormed.descendant_actions_subset (ht : t.WellFormed) (hm : t.machine.actions ⊆ names)
    {p : List Nat} (h : t.descendant? p = some u) : u.WellFormed ∧ u.machine.actions ⊆ names := by
  apply ht.descendant_of_inherited (P := fun m => m.actions ⊆ names) ?_ hm h
  intro m hm s hs sub hsub
  exact List.Subset.trans (Machine.actions_subset_of_sub hs hsub) hm

theorem WellFormed.ownActions_subset (ht : t.WellFormed) (hm : t.machine.actions ⊆ names) {p : List Nat}
    {c : Context} (hc : c ∈ t.walkFrom p) : c.tree.currentState.ownActions ⊆ names := by
  obtain ⟨q, -, hq⟩ := (mem_walkFrom_iff t p c).1 hc
  obtain ⟨hwf, hactions⟩ := ht.descendant_actions_subset hm hq
  exact List.Subset.trans (Machine.ownActions_subset hwf.currentState_mem) hactions

theorem WellFormed.entryActions_subset (ht : t.WellFormed) (hm : t.machine.actions ⊆ names)
    (p : List Nat) : entryActions (t.walkFrom p) ⊆ names := by
  intro name hname
  obtain ⟨c, hc, henter⟩ := List.mem_flatMap.1 hname
  exact ht.ownActions_subset hm hc ((State.mem_ownActions_iff _ name).2 (.enter henter))

theorem WellFormed.exitActions_subset (ht : t.WellFormed) (hm : t.machine.actions ⊆ names)
    (p : List Nat) : exitActions (t.closeFrom p) ⊆ names := by
  intro name hname
  obtain ⟨c, hc, hexit⟩ := List.mem_flatMap.1 hname
  have hwalk := (mem_closeFrom_iff t p c).1 hc
  exact ht.ownActions_subset hm hwalk ((State.mem_ownActions_iff _ name).2 (.exit hexit))

end LiveTree

namespace Session

open LiveTree

variable {σ : Type u} {root : Machine} {s : Session σ}

theorem Running.actions_subset (h : Running root s) : s.tree.machine.actions ⊆ root.actions := by
  rw [h.machine]
  exact List.Subset.refl _

/-- What a selected transition performs are actions of the root. -/
theorem Running.selected_actions_subset (h : Running root s) {x : Stimulus} {c : Context} {t : Transition}
    (hselect : select? s.tree x = some (c, t)) : t.kind.actions ⊆ root.actions := by
  intro name hname
  obtain ⟨hc, hfind⟩ := mem_walk_of_select? hselect
  apply h.wellFormed.ownActions_subset h.actions_subset hc
  exact List.mem_append_right _ (List.mem_flatMap.2 ⟨t, List.mem_of_find?_eq_some hfind, hname⟩)

/-- In response to a stimulus a session performs actions of the root. -/
theorem Running.performs_response {after : Session σ} (hroot : root.WellFormed) (h : Running root s)
    {now : Instant} {x : Stimulus} {outcome : Outcome} (hresponse : Response s now x outcome after) :
    ∃ names, after.journal = s.journal.performAll s.registry names ∧ names ⊆ root.actions := by
  cases hresponse with
  | dropped hselect => exact ⟨[], rfl, List.nil_subset _⟩
  | @fired c t name also hselect hkind =>
      have hactions := h.selected_actions_subset hselect
      rw [hkind] at hactions
      exact ⟨name :: also, rfl, hactions⟩
  | @moved c t target also index hselect hkind hindex hlt hid =>
      have hactions := h.selected_actions_subset hselect
      rw [hkind] at hactions
      obtain ⟨hc, hm, -⟩ := h.selected hroot hselect
      -- the machine that moves is the root or a machine in it, and so it is in its new state
      obtain ⟨-, hmoved⟩ :=
        h.wellFormed.descendant_actions_subset h.actions_subset (descendant?_of_select? hselect)
      have hexit := hc.exitActions_subset hmoved c.path
      have hentry := (wellFormed_inState hm hlt).entryActions_subset hmoved c.path
      exact ⟨_, rfl, List.append_subset.2 ⟨List.append_subset.2 ⟨hexit, hactions⟩, hentry⟩⟩

theorem Running.performs_dispatch (hroot : root.WellFormed) (h : Running root s) (now : Instant)
    (x : Stimulus) :
    ∃ names, (s.dispatch now x).2.journal = s.journal.performAll s.registry names ∧
      names ⊆ root.actions := by
  obtain ⟨outcome, after, heq, hresponse⟩ := h.response hroot now x
  obtain ⟨names, hjournal, hactions⟩ := h.performs_response hroot hresponse
  rw [heq]
  exact ⟨names, hjournal, hactions⟩

/-- An input performs actions of the root. -/
theorem Running.performs_take (hroot : root.WellFormed) (h : Running root s) (now : Instant) (input : Input) :
    ∃ names, (s.take now input).2.journal = s.journal.performAll s.registry names ∧
      names ⊆ root.actions := by
  cases input with
  | stimulus x => exact h.performs_dispatch hroot now x
  | event e hit =>
      rw [take, feed]
      cases s.normalizer.normalize e hit with
      | none => exact ⟨[], rfl, List.nil_subset _⟩
      | some x => exact h.performs_dispatch hroot now x

/-- When only actions of the root have been performed, this is so after some inputs too, and after the end. -/
theorem Running.names_takeAll_stop (hroot : root.WellFormed) (h : Running root s)
    (hnames : s.journal.names ⊆ root.actions) (clock : Nat → Instant) (inputs : List Input) :
    (s.takeAll clock inputs).stop.names ⊆ root.actions := by
  induction inputs generalizing s clock with
  | nil =>
      rw [takeAll, stop, leave_eq s.registry s.tree [], Journal.names_performAll]
      exact List.append_subset.2 ⟨hnames, h.wellFormed.exitActions_subset h.actions_subset []⟩
  | cons input inputs ih =>
      obtain ⟨names, hjournal, hactions⟩ := h.performs_take hroot (clock 0) input
      apply ih (running_take hroot h (clock 0) input)
      rw [hjournal, Journal.names_performAll]
      exact List.append_subset.2 ⟨hnames, hactions⟩

/-- A session starts with actions of its machine. -/
theorem names_startTrial_subset (hroot : root.WellFormed) (config : Config) (normalizer : Normalizer)
    (trial : Trial σ) : (startTrial root config normalizer trial).journal.names ⊆ root.actions := by
  show (start root trial.registry config trial.host).journal.names ⊆ root.actions
  have hmachine : (fresh root).machine.actions ⊆ root.actions := by
    rw [machine_fresh]
    exact List.Subset.refl _
  rw [start, LiveTree.launch_eq trial.registry root []]
  show ((Journal.start trial.host).performAll trial.registry _).names ⊆ root.actions
  rw [Journal.names_performAll]
  exact (wellFormed_fresh hroot).entryActions_subset hmachine []

/-- The names of a machine's actions are all that a session of it ever uses. From its start through whatever
inputs to its end, what a session does to the host is to invoke certain names in order, each of which is one
of them. They are the names that a state mentions, of the machine itself or of a machine in it. -/
theorem endTrial_performs (hroot : root.Validated) (config : Config) (normalizer : Normalizer)
    (inputs : List Input) (trial : Trial σ) :
    let journal := endTrial root config normalizer inputs trial
    journal = (Journal.start trial.host).performAll trial.registry journal.names ∧
      (∀ name ∈ journal.names, name ∈ root.actionNames) ∧
      ∀ name, name ∈ root.actionNames ↔
        ∃ sub, (sub = root ∨ root.Holds sub) ∧ ∃ s ∈ sub.states, s.Mentions name := by
  intro journal
  have hwf := Machine.wellFormed_of_validated hroot
  have hstart := running_startTrial hwf config normalizer trial
  have hnames : journal.names ⊆ root.actions :=
    hstart.names_takeAll_stop hwf (names_startTrial_subset hwf config normalizer trial) trial.clock inputs
  refine ⟨?_, ?_, root.mem_actionNames_iff⟩
  · have hend : journal = (Journal.start trial.host).performAll trial.registry
        (report root config normalizer inputs trial).names := endTrial_eq root config normalizer inputs trial
    exact Journal.eq_performAll_drop hend
  · intro name hname
    exact (root.mem_actionNames_iff_mem_actions name).2 (hnames hname)

/-- Whatever a lamp that blinks is given, it does nothing but fade and flash. -/
theorem endTrial_performs_lamp :
    ∃ inner root, MachineDraft.blinker.build = .ok inner ∧ (MachineDraft.lamp inner).build = .ok root ∧
      ∀ inputs, ∀ name ∈ (endTrial root {} .standard inputs silent).names, name ∈ ["fade", "flash"] := by
  obtain ⟨inner, root, hinner, hroot, hactions⟩ : ∃ inner root,
      MachineDraft.blinker.build = .ok inner ∧ (MachineDraft.lamp inner).build = .ok root ∧
        root.actionNames = ["fade", "flash"] := ⟨_, _, rfl, rfl, by decide +kernel⟩
  refine ⟨inner, root, hinner, hroot, ?_⟩
  intro inputs
  obtain ⟨-, hnames, -⟩ := endTrial_performs (Machine.validated_lamp hinner hroot) {} .standard inputs silent
  rwa [hactions] at hnames

end Session

end ModeTree
