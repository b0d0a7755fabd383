import ModeTree.Proofs.Machine.Ignoring
import ModeTree.Proofs.Session.Run

/-!
# Escaping from a machine

A hatch is a state in which no machine runs, which a machine enters on one stimulus from all of its other
states and leaves towards its start on another. When nothing below the machine takes the first stimulus,
it leads to the hatch from wherever a run has come (`Hatch.tree_press`), and the second one brings back the
tree and the view of the start (`Hatch.start_release`).
-/

set_option autoImplicit false

namespace ModeTree

universe u

namespace Machine

/-- On the stimulus, the machine itself moves from the state at one position to the state at another. -/
def Moves (m : Machine) (x : Stimulus) (source target : Nat) : Prop :=
  ∃ t id also, (m.stateAt source).findTransition? x = some t ∧ t.kind = .arrow id also ∧
    t.targetIndex = some target

/-- The state at the position `plan` is a hatch, which is entered on `press` and left on `release`. -/
structure Hatch (m : Machine) (press release : Stimulus) (plan : Nat) : Prop where
  inward : ∀ source < m.states.length, source ≠ plan → m.Moves press source plan
  ignored : ∀ s ∈ m.states, ∀ sub ∈ s.subMachines, sub.Ignores press
  stays : (m.stateAt plan).findTransition? press = none
  alone : (m.stateAt plan).subMachines = []
  outward : m.Moves release plan m.start

end Machine

/-- A tree without machines in the current state of its root is that root alone. -/
theorem LiveTree.WellFormed.eq_inState {t : LiveTree} (ht : t.WellFormed)
    (halone : t.currentState.subMachines = []) : t = inState t.machine t.current := by
  have hchildren : t.children = [] := by
    rw [← List.map_eq_nil_iff, ht.runs, halone]
  have hfresh : (t.machine.stateAt t.current).subMachines.map fresh = [] := by
    rw [List.map_eq_nil_iff]
    exact halone
  cases t with
  | mk machine current children =>
      rw [inState, hfresh]
      exact congrArg (LiveTree.mk machine current) hchildren

namespace Session

open LiveTree

variable {σ : Type u} {root : Machine}

/-- A session starts with the view of its tree. -/
theorem view_start (root : Machine) (registry : Registry σ) (config : Config) (host : σ) :
    (start root registry config host).view = viewOf (fresh root) := by
  rw [← tree_start root registry config host]
  rfl

/-- When the machines below the root ignore a stimulus on which it moves, the whole tree is that of its new
state, and so is the view. -/
theorem dispatch_of_moves {s : Session σ} (h : Running root s) (now : Instant) {x : Stimulus} {target : Nat}
    (hignored : ∀ sub ∈ s.tree.currentState.subMachines, sub.Ignores x)
    (hmoves : root.Moves x s.tree.current target) :
    (s.dispatch now x).2.tree = inState root target ∧
      (s.dispatch now x).2.view = viewOf (inState root target) := by
  obtain ⟨transition, id, also, hfind, hkind, hindex⟩ := hmoves
  rw [← h.machine] at hfind
  have hselect : select? s.tree x = some (⟨[], s.tree⟩, transition) := by
    rw [select?_of_ignored h.wellFormed hignored, currentState, hfind, Option.map_some]
  obtain ⟨outcome, after, heq, heffect⟩ := dispatch_effect s now x
  rw [heq, ← h.machine]
  -- the effect is that of the selected arrow
  cases heffect with
  | unmatched hnone => simp [hselect] at hnone
  | fired hsome hfired =>
      rw [hselect] at hsome
      cases hsome
      simp [hkind] at hfired
  | untargeted hsome harrow hnone =>
      rw [hselect] at hsome
      cases hsome
      simp [hindex] at hnone
  | @moved c t name further index hsome harrow hsomeIndex =>
      rw [hselect] at hsome
      cases hsome
      obtain rfl : target = index := by simpa [hindex] using hsomeIndex
      simp

end Session

namespace Machine

open LiveTree Session

variable {σ : Type u} {root : Machine} {press release : Stimulus} {plan : Nat}

/-- After `press` the root is in the hatch, and nothing runs below it. -/
theorem Hatch.tree_press (hatch : root.Hatch press release plan) {s : Session σ} (h : Running root s)
    (now : Instant) : (s.dispatch now press).2.tree = inState root plan := by
  have hmem : s.tree.currentState ∈ root.states := h.machine ▸ h.wellFormed.currentState_mem
  have hignored := hatch.ignored s.tree.currentState hmem
  by_cases hplan : s.tree.current = plan
  · -- the root is in the hatch already, where it does not take the stimulus
    have hstate : s.tree.currentState = root.stateAt plan := by rw [currentState, h.machine, hplan]
    have hselect : select? s.tree press = none := by
      rw [select?_of_ignored h.wellFormed hignored, hstate, hatch.stays, Option.map_none]
    have hdispatch : (s.dispatch now press).2.tree = s.tree := by
      rw [dispatch, hselect]
      rfl
    have halone : s.tree.currentState.subMachines = [] := by rw [hstate, hatch.alone]
    rw [hdispatch, h.wellFormed.eq_inState halone, h.machine, hplan]
  · have hposition : s.tree.current < root.states.length := h.machine ▸ h.wellFormed.position
    exact (dispatch_of_moves h now hignored (hatch.inward _ hposition hplan)).1

/-- After `release` in the hatch, the tree and the view are those of the start. -/
theorem Hatch.start_release (hatch : root.Hatch press release plan) {s : Session σ} (h : Running root s)
    (htree : s.tree = inState root plan) (now : Instant) :
    (s.dispatch now release).2.tree = fresh root ∧ (s.dispatch now release).2.view = viewOf (fresh root) := by
  have halone : s.tree.currentState.subMachines = [] := by
    rw [htree]
    exact hatch.alone
  have hignored : ∀ sub ∈ s.tree.currentState.subMachines, sub.Ignores release := by
    rw [halone]
    simp
  have hmoves : root.Moves release s.tree.current root.start := by
    rw [htree]
    exact hatch.outward
  rw [fresh_eq_inState]
  exact dispatch_of_moves h now hignored hmoves

end Machine

end ModeTree
