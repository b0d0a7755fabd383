import ModeTree.Machine.Draft
import Mathlib.Data.List.GetD
import Mathlib.Data.List.Nodup

/-!
# Drafts without defects

`MachineDraft.Sound` says in plain terms when a draft has no defect, and `defects_eq_nil_iff` that the
checks find exactly that. A sound draft builds, into a machine of the same depth
(`build_eq_ok_iff`, `depth_of_build`).
-/

set_option autoImplicit false

namespace ModeTree

universe u

namespace Machine

/-- Induction over a machine: a machine from the machines in its states. -/
@[elab_as_elim]
theorem induction {motive : Machine → Prop}
    (nest : ∀ m : Machine, (∀ s ∈ m.states, ∀ sub ∈ s.subMachines, motive sub) → motive m) :
    ∀ m, motive m
  | ⟨name, start, states⟩ => nest ⟨name, start, states⟩ fun s _hs sub _hsub => induction nest sub
termination_by m => sizeOf m
decreasing_by
  have hstate := List.sizeOf_lt_of_mem _hs
  have hmachine := List.sizeOf_lt_of_mem _hsub
  cases s
  simp only [Machine.mk.sizeOf_spec, State.mk.sizeOf_spec] at *
  omega

/-! ## Positions of states -/

theorem stateAt_eq_getElem {m : Machine} {i : Nat} (hi : i < m.states.length) :
    m.stateAt i = m.states[i] := List.getD_eq_getElem _ _ hi

theorem stateAt_mem {m : Machine} {i : Nat} (hi : i < m.states.length) : m.stateAt i ∈ m.states := by
  rw [stateAt_eq_getElem hi]
  exact List.getElem_mem hi

theorem stateAt_of_le {m : Machine} {i : Nat} (hi : m.states.length ≤ i) : m.stateAt i = default :=
  List.getD_eq_default _ _ hi

/-- What goes down a list of states to a position does what it does in the state there. Behind the last one
there is a state with nothing in it. -/
theorem eq_getD_of_descent {α : Type u} {f : List (State Transition Machine) → Nat → α}
    {g : State Transition Machine → α} (nil : ∀ index, f [] index = g default)
    (here : ∀ s rest, f (s :: rest) 0 = g s)
    (further : ∀ s rest index, f (s :: rest) (index + 1) = f rest index)
    (states : List (State Transition Machine)) (index : Nat) :
    f states index = g (states.getD index default) := by
  induction states generalizing index with
  | nil => rw [nil, List.getD_nil]
  | cons s states ih =>
      cases index with
      | zero => rw [here, List.getD_cons_zero]
      | succ index => rw [further, ih, List.getD_cons_succ]

/-- A position at which there are machines is that of a state. -/
theorem stateAt_mem_of_sub {m sub : Machine} {i : Nat} (h : sub ∈ (m.stateAt i).subMachines) :
    m.stateAt i ∈ m.states := by
  by_cases hi : i < m.states.length
  · exact stateAt_mem hi
  · -- elsewhere stands the default, a state with no machines in it
    rw [stateAt_of_le (Nat.le_of_not_lt hi)] at h
    exact absurd h List.not_mem_nil

/-! ## Depth -/

theorem depthOfMachines_le_iff (ms : List Machine) (n : Nat) :
    depthOfMachines ms ≤ n ↔ ∀ m ∈ ms, m.depth ≤ n := by
  induction ms with
  | nil => simp [depthOfMachines]
  | cons m ms ih => rw [depthOfMachines, Nat.max_le, ih, List.forall_mem_cons]

theorem depthOfStates_le_iff (states : List (State Transition Machine)) (n : Nat) :
    depthOfStates states ≤ n ↔ ∀ s ∈ states, ∀ sub ∈ s.subMachines, sub.depth ≤ n := by
  induction states with
  | nil => simp [depthOfStates]
  | cons s states ih =>
      rw [depthOfStates, Nat.max_le, ih, List.forall_mem_cons]
      cases s
      rw [depthOfState, depthOfMachines_le_iff]

theorem depth_eq (m : Machine) : m.depth = 1 + depthOfStates m.states := by
  cases m
  rw [depth]

theorem depth_le_succ_iff (m : Machine) (n : Nat) :
    m.depth ≤ n + 1 ↔ ∀ s ∈ m.states, ∀ sub ∈ s.subMachines, sub.depth ≤ n := by
  rw [depth_eq, ← depthOfStates_le_iff]
  omega

theorem depth_pos (m : Machine) : 0 < m.depth := by
  rw [depth_eq]
  omega

/-- A machine in a state is less deep than the machine of the state. -/
theorem depth_lt_of_mem {m sub : Machine} {s : State Transition Machine} (hs : s ∈ m.states)
    (hsub : sub ∈ s.subMachines) : sub.depth < m.depth := by
  obtain ⟨n, hn⟩ : ∃ n, m.depth = n + 1 := ⟨m.depth - 1, by have := m.depth_pos; omega⟩
  have := (depth_le_succ_iff m n).1 (Nat.le_of_eq hn) s hs sub hsub
  omega

end Machine

/-- A transition without defects in a machine whose states have the given ids. -/
structure TransitionDraft.Sound (ids : List String) (t : TransitionDraft) : Prop where
  stimuli : t.stimuli ≠ []
  readable : ∀ text ∈ t.stimuli, ∃ x, Stimulus.parse text = .ok x
  target : ∀ target, t.kind.target? = some target → target ∈ ids

namespace MachineDraft

/-- A draft without defects. -/
structure Sound (d : MachineDraft) : Prop where
  states : d.states ≠ []
  start : ∃ id, d.start = some id ∧ id ∈ d.ids
  distinct : d.ids.Nodup
  transitions : ∀ s ∈ d.states, ∀ t ∈ s.transitions, t.Sound d.ids
  depth : d.depth ≤ d.maxDepth

/-! ## Depth of a draft -/

theorem foldl_max_le_iff (ns : List Nat) (a n : Nat) :
    ns.foldl max a ≤ n ↔ a ≤ n ∧ ∀ k ∈ ns, k ≤ n := by
  induction ns generalizing a with
  | nil => simp
  | cons k ns ih => rw [List.foldl_cons, ih, Nat.max_le, List.forall_mem_cons, and_assoc]

theorem depth_le_succ_iff (d : MachineDraft) (n : Nat) :
    d.depth ≤ n + 1 ↔ ∀ s ∈ d.states, ∀ sub ∈ s.subMachines, sub.depth ≤ n := by
  have hfold := foldl_max_le_iff ((d.states.flatMap (·.subMachines)).map Machine.depth) 0 n
  simp only [List.forall_mem_map, List.mem_flatMap, Nat.zero_le, true_and] at hfold
  rw [depth, Nat.add_comm 1, Nat.add_le_add_iff_right, hfold]
  constructor
  · intro h s hs sub hsub
    exact h sub ⟨s, hs, hsub⟩
  · rintro h sub ⟨s, hs, hsub⟩
    exact h s hs sub hsub

theorem depth_pos (d : MachineDraft) : 0 < d.depth := by
  rw [depth]
  omega

/-- A machine in a state of a draft is less deep than the draft. -/
theorem depth_lt_of_mem {d : MachineDraft} {draft : StateDraft} (hdraft : draft ∈ d.states)
    {sub : Machine} (hsub : sub ∈ draft.subMachines) : sub.depth < d.depth := by
  obtain ⟨n, hn⟩ : ∃ n, d.depth = n + 1 := ⟨_, Nat.add_comm 1 _⟩
  have := (depth_le_succ_iff d n).1 (Nat.le_of_eq hn) draft hdraft sub hsub
  omega

theorem eq_of_le_succ_iff {a b : Nat} (ha : 0 < a) (hb : 0 < b)
    (h : ∀ n, a ≤ n + 1 ↔ b ≤ n + 1) : a = b := by
  have hab := (h (b - 1)).2 (by omega)
  have hba := (h (a - 1)).1 (by omega)
  omega

/-! ## The checks -/

/-- The ids that are reported are those that stand more than once. -/
theorem mem_repeatedIds_iff (seen ids : List String) (id : String) :
    id ∈ repeatedIds seen ids ↔ seen.count id ≤ 1 ∧ 2 ≤ seen.count id + ids.count id := by
  induction ids generalizing seen with
  | nil =>
      rw [repeatedIds, List.count_nil, iff_false_left List.not_mem_nil]
      omega
  | cons other ids ih =>
      rw [repeatedIds]
      by_cases hother : other = id
      · subst hother
        rw [List.count_cons_self]
        by_cases hcount : seen.count other = 1
        · rw [if_pos hcount, iff_true_left List.mem_cons_self]
          omega
        · rw [if_neg hcount, ih, List.count_cons_self]
          omega
      · have hne : id ≠ other := fun h => hother h.symm
        have hrest : id ∈ (if seen.count other = 1 then other :: repeatedIds (other :: seen) ids
            else repeatedIds (other :: seen) ids) ↔ id ∈ repeatedIds (other :: seen) ids := by
          split <;> simp [hne]
        rw [hrest, ih, List.count_cons_of_ne hother, List.count_cons_of_ne hother]

theorem repeatedIds_eq_nil_iff (ids : List String) : repeatedIds [] ids = [] ↔ ids.Nodup := by
  rw [List.eq_nil_iff_forall_not_mem, List.nodup_iff_count_le_one]
  simp only [mem_repeatedIds_iff, List.count_nil]
  refine forall_congr' fun id => ?_
  omega

theorem stimulusDefect?_eq_none_iff (machine state text : String) :
    stimulusDefect? machine state text = none ↔ ∃ x, Stimulus.parse text = .ok x := by
  rw [stimulusDefect?]
  cases Stimulus.parse text <;> simp

theorem transitionDefects_eq_nil_iff (d : MachineDraft) (state : String) (t : TransitionDraft) :
    d.transitionDefects state t = [] ↔ t.Sound d.ids := by
  have hstimuli : (if t.stimuli.isEmpty then [Defect.noStimuli d.name state t.kind.key] else []) = [] ↔
      t.stimuli ≠ [] := by
    cases t.stimuli <;> simp
  have htexts : t.stimuli.filterMap (stimulusDefect? d.name state) = [] ↔
      ∀ text ∈ t.stimuli, ∃ x, Stimulus.parse text = .ok x := by
    rw [List.filterMap_eq_nil_iff]
    simp only [stimulusDefect?_eq_none_iff]
  rw [transitionDefects, List.append_eq_nil_iff, List.append_eq_nil_iff, hstimuli, htexts]
  constructor
  · rintro ⟨⟨h1, h2⟩, h3⟩
    refine ⟨h1, h2, fun target htarget => ?_⟩
    rw [htarget] at h3
    by_contra hmem
    simp [hmem] at h3
  · rintro ⟨h1, h2, h3⟩
    refine ⟨⟨h1, h2⟩, ?_⟩
    cases htarget : t.kind.target? with
    | none => rfl
    | some target => simp [h3 target htarget]

/-- The checks one by one. -/
theorem mem_defects_iff (d : MachineDraft) (defect : Defect) :
    defect ∈ d.defects ↔
      (d.states = [] ∧ defect = .noStates d.name) ∨ defect ∈ d.startDefects ∨
        (∃ id, 2 ≤ d.ids.count id ∧ defect = .duplicateState d.name id) ∨
        (defect ∈ d.states.flatMap fun s => s.transitions.flatMap (d.transitionDefects s.id)) ∨
        (d.maxDepth < d.depth ∧ defect = .tooDeep d.name d.depth d.maxDepth) := by
  have hnone : defect ∈ (if d.states.isEmpty then [Defect.noStates d.name] else []) ↔
      d.states = [] ∧ defect = .noStates d.name := by
    cases d.states <;> simp
  have hdeep : defect ∈ (if d.maxDepth < d.depth then [Defect.tooDeep d.name d.depth d.maxDepth] else []) ↔
      d.maxDepth < d.depth ∧ defect = .tooDeep d.name d.depth d.maxDepth := by
    by_cases h : d.maxDepth < d.depth <;> simp [h]
  have hrepeated : defect ∈ (repeatedIds [] d.ids).map (Defect.duplicateState d.name) ↔
      ∃ id, 2 ≤ d.ids.count id ∧ defect = .duplicateState d.name id := by
    simp [mem_repeatedIds_iff, eq_comm]
  simp only [defects, List.mem_append, hnone, hrepeated, hdeep, or_assoc]

/-- The checks find nothing exactly in a sound draft. -/
theorem defects_eq_nil_iff (d : MachineDraft) : d.defects = [] ↔ d.Sound := by
  have hstates : (if d.states.isEmpty then [Defect.noStates d.name] else []) = [] ↔ d.states ≠ [] := by
    cases d.states <;> simp
  have hrepeated : (repeatedIds [] d.ids).map (Defect.duplicateState d.name) = [] ↔ d.ids.Nodup := by
    simp [repeatedIds_eq_nil_iff]
  have htransitions : (d.states.flatMap fun s => s.transitions.flatMap (d.transitionDefects s.id)) = [] ↔
      ∀ s ∈ d.states, ∀ t ∈ s.transitions, t.Sound d.ids := by
    simp only [List.flatMap_eq_nil_iff, transitionDefects_eq_nil_iff]
  have hdepth : (if d.maxDepth < d.depth then [Defect.tooDeep d.name d.depth d.maxDepth] else []) = [] ↔
      d.depth ≤ d.maxDepth := by
    rw [← Nat.not_lt]
    by_cases h : d.maxDepth < d.depth <;> simp [h]
  -- without states the start is passed over, so this check says something only where there are some
  have hstart : d.states ≠ [] → (d.startDefects = [] ↔ ∃ id, d.start = some id ∧ id ∈ d.ids) := by
    intro hne
    rw [startDefects]
    cases d.start with
    | none => simp
    | some id => by_cases hid : id ∈ d.ids <;> simp [hid, hne]
  simp only [defects, List.append_eq_nil_iff, hstates, hrepeated, htransitions, hdepth]
  constructor
  · rintro ⟨⟨⟨⟨h1, h2⟩, h3⟩, h4⟩, h5⟩
    exact ⟨h1, (hstart h1).1 h2, h3, h4, h5⟩
  · rintro ⟨h1, h2, h3, h4, h5⟩
    exact ⟨⟨⟨⟨h1, (hstart h1).2 h2⟩, h3⟩, h4⟩, h5⟩

/-! ## The machine of a draft -/

/-- A draft builds exactly when it is sound, and then into the machine of its states. -/
theorem build_eq_ok_iff (d : MachineDraft) (m : Machine) :
    d.build = .ok m ↔
      d.Sound ∧ m = ⟨d.name, (d.start.bind d.indexOf?).getD 0, d.states.map d.buildState⟩ := by
  rw [build, ← defects_eq_nil_iff]
  cases d.defects with
  | nil => simp [eq_comm]
  | cons defect defects => simp

/-- A draft that does not build is answered with its defects. -/
theorem build_eq_error_iff (d : MachineDraft) (defects : List Defect) :
    d.build = .error defects ↔ d.defects = defects ∧ defects ≠ [] := by
  rw [build]
  cases d.defects with
  | nil => simp [eq_comm]
  | cons defect rest =>
      simp only [Except.error.injEq]
      constructor
      · rintro rfl
        exact ⟨rfl, List.cons_ne_nil _ _⟩
      · rintro ⟨h, -⟩
        exact h

theorem depth_of_build {d : MachineDraft} {m : Machine} (h : d.build = .ok m) :
    m.depth = d.depth := by
  obtain ⟨-, rfl⟩ := (build_eq_ok_iff d m).1 h
  -- both are one more than the depth of the deepest machine in a state
  apply eq_of_le_succ_iff (Machine.depth_pos _) d.depth_pos
  intro n
  rw [Machine.depth_le_succ_iff, depth_le_succ_iff]
  simp [buildState]

/-- The position of an id that a draft has. -/
theorem indexOf?_of_mem {d : MachineDraft} {id : String} (h : id ∈ d.ids) :
    ∃ i, ∃ hi : i < d.states.length, d.indexOf? id = some i ∧ d.states[i].id = id := by
  obtain ⟨s, hs, rfl⟩ := List.mem_map.1 h
  cases hfind : d.indexOf? s.id with
  | none =>
      -- the state itself has the id
      have := List.findIdx?_eq_none_iff.1 hfind s hs
      simp at this
  | some i =>
      obtain ⟨hi, hid, -⟩ := List.findIdx?_eq_some_iff_getElem.1 hfind
      exact ⟨i, hi, rfl, by simpa using hid⟩

end MachineDraft

end ModeTree
