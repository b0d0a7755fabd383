import ModeTree.Proofs.Machine.WellFormed
import ModeTree.Proofs.NameTable

/-!
# Machines that agree

Two machines agree when they have the same states, at every depth, in whatever order (`Machine.Agrees`).
States are paired by their ids, and positions do not count: neither that of the start nor those to which
arrows lead. Drafts that agree in this sense build alike (`MachineDraft.Agrees.exists_build`), every validated
machine agrees with itself, and machines that agree are equally deep and name the same actions.
-/

set_option autoImplicit false

namespace ModeTree

/-- Two transitions that say the same. They may be resolved to different positions. -/
structure Transition.Agrees (t u : Transition) : Prop where
  kind : t.kind = u.kind
  stimuli : t.stimuli = u.stimuli
  hint : t.hint = u.hint

/-- Two states that say the same, with transitions related by `T`. Nothing is said of the machines in
them. -/
structure State.Says {τ τ' μ μ' : Type} (T : τ → τ' → Prop) (s : State τ μ) (s' : State τ' μ') : Prop where
  id : s.id = s'.id
  enter : s.enter = s'.enter
  exit : s.exit = s'.exit
  transitions : List.Forall₂ T s.transitions s'.transitions
  hintMode : s.hintMode = s'.hintMode
  description : s.description = s'.description

theorem State.Says.refl {τ μ : Type} (s : State τ μ) : s.Says Eq s :=
  ⟨rfl, rfl, rfl, List.forall₂_same.2 fun _ _ => rfl, rfl, rfl⟩

theorem State.Says.transitions_eq {τ μ μ' : Type} {s : State τ μ} {s' : State τ μ'} (h : s.Says Eq s') :
    s.transitions = s'.transitions := by
  have htransitions := h.transitions
  rwa [List.forall₂_eq_eq_eq] at htransitions

theorem State.Says.symm {τ μ μ' : Type} {s : State τ μ} {s' : State τ μ'} (h : s.Says Eq s') :
    s'.Says Eq s :=
  ⟨h.id.symm, h.enter.symm, h.exit.symm, h.transitions.flip.imp fun _ _ ht => ht.symm, h.hintMode.symm,
    h.description.symm⟩

theorem State.Says.trans {τ μ μ' μ'' : Type} {s : State τ μ} {s' : State τ μ'} {s'' : State τ μ''}
    (h : s.Says Eq s') (h' : s'.Says Eq s'') : s.Says Eq s'' := by
  have htransitions := h.transitions_eq.trans h'.transitions_eq
  refine ⟨h.id.trans h'.id, h.enter.trans h'.enter, h.exit.trans h'.exit, ?_, h.hintMode.trans h'.hintMode,
    h.description.trans h'.description⟩
  rw [htransitions]
  exact List.forall₂_same.2 fun _ _ => rfl

theorem State.Says.ownActions_eq {μ μ' : Type} {s : State Transition μ} {s' : State Transition μ'}
    (h : s.Says Transition.Agrees s') : s.ownActions = s'.ownActions := by
  have hkinds : s.transitions.map (·.kind) = s'.transitions.map (·.kind) :=
    map_eq_of_forall₂ h.transitions fun _ _ ht => ht.kind
  have hactions : (s.transitions.flatMap fun t => t.kind.actions) =
      s'.transitions.flatMap fun t => t.kind.actions := by
    have hmap := congrArg (fun kinds => kinds.flatMap TransitionKind.actions) hkinds
    simpa only [List.flatMap_map] using hmap
  rw [ownActions, ownActions, h.enter, h.exit, hactions]

namespace Machine

/-- The same states, at every depth, in whatever order. -/
inductive Agrees : Machine → Machine → Prop
  | intro {m m' : Machine} (name : m.name = m'.name)
      (ids : (m.states.map (·.id)).Perm (m'.states.map (·.id)))
      (start : m.startState.id = m'.startState.id)
      (states : ∀ s ∈ m.states, ∀ s' ∈ m'.states, s.id = s'.id → s.Says Transition.Agrees s')
      (subs : ∀ s ∈ m.states, ∀ s' ∈ m'.states, s.id = s'.id →
        List.Forall₂ Agrees s.subMachines s'.subMachines) : Agrees m m'

variable {m m' : Machine}

theorem Agrees.name (h : m.Agrees m') : m.name = m'.name := by
  cases h with
  | intro name ids start states subs => exact name

theorem Agrees.ids (h : m.Agrees m') : (m.states.map (·.id)).Perm (m'.states.map (·.id)) := by
  cases h with
  | intro name ids start states subs => exact ids

theorem Agrees.start (h : m.Agrees m') : m.startState.id = m'.startState.id := by
  cases h with
  | intro name ids start states subs => exact start

theorem Agrees.alike (h : m.Agrees m') {s s' : State Transition Machine} (hs : s ∈ m.states)
    (hs' : s' ∈ m'.states) (hid : s.id = s'.id) : s.Says Transition.Agrees s' := by
  cases h with
  | intro name ids start states subs => exact states s hs s' hs' hid

theorem Agrees.subs (h : m.Agrees m') {s s' : State Transition Machine} (hs : s ∈ m.states)
    (hs' : s' ∈ m'.states) (hid : s.id = s'.id) : List.Forall₂ Agrees s.subMachines s'.subMachines := by
  cases h with
  | intro name ids start states subs => exact subs s hs s' hs' hid

/-- Every state of the first machine has a partner in the second. -/
theorem Agrees.exists_right (h : m.Agrees m') {s : State Transition Machine} (hs : s ∈ m.states) :
    ∃ s' ∈ m'.states, s.id = s'.id := by
  have hid := h.ids.mem_iff.1 (List.mem_map_of_mem hs)
  obtain ⟨s', hs', heq⟩ := List.mem_map.1 hid
  exact ⟨s', hs', heq.symm⟩

/-- Every state of the second machine has a partner in the first. -/
theorem Agrees.exists_left (h : m.Agrees m') {s' : State Transition Machine} (hs' : s' ∈ m'.states) :
    ∃ s ∈ m.states, s.id = s'.id := by
  have hid := h.ids.mem_iff.2 (List.mem_map_of_mem hs')
  obtain ⟨s, hs, heq⟩ := List.mem_map.1 hid
  exact ⟨s, hs, heq⟩

/-! ## Depth and actions -/

theorem Agrees.depth_eq (h : m.Agrees m') : m.depth = m'.depth := by
  induction m using Machine.induction generalizing m' with
  | nest m ih =>
      apply MachineDraft.eq_of_le_succ_iff m.depth_pos m'.depth_pos
      intro n
      rw [depth_le_succ_iff, depth_le_succ_iff]
      constructor
      · intro hle s' hs' sub' hsub'
        obtain ⟨s, hs, hid⟩ := h.exists_left hs'
        obtain ⟨sub, hsub, hagrees⟩ := exists_of_mem_right (h.subs hs hs' hid) hsub'
        rw [← ih s hs sub hsub hagrees]
        exact hle s hs sub hsub
      · intro hle s hs sub hsub
        obtain ⟨s', hs', hid⟩ := h.exists_right hs
        obtain ⟨sub', hsub', hagrees⟩ := exists_of_mem_left (h.subs hs hs' hid) hsub
        rw [ih s hs sub hsub hagrees]
        exact hle s' hs' sub' hsub'

theorem mem_actionsOfMachines_iff (ms : List Machine) (a : String) :
    a ∈ actionsOfMachines ms ↔ ∃ m ∈ ms, a ∈ m.actions := by
  induction ms with
  | nil => simp [actionsOfMachines]
  | cons m ms ih => simp [actionsOfMachines, ih]

theorem mem_actionsOfState_iff (s : State Transition Machine) (a : String) :
    a ∈ actionsOfState s ↔ a ∈ s.ownActions ∨ ∃ sub ∈ s.subMachines, a ∈ sub.actions := by
  cases s
  rw [actionsOfState, List.mem_append, mem_actionsOfMachines_iff]
  rfl

/-- The actions of a machine are those of its states and of the machines in them. -/
theorem mem_actions_iff (m : Machine) (a : String) :
    a ∈ m.actions ↔
      ∃ s ∈ m.states, a ∈ s.ownActions ∨ ∃ sub ∈ s.subMachines, a ∈ sub.actions := by
  obtain ⟨name, start, states⟩ := m
  rw [actions]
  induction states with
  | nil => simp [actionsOfStates]
  | cons s states ih => simp [actionsOfStates, mem_actionsOfState_iff, ih]

theorem Agrees.mem_actions_iff (h : m.Agrees m') (a : String) : a ∈ m.actions ↔ a ∈ m'.actions := by
  induction m using Machine.induction generalizing m' with
  | nest m ih =>
      rw [Machine.mem_actions_iff, Machine.mem_actions_iff]
      constructor
      · rintro ⟨s, hs, ha⟩
        obtain ⟨s', hs', hid⟩ := h.exists_right hs
        refine ⟨s', hs', ?_⟩
        rcases ha with hown | ⟨sub, hsub, ha⟩
        · exact Or.inl ((h.alike hs hs' hid).ownActions_eq ▸ hown)
        · obtain ⟨sub', hsub', hagrees⟩ := exists_of_mem_left (h.subs hs hs' hid) hsub
          exact Or.inr ⟨sub', hsub', (ih s hs sub hsub hagrees).1 ha⟩
      · rintro ⟨s', hs', ha⟩
        obtain ⟨s, hs, hid⟩ := h.exists_left hs'
        refine ⟨s, hs, ?_⟩
        rcases ha with hown | ⟨sub', hsub', ha⟩
        · exact Or.inl ((h.alike hs hs' hid).ownActions_eq ▸ hown)
        · obtain ⟨sub, hsub, hagrees⟩ := exists_of_mem_right (h.subs hs hs' hid) hsub'
          exact Or.inr ⟨sub, hsub, (ih s hs sub hsub hagrees).2 ha⟩

end Machine

/-- Machines that agree name the same actions. -/
theorem Machine.Agrees.actionNames_eq {m m' : Machine} (h : m.Agrees m') :
    m.actionNames = m'.actionNames := by
  apply NameTable.names_eq_of_mem_iff
  intro name
  simp [NameTable.mem_names_ofList_iff, h.mem_actions_iff name]

/-! ## Drafts that agree -/

namespace MachineDraft

/-- Two drafts with the same states in whatever order, and with machines in them that agree. -/
structure Agrees (d d' : MachineDraft) : Prop where
  name : d.name = d'.name
  start : d.start = d'.start
  limit : d.maxDepth = d'.maxDepth
  ids : d.ids.Perm d'.ids
  states : ∀ s ∈ d.states, ∃ s' ∈ d'.states, s.Says Eq s' ∧
    List.Forall₂ Machine.Agrees s.subMachines s'.subMachines

variable {d d' : MachineDraft} {m m' : Machine}

theorem eq_of_id_eq (hdistinct : d.ids.Nodup) {s u : StateDraft} (hs : s ∈ d.states) (hu : u ∈ d.states)
    (hid : s.id = u.id) : s = u := List.inj_on_of_nodup_map hdistinct hs hu hid

/-- Where ids are distinct every state of the second draft has a partner in the first, too. -/
theorem Agrees.exists_left (h : d.Agrees d') (hdistinct : d.ids.Nodup) {s' : StateDraft}
    (hs' : s' ∈ d'.states) :
    ∃ s ∈ d.states, s.Says Eq s' ∧ List.Forall₂ Machine.Agrees s.subMachines s'.subMachines := by
  obtain ⟨s, hs, hid⟩ := List.mem_map.1 (h.ids.mem_iff.2 (List.mem_map_of_mem hs'))
  obtain ⟨u, hu, hsame, hsubs⟩ := h.states s hs
  have hdistinct' : d'.ids.Nodup := h.ids.nodup_iff.1 hdistinct
  obtain rfl : u = s' := eq_of_id_eq hdistinct' hu hs' (hsame.id.symm.trans hid)
  exact ⟨s, hs, hsame, hsubs⟩

/-- Drafts that agree are sound together. -/
theorem Agrees.sound (h : d.Agrees d') (hsound : d.Sound) : d'.Sound := by
  refine ⟨?_, ?_, h.ids.nodup_iff.1 hsound.distinct, ?_, ?_⟩
  · intro hnil
    obtain ⟨id, -, hid⟩ := hsound.start
    have hmem := h.ids.mem_iff.1 hid
    simp [MachineDraft.ids, hnil] at hmem
  · obtain ⟨id, hstart, hid⟩ := hsound.start
    exact ⟨id, h.start ▸ hstart, h.ids.mem_iff.1 hid⟩
  · intro s' hs' t ht
    obtain ⟨s, hs, hsame, -⟩ := h.exists_left hsound.distinct hs'
    have ht' := hsound.transitions s hs t (hsame.transitions_eq ▸ ht)
    exact ⟨ht'.stimuli, ht'.readable, fun target htarget => h.ids.mem_iff.1 (ht'.target target htarget)⟩
  · -- the machines in the states are as deep as their partners
    obtain ⟨n, hn⟩ : ∃ n, d.maxDepth = n + 1 :=
      ⟨d.maxDepth - 1, by have := d.depth_pos; have := hsound.depth; omega⟩
    have hdepth := hsound.depth
    rw [hn, depth_le_succ_iff] at hdepth
    rw [← h.limit, hn, depth_le_succ_iff]
    intro s' hs' sub' hsub'
    obtain ⟨s, hs, -, hsubs⟩ := h.exists_left hsound.distinct hs'
    obtain ⟨sub, hsub, hagrees⟩ := exists_of_mem_right hsubs hsub'
    rw [← hagrees.depth_eq]
    exact hdepth s hs sub hsub

/-- A machine starts in the state that its draft names. -/
theorem start_eq_of_build (h : d.build = .ok m) : d.start = some m.startState.id := by
  obtain ⟨hsound, rfl⟩ := (build_eq_ok_iff d m).1 h
  obtain ⟨start, hstart, hmem⟩ := hsound.start
  obtain ⟨i, hi, hindex, hid⟩ := indexOf?_of_mem hmem
  have hlt : i < (d.states.map d.buildState).length := by simpa using hi
  simp only [Machine.startState, hstart, Option.bind_some, hindex, Option.getD_some]
  rw [Machine.stateAt_eq_getElem hlt]
  simp [buildState, hid]

theorem says_buildState {s s' : StateDraft} (h : s.Says Eq s') :
    (d.buildState s).Says Transition.Agrees (d'.buildState s') := by
  refine ⟨h.id, h.enter, h.exit, ?_, h.hintMode, h.description⟩
  show List.Forall₂ _ (s.transitions.map d.buildTransition) (s'.transitions.map d'.buildTransition)
  rw [← h.transitions_eq, List.forall₂_map_left_iff, List.forall₂_map_right_iff, List.forall₂_same]
  exact fun t _ => ⟨rfl, rfl, rfl⟩

/-- Drafts that agree build machines that agree. -/
theorem Agrees.agrees_of_build (h : d.Agrees d') (hm : d.build = .ok m) (hm' : d'.build = .ok m') :
    m.Agrees m' := by
  have hstart := start_eq_of_build hm
  have hstart' := start_eq_of_build hm'
  rw [← h.start, hstart] at hstart'
  obtain ⟨hsound, rfl⟩ := (build_eq_ok_iff d m).1 hm
  obtain ⟨hsound', rfl⟩ := (build_eq_ok_iff d' m').1 hm'
  have hids : ∀ d : MachineDraft, (d.states.map d.buildState).map (·.id) = d.ids := by
    intro d
    rw [List.map_map]
    rfl
  -- two states with one id are built from partners
  have hpartner : ∀ s ∈ d.states, ∀ s' ∈ d'.states, s.id = s'.id →
      s.Says Eq s' ∧ List.Forall₂ Machine.Agrees s.subMachines s'.subMachines := by
    intro s hs s' hs' hid
    obtain ⟨u, hu, hsame, hsubs⟩ := h.states s hs
    obtain rfl : u = s' := eq_of_id_eq hsound'.distinct hu hs' (hsame.id.symm.trans hid)
    exact ⟨hsame, hsubs⟩
  refine Machine.Agrees.intro h.name ?_ (Option.some.inj hstart') ?_ ?_
  · rw [hids, hids]
    exact h.ids
  · intro s hs s' hs' hid
    obtain ⟨draft, hdraft, rfl⟩ := List.mem_map.1 hs
    obtain ⟨draft', hdraft', rfl⟩ := List.mem_map.1 hs'
    exact says_buildState (hpartner draft hdraft draft' hdraft' hid).1
  · intro s hs s' hs' hid
    obtain ⟨draft, hdraft, rfl⟩ := List.mem_map.1 hs
    obtain ⟨draft', hdraft', rfl⟩ := List.mem_map.1 hs'
    exact (hpartner draft hdraft draft' hdraft' hid).2

/-- Where one of two drafts that agree builds, so does the other, into a machine that agrees. -/
theorem Agrees.exists_build (h : d.Agrees d') (hm : d.build = .ok m) :
    ∃ m', d'.build = .ok m' ∧ m.Agrees m' := by
  obtain ⟨hsound, -⟩ := (build_eq_ok_iff d m).1 hm
  have hm' := (build_eq_ok_iff d' _).2 ⟨h.sound hsound, rfl⟩
  exact ⟨_, hm', h.agrees_of_build hm hm'⟩

/-- A machine that is built with machines that agree with themselves agrees with itself. -/
theorem agrees_self_of_build (h : d.build = .ok m)
    (subs : ∀ s ∈ d.states, ∀ sub ∈ s.subMachines, sub.Agrees sub) : m.Agrees m := by
  have hself : d.Agrees d := by
    refine ⟨rfl, rfl, rfl, List.Perm.refl _, fun s hs => ⟨s, hs, .refl s, ?_⟩⟩
    exact List.forall₂_same.2 (subs s hs)
  exact hself.agrees_of_build h h

end MachineDraft

/-- A validated machine agrees with itself: its ids are distinct at every depth. -/
theorem Machine.Validated.agrees_self {m : Machine} (h : m.Validated) : m.Agrees m := by
  apply h.induction
  intro d m hbuild ih
  exact MachineDraft.agrees_self_of_build hbuild fun s hs sub hsub => (ih s hs sub hsub).2

end ModeTree
