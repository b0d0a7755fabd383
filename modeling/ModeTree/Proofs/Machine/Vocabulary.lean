import ModeTree.Proofs.Machine.Construction

/-!
# The actions that a machine names

A state mentions an action when it performs it on entry or on exit, or when one of its transitions does
(`State.Mentions`). The names that are collected from a machine are those that a state of the machine mentions,
or a state of a machine in it at any depth (`mem_actionNames_iff`).
-/

set_option autoImplicit false

namespace ModeTree

/-- The places in a state where an action may be named: on entry, on exit, as the action of a transition that
leads nowhere, and among the further actions of a transition. -/
inductive State.Mentions {μ : Type} (s : State Transition μ) (name : String) : Prop
  | enter (h : name ∈ s.enter)
  | exit (h : name ∈ s.exit)
  | action {t : Transition} {also : List String} (ht : t ∈ s.transitions) (h : t.kind = .action name also)
  | also {t : Transition} (ht : t ∈ s.transitions) (h : name ∈ t.kind.also)

theorem TransitionKind.mem_actions_iff (kind : TransitionKind) (name : String) :
    name ∈ kind.actions ↔ (∃ also, kind = .action name also) ∨ name ∈ kind.also := by
  cases kind with
  | arrow target further => simp [actions, also]
  | action first further => simp [actions, also, eq_comm]

theorem State.mem_ownActions_iff {μ : Type} (s : State Transition μ) (name : String) :
    name ∈ s.ownActions ↔ s.Mentions name := by
  rw [ownActions, List.mem_append, List.mem_append, List.mem_flatMap]
  constructor
  · rintro ((henter | hexit) | ⟨t, ht, hname⟩)
    · exact .enter henter
    · exact .exit hexit
    · rcases (t.kind.mem_actions_iff name).1 hname with ⟨also, hkind⟩ | halso
      · exact .action ht hkind
      · exact .also ht halso
  · intro hmentions
    cases hmentions with
    | enter h => exact Or.inl (Or.inl h)
    | exit h => exact Or.inl (Or.inr h)
    | @action t also ht h => exact Or.inr ⟨t, ht, (t.kind.mem_actions_iff name).2 (Or.inl ⟨also, h⟩)⟩
    | @also t ht h => exact Or.inr ⟨t, ht, (t.kind.mem_actions_iff name).2 (Or.inr h)⟩

namespace Machine

variable {m sub : Machine} {s : State Transition Machine}

/-- The actions of a state are among those of its machine. -/
theorem ownActions_subset (hs : s ∈ m.states) : s.ownActions ⊆ m.actions := by
  intro name hname
  exact (m.mem_actions_iff name).2 ⟨s, hs, Or.inl hname⟩

/-- The actions of a machine in a state are among those of the machine of the state. -/
theorem actions_subset_of_sub (hs : s ∈ m.states) (hsub : sub ∈ s.subMachines) :
    sub.actions ⊆ m.actions := by
  intro name hname
  exact (m.mem_actions_iff name).2 ⟨s, hs, Or.inr ⟨sub, hsub, hname⟩⟩

theorem mem_actionNames_iff_mem_actions (m : Machine) (name : String) :
    name ∈ m.actionNames ↔ name ∈ m.actions := by
  rw [actionNames, NameTable.mem_names_ofList_iff]
  simp

/-- The actions of a machine are mentioned by its states and by those of the machines in it. -/
theorem exists_mentions_of_mem_actions {name : String} (h : name ∈ m.actions) :
    ∃ sub, (sub = m ∨ m.Holds sub) ∧ ∃ s ∈ sub.states, s.Mentions name := by
  induction m using Machine.induction with
  | nest m ih =>
      obtain ⟨s, hs, hown | ⟨next, hnext, hname⟩⟩ := (m.mem_actions_iff name).1 h
      · exact ⟨m, Or.inl rfl, s, hs, (s.mem_ownActions_iff name).1 hown⟩
      · obtain ⟨sub, hsub, hmentions⟩ := ih s hs next hnext hname
        refine ⟨sub, Or.inr ?_, hmentions⟩
        -- the way to the machine begins in this state
        rcases hsub with rfl | hholds
        · exact .single ⟨s, hs, hnext⟩
        · exact .head ⟨s, hs, hnext⟩ hholds

theorem Holds.actions_subset (h : m.Holds sub) : sub.actions ⊆ m.actions := by
  induction h with
  | single hstep =>
      obtain ⟨s, hs, hsub⟩ := hstep
      exact actions_subset_of_sub hs hsub
  | tail _ hstep ih =>
      obtain ⟨s, hs, hsub⟩ := hstep
      exact List.Subset.trans (actions_subset_of_sub hs hsub) ih

/-- The names that are collected from a machine are those that a state mentions, of the machine itself or of
a machine in it. -/
theorem mem_actionNames_iff (m : Machine) (name : String) :
    name ∈ m.actionNames ↔
      ∃ sub, (sub = m ∨ m.Holds sub) ∧ ∃ s ∈ sub.states, s.Mentions name := by
  rw [mem_actionNames_iff_mem_actions]
  constructor
  · exact exists_mentions_of_mem_actions
  · rintro ⟨sub, hsub, s, hs, hmentions⟩
    have hname := ownActions_subset hs ((s.mem_ownActions_iff name).2 hmentions)
    rcases hsub with rfl | hholds
    · exact hname
    · exact hholds.actions_subset hname

end Machine

end ModeTree
