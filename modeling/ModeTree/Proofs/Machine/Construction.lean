import ModeTree.Proofs.Machine.Agreement
import Mathlib.Logic.Relation

/-!
# Machines and their drafts

`MachineDraft.Makes` says what a machine has to do with the draft that it was built from: its states stand in
the order of the draft and say what the draft says, every text of a transition has become a stimulus, and the
start and the targets of arrows are given by the positions of the states that the draft names. A draft that
builds makes its machine, and so did the drafts of all machines in it, at every depth (`build_makes`).
-/

set_option autoImplicit false

namespace ModeTree

/-- The stimuli that a list of texts spells, one by one. -/
def Stimulus.Spelled (texts : List String) (stimuli : List Stimulus) : Prop :=
  List.Forall₂ (fun text x => Stimulus.parse text = .ok x) texts stimuli

/-- A transition of the machine `m` made of a draft. -/
structure TransitionDraft.Makes (m : Machine) (d : TransitionDraft) (t : Transition) : Prop where
  kind : d.kind = t.kind
  hint : d.hint = t.hint
  stimuli : Stimulus.Spelled d.stimuli t.stimuli
  waits : t.stimuli ≠ []
  arrow : t.Resolved m
  action : t.kind.target? = none → t.targetIndex = none

/-- A machine made of a draft, with the machines in its states as they are in the draft. -/
structure MachineDraft.Makes (d : MachineDraft) (m : Machine) : Prop where
  name : d.name = m.name
  inhabited : m.states ≠ []
  distinct : (m.states.map (·.id)).Nodup
  start : ∃ hlt : m.start < m.states.length, d.start = some m.states[m.start].id
  states : List.Forall₂
    (fun s s' => s.Says (TransitionDraft.Makes m) s' ∧ s.subMachines = s'.subMachines) d.states m.states
  depth : m.depth ≤ d.maxDepth

/-- Where every text is a stimulus, those that can be read are spelled by all of the texts. -/
theorem Stimulus.spelled_filterMap {texts : List String}
    (h : ∀ text ∈ texts, ∃ x, Stimulus.parse text = .ok x) :
    Spelled texts (texts.filterMap fun text => (Stimulus.parse text).toOption) := by
  induction texts with
  | nil => exact .nil
  | cons text texts ih =>
      obtain ⟨⟨x, hx⟩, hrest⟩ := List.forall_mem_cons.1 h
      rw [List.filterMap_cons, hx]
      exact .cons hx (ih hrest)

/-! ## One machine -/

namespace MachineDraft

variable {d : MachineDraft} {m : Machine}

/-- A transition of a sound draft makes one of the machine that has the states of the draft. -/
theorem makes_buildTransition (hsound : d.Sound) (hm : m.states = d.states.map d.buildState)
    {s : StateDraft} (hs : s ∈ d.states) {t : TransitionDraft} (ht : t ∈ s.transitions) :
    t.Makes m (d.buildTransition t) := by
  have htransition := hsound.transitions s hs t ht
  have hstimuli : Stimulus.Spelled t.stimuli (d.buildTransition t).stimuli :=
    Stimulus.spelled_filterMap htransition.readable
  refine ⟨rfl, rfl, hstimuli, ?_, resolved_buildTransition hsound hm hs ht, ?_⟩
  · intro hnil
    rw [hnil] at hstimuli
    exact htransition.stimuli (List.forall₂_nil_right_iff.1 hstimuli)
  · intro hnone
    have hnone : t.kind.target? = none := hnone
    show t.kind.target?.bind d.indexOf? = none
    rw [hnone, Option.bind_none]

theorem makes_of_build (h : d.build = .ok m) : d.Makes m := by
  have hdepth := depth_of_build h
  have hstart := start_eq_of_build h
  have hlt := start_lt_of_build h
  obtain ⟨hsound, hm⟩ := (build_eq_ok_iff d m).1 h
  have hname : d.name = m.name := by rw [hm]
  have hstates : m.states = d.states.map d.buildState := by rw [hm]
  refine ⟨hname, ?_, ?_, ?_, ?_, hdepth ▸ hsound.depth⟩
  · rw [hstates, Ne, List.map_eq_nil_iff]
    exact hsound.states
  · rw [hstates, List.map_map]
    exact hsound.distinct
  · rw [Machine.startState, Machine.stateAt_eq_getElem hlt] at hstart
    exact ⟨hlt, hstart⟩
  · rw [hstates, List.forall₂_map_right_iff, List.forall₂_same]
    intro s hs
    refine ⟨⟨rfl, rfl, rfl, ?_, rfl, rfl⟩, rfl⟩
    show List.Forall₂ _ s.transitions (s.transitions.map d.buildTransition)
    rw [List.forall₂_map_right_iff, List.forall₂_same]
    intro t ht
    exact makes_buildTransition hsound hstates hs ht

end MachineDraft

/-! ## The machines in it -/

namespace Machine

/-- The second machine runs in a state of the first, or in a state of a machine that does, and so on. -/
def Holds : Machine → Machine → Prop :=
  Relation.TransGen fun m sub => ∃ s ∈ m.states, sub ∈ s.subMachines

theorem Validated.exists_draft {m : Machine} (h : m.Validated) : ∃ d : MachineDraft, d.build = .ok m := by
  apply h.induction
  intro d m hbuild _
  exact ⟨d, hbuild⟩

/-- A machine in a validated machine, at whatever depth, was built from a draft. -/
theorem Validated.exists_draft_of_holds {m : Machine} (h : m.Validated) :
    ∀ sub, m.Holds sub → ∃ d : MachineDraft, d.build = .ok sub := by
  apply h.induction
  intro d m hbuild ih sub hsub
  -- the way to the machine begins in a state of this one, which is as it was drafted
  obtain ⟨next, ⟨s', hs', hnext⟩, hrest⟩ := Relation.TransGen.head'_iff.1 hsub
  obtain ⟨s, hs, -, hsame⟩ := exists_of_mem_right (MachineDraft.makes_of_build hbuild).states hs'
  obtain ⟨hvalid, hheld⟩ := ih s hs next (hsame ▸ hnext)
  rcases Relation.reflTransGen_iff_eq_or_transGen.1 hrest with rfl | hrest
  · exact hvalid.exists_draft
  · exact hheld sub hrest

end Machine

/-- A draft that builds makes its machine. If the machines in its states were built themselves, then each
machine in it was built from a draft, at every depth, and whatever draft that was, the draft makes it. -/
theorem MachineDraft.build_makes {d : MachineDraft} {m : Machine} (h : d.build = .ok m) :
    d.Makes m ∧
      ((∀ s ∈ d.states, ∀ sub ∈ s.subMachines, sub.Validated) → ∀ sub, m.Holds sub →
        (∃ inner : MachineDraft, inner.build = .ok sub) ∧
          ∀ inner : MachineDraft, inner.build = .ok sub → inner.Makes sub) := by
  refine ⟨makes_of_build h, ?_⟩
  intro hsubs sub hsub
  have hvalid : m.Validated := .built hsubs h
  exact ⟨hvalid.exists_draft_of_holds sub hsub, fun inner hinner => makes_of_build hinner⟩

/-- The draft of a lamp that blinks makes the lamp, and the draft of the blinker the machine in it. -/
theorem MachineDraft.build_makes_lamp :
    ∃ inner root, blinker.build = .ok inner ∧ (lamp inner).build = .ok root ∧ (lamp inner).Makes root ∧
      root.Holds inner ∧ blinker.Makes inner := by
  have hlamp : ∀ inner root, blinker.build = .ok inner → (lamp inner).build = .ok root →
      (lamp inner).Makes root ∧ root.Holds inner ∧ blinker.Makes inner := by
    intro inner root hinner hroot
    obtain ⟨hmakes, hnested⟩ := build_makes hroot
    have hvalid : inner.Validated := .built (by simp [blinker]) hinner
    have hsubs : ∀ s ∈ (lamp inner).states, ∀ sub ∈ s.subMachines, sub.Validated := by
      simpa [lamp] using hvalid
    obtain ⟨s', hs', -, hsame⟩ := exists_of_mem_left hmakes.states List.mem_cons_self
    have hholds : root.Holds inner := .single ⟨s', hs', hsame ▸ List.mem_cons_self⟩
    exact ⟨hmakes, hholds, (hnested hsubs inner hholds).2 blinker hinner⟩
  exact ⟨_, _, rfl, rfl, hlamp _ _ rfl rfl⟩

end ModeTree
