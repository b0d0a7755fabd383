import ModeTree.Proofs.Document.Validity

/-!
# Validated machines

A machine is validated when it was built from a draft, or loaded from a document, with validated
machines in its states. Every validated machine is well formed at every depth: it starts in one of its
states, and every arrow leads to the state with the id that it names (`wellFormed_of_validated`).
-/

set_option autoImplicit false

namespace ModeTree

/-- An arrow that leads to the state of the machine with the id that it names. -/
def Transition.Resolved (m : Machine) (t : Transition) : Prop :=
  ∀ target, t.kind.target? = some target →
    ∃ i, ∃ hi : i < m.states.length, t.targetIndex = some i ∧ m.states[i].id = target

namespace MachineDraft

variable {d : MachineDraft} {m : Machine}

/-- A machine that is built starts in one of its states. -/
theorem start_lt_of_build (h : d.build = .ok m) : m.start < m.states.length := by
  obtain ⟨hsound, rfl⟩ := (build_eq_ok_iff d m).1 h
  obtain ⟨start, hstart, hmem⟩ := hsound.start
  obtain ⟨i, hi, hindex, -⟩ := indexOf?_of_mem hmem
  simpa [hstart, hindex] using hi

/-- The position that an arrow of a sound draft is given is that of the first state with its target's id. -/
theorem resolved_buildTransition (hsound : d.Sound) (hm : m.states = d.states.map d.buildState)
    {s : StateDraft} (hs : s ∈ d.states) {t : TransitionDraft} (ht : t ∈ s.transitions) :
    (d.buildTransition t).Resolved m := by
  intro target htarget
  have htarget : t.kind.target? = some target := htarget
  obtain ⟨i, hi, hindex, hid⟩ := indexOf?_of_mem ((hsound.transitions s hs t ht).target target htarget)
  refine ⟨i, by simpa [hm] using hi, ?_, ?_⟩
  · show t.kind.target?.bind d.indexOf? = some i
    rw [htarget, Option.bind_some, hindex]
  · simpa [hm, buildState] using hid

end MachineDraft

namespace Machine

/-- A machine that a builder or a document has given out. -/
inductive Validated : Machine → Prop
  | built {d : MachineDraft} {m : Machine}
      (subs : ∀ s ∈ d.states, ∀ sub ∈ s.subMachines, Validated sub) (h : d.build = .ok m) : Validated m
  | loaded {d : Document} {maxDepth : Nat} {set : MachineSet} {name : String} {m : Machine}
      (h : d.load maxDepth = .ok set) (hm : set.machines.get? name = some m) : Validated m

/-- A machine whose positions all exist, at every depth. -/
inductive WellFormed : Machine → Prop
  | intro {m : Machine} (start : m.start < m.states.length)
      (targets : ∀ s ∈ m.states, ∀ t ∈ s.transitions, t.Resolved m)
      (subs : ∀ s ∈ m.states, ∀ sub ∈ s.subMachines, WellFormed sub) : WellFormed m

theorem WellFormed.start {m : Machine} (h : m.WellFormed) : m.start < m.states.length := by
  cases h with
  | intro start targets subs => exact start

theorem WellFormed.targets {m : Machine} (h : m.WellFormed) {s : State Transition Machine}
    (hs : s ∈ m.states) {t : Transition} (ht : t ∈ s.transitions) : t.Resolved m := by
  cases h with
  | intro start targets subs => exact targets s hs t ht

theorem WellFormed.subs {m : Machine} (h : m.WellFormed) {s : State Transition Machine}
    (hs : s ∈ m.states) {sub : Machine} (hsub : sub ∈ s.subMachines) : sub.WellFormed := by
  cases h with
  | intro start targets subs => exact subs s hs sub hsub

/-- The machine of a draft is well formed if the machines in its states are. -/
theorem wellFormed_of_build {d : MachineDraft} {m : Machine} (h : d.build = .ok m)
    (subs : ∀ s ∈ d.states, ∀ sub ∈ s.subMachines, sub.WellFormed) : m.WellFormed := by
  have hstart := MachineDraft.start_lt_of_build h
  obtain ⟨hsound, rfl⟩ := (MachineDraft.build_eq_ok_iff d m).1 h
  refine WellFormed.intro hstart ?_ ?_
  · intro s hs t ht
    obtain ⟨draft, hdraft, rfl⟩ := List.mem_map.1 hs
    obtain ⟨td, htd, rfl⟩ := List.mem_map.1 ht
    exact MachineDraft.resolved_buildTransition hsound rfl hdraft htd
  · intro s hs sub hsub
    obtain ⟨draft, hdraft, rfl⟩ := List.mem_map.1 hs
    exact subs draft hdraft sub hsub

/-- Induction over a validated machine: it was built, whether by itself or with the other machines of a
document, from a draft with validated machines in its states. -/
theorem Validated.induction {motive : Machine → Prop}
    (step : ∀ (d : MachineDraft) (m : Machine), d.build = .ok m →
      (∀ s ∈ d.states, ∀ sub ∈ s.subMachines, sub.Validated ∧ motive sub) → motive m)
    {m : Machine} (h : m.Validated) : motive m := by
  induction h with
  | @built d m subs h ih => exact step d m h fun s hs sub hsub => ⟨subs s hs sub hsub, ih s hs sub hsub⟩
  | @loaded d maxDepth set name m h hm =>
      have hf := Document.faithful_of_load h
      suffices hboth : m.Validated ∧ motive m from hboth.2
      apply hf.induction (motive := fun _ m => m.Validated ∧ motive m) ?_ hm
      intro name entry drafts m _ _ hbuild ih
      have hsubs : ∀ s ∈ drafts, ∀ sub ∈ s.subMachines, sub.Validated ∧ motive sub := by
        intro s hs sub hsub
        obtain ⟨-, -, hboth⟩ := ih s hs sub hsub
        exact hboth
      exact ⟨.built (fun s hs sub hsub => (hsubs s hs sub hsub).1) hbuild, step _ m hbuild hsubs⟩

theorem wellFormed_of_validated {m : Machine} (h : m.Validated) : m.WellFormed := by
  apply h.induction
  intro d m hbuild ih
  exact wellFormed_of_build hbuild fun s hs sub hsub => (ih s hs sub hsub).2

end Machine

/-! ## A validated machine -/

/-- A light that goes on and off with every tick. -/
def MachineDraft.blinker : MachineDraft :=
  ⟨"blinker", some "light", [
    ⟨"light", [], ["fade"], [⟨.arrow "dark" [], ["tick"], .empty⟩], [], .inherit, none⟩,
    ⟨"dark", [], [], [⟨.arrow "light" ["flash"], ["tick"], .empty⟩], [], .inherit, none⟩], 16⟩

/-- A lamp that holds a machine while it is on. -/
def MachineDraft.lamp (inner : Machine) : MachineDraft :=
  ⟨"lamp", some "on", [
    ⟨"on", [], [], [⟨.arrow "off" [], ["space:down"], .empty⟩], [inner], .inherit, none⟩,
    ⟨"off", [], [], [⟨.arrow "on" [], ["space:down"], .empty⟩], [], .inherit, none⟩], 16⟩

/-- A lamp that blinks is validated. -/
theorem Machine.validated_lamp {inner root : Machine} (hinner : MachineDraft.blinker.build = .ok inner)
    (hroot : (MachineDraft.lamp inner).build = .ok root) : root.Validated := by
  have hvalid : inner.Validated := .built (by simp [MachineDraft.blinker]) hinner
  exact .built (by simpa [MachineDraft.lamp] using hvalid) hroot

/-- A desk that counts ticks itself, with two machines that hear them too; it can be set up anew. -/
def MachineDraft.desk (inner : Machine) : MachineDraft :=
  ⟨"desk", some "lit", [
    ⟨"lit", ["plug"], ["unplug"], [
      ⟨.action "count" [], ["tick"], .empty⟩,
      ⟨.arrow "lit" ["bell"], ["reset"], .empty⟩], [inner, inner], .inherit, none⟩], 16⟩

/-- A desk with two lights that blink is validated. -/
theorem Machine.validated_desk {inner root : Machine} (hinner : MachineDraft.blinker.build = .ok inner)
    (hroot : (MachineDraft.desk inner).build = .ok root) : root.Validated := by
  have hvalid : inner.Validated := .built (by simp [MachineDraft.blinker]) hinner
  exact .built (by simpa [MachineDraft.desk] using hvalid) hroot

end ModeTree
