import ModeTree.Proofs.Machine.WellFormed
import ModeTree.Proofs.Tree.Shape

/-!
# Machines that ignore a stimulus

A machine ignores a stimulus when no state of it, at any depth, has a transition for it. Nothing that runs
in a tree of such a machine takes the stimulus, so that a machine is the first to take what those in its
state ignore (`select?_of_ignored`). Whether the machines of a document ignore a stimulus can be read off
their patterns (`ignores_of_faithful`).
-/

set_option autoImplicit false

namespace ModeTree

namespace Machine

/-- No state of the machine, at any depth, has a transition for the stimulus. -/
inductive Ignores (x : Stimulus) : Machine → Prop
  | intro {m : Machine} (own : ∀ s ∈ m.states, s.findTransition? x = none)
      (subs : ∀ s ∈ m.states, ∀ sub ∈ s.subMachines, Ignores x sub) : Ignores x m

variable {x : Stimulus} {m : Machine}

theorem Ignores.own (h : m.Ignores x) {s : State Transition Machine} (hs : s ∈ m.states) :
    s.findTransition? x = none := by
  cases h with
  | intro own subs => exact own s hs

theorem Ignores.subs (h : m.Ignores x) {s : State Transition Machine} (hs : s ∈ m.states)
    {sub : Machine} (hsub : sub ∈ s.subMachines) : sub.Ignores x := by
  cases h with
  | intro own subs => exact subs s hs sub hsub

end Machine

/-! ## Trees -/

namespace LiveTree

variable {x : Stimulus} {t u : LiveTree}

/-- What runs in the tree of a machine that ignores a stimulus has no transition for it. -/
theorem WellFormed.findTransition?_of_ignores (ht : t.WellFormed) (h : t.machine.Ignores x)
    {p : List Nat} (hp : t.descendant? p = some u) : u.currentState.findTransition? x = none := by
  obtain ⟨hu, hignores⟩ := ht.descendant_of_inherited (fun _ hm _ hs _ hsub => hm.subs hs hsub) h hp
  exact hignores.own hu.currentState_mem

end LiveTree

namespace Session

open LiveTree

variable {x : Stimulus} {t : LiveTree}

/-- A stimulus that the machines in the current state ignore is left to the machine itself. -/
theorem select?_of_ignored (ht : t.WellFormed)
    (h : ∀ sub ∈ t.currentState.subMachines, sub.Ignores x) :
    select? t x = (t.currentState.findTransition? x).map fun found => (⟨[], t⟩, found) := by
  -- whatever has a transition for the stimulus is the root
  have hroot : ∀ c ∈ t.walk, c.tree.currentState.findTransition? x ≠ none → c = ⟨[], t⟩ := by
    rintro ⟨path, tree⟩ hc hfind
    have hlive := (mem_walk_iff t _).1 hc
    cases path with
    | nil =>
        obtain rfl : t = tree := by simpa using hlive
        rfl
    | cons i path =>
        rw [descendant?_cons] at hlive
        obtain ⟨child, hi, hchild⟩ := Option.bind_eq_some_iff.1 hlive
        have hmem := List.mem_of_getElem? hi
        have hignores := h _ (ht.machine_mem hmem)
        exact absurd ((ht.nested hmem).findTransition?_of_ignores hignores hchild) hfind
  cases hselect : select? t x with
  | none =>
      have hself := (select?_eq_none_iff t x).1 hselect ⟨[], t⟩ ((mem_walk_iff t _).2 (descendant?_nil t))
      rw [hself, Option.map_none]
  | some found =>
      obtain ⟨c, transition⟩ := found
      obtain ⟨hc, hfind⟩ := mem_walk_of_select? hselect
      obtain rfl := hroot c hc (by rw [hfind]; exact Option.some_ne_none _)
      rw [hfind, Option.map_some]

end Session

/-! ## Documents -/

/-- The patterns of all transitions of an entry. -/
def MachineEntry.patterns (e : MachineEntry) : List Stimulus :=
  e.states.entries.flatMap fun p => p.2.transitions.flatMap fun t =>
    t.on.filterMap fun text => (Stimulus.parse text).toOption

namespace Resolution

variable {machines : NameTable MachineEntry} {maxDepth : Nat} {built : NameTable Machine} {x : Stimulus}

/-- A transition that is built from an entry has patterns of the entry. -/
theorem mem_patterns_of_build {d : MachineDraft} {entry : MachineEntry} {p : String × StateEntry}
    (hp : p ∈ entry.states.entries) {draft : StateDraft} (hof : DraftOf built p draft) {t : Transition}
    (ht : t ∈ (d.buildState draft).transitions) {pattern : Stimulus} (hpattern : pattern ∈ t.stimuli) :
    pattern ∈ entry.patterns := by
  obtain ⟨td, htd, rfl⟩ := List.mem_map.1 ht
  obtain ⟨te, hte, htransition⟩ := exists_of_mem_right hof.transitions htd
  obtain ⟨-, hon, -⟩ := transition?_facts htransition
  rw [MachineEntry.patterns, List.mem_flatMap]
  refine ⟨p, hp, List.mem_flatMap.2 ⟨te, hte, ?_⟩⟩
  rw [← hon]
  exact hpattern

/-- A built machine ignores a stimulus if it is not the root, if nothing refers to the root, and if no
machine besides the root has a pattern for the stimulus. -/
theorem ignores_of_faithful (hf : Faithful machines maxDepth built) {root : String}
    (hroot : ∀ name, ¬ Refers machines name root)
    (hquiet : ∀ name entry, machines.get? name = some entry → name ≠ root →
      ∀ pattern ∈ entry.patterns, pattern.matchesStimulus x = false)
    {name : String} (hname : name ≠ root) {m : Machine} (hm : built.get? name = some m) :
    m.Ignores x := by
  refine hf.induction (motive := fun name m => name ≠ root → m.Ignores x) ?_ hm hname
  intro name entry drafts m hentry hdrafts hbuild ih hname
  obtain ⟨-, rfl⟩ := (MachineDraft.build_eq_ok_iff _ m).1 hbuild
  constructor
  · intro s hs
    obtain ⟨draft, hdraft, rfl⟩ := List.mem_map.1 hs
    obtain ⟨p, hp, hof⟩ := exists_of_mem_right hdrafts hdraft
    apply List.find?_eq_none.2
    intro t ht hmatch
    obtain ⟨pattern, hpattern, hmatch⟩ := List.any_eq_true.1 hmatch
    have hno := hquiet name entry hentry hname pattern (mem_patterns_of_build hp hof ht hpattern)
    rw [hmatch] at hno
    cases hno
  · intro s hs sub hsub
    obtain ⟨draft, hdraft, rfl⟩ := List.mem_map.1 hs
    obtain ⟨subName, hrefers, hignores⟩ := ih draft hdraft sub hsub
    apply hignores
    rintro rfl
    exact hroot name hrefers

end Resolution

end ModeTree
