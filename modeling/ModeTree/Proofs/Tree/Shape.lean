import ModeTree.Proofs.Machine.WellFormed
import ModeTree.Proofs.Tree.Fresh

/-!
# The shape of a live tree

A live tree is well formed when every running machine is in one of its states, and the machines below
it are those of that state, in order. A fresh tree of a well-formed machine is well formed, a subtree
may be replaced by another one of the same machine, and no such tree is higher than its machine is deep
(`height_le_depth`).
-/

set_option autoImplicit false

namespace ModeTree

namespace LiveTree

/-- A tree in which every position exists and in which every state runs exactly its machines. -/
inductive WellFormed : LiveTree → Prop
  | intro {t : LiveTree} (position : t.current < t.machine.states.length)
      (runs : t.children.map (·.machine) = t.currentState.subMachines)
      (nested : ∀ c ∈ t.children, WellFormed c) : WellFormed t

theorem WellFormed.position {t : LiveTree} (h : t.WellFormed) : t.current < t.machine.states.length := by
  cases h with
  | intro position runs nested => exact position

theorem WellFormed.runs {t : LiveTree} (h : t.WellFormed) :
    t.children.map (·.machine) = t.currentState.subMachines := by
  cases h with
  | intro position runs nested => exact runs

theorem WellFormed.nested {t c : LiveTree} (h : t.WellFormed) (hc : c ∈ t.children) : c.WellFormed := by
  cases h with
  | intro position runs nested => exact nested c hc

theorem WellFormed.currentState_mem {t : LiveTree} (h : t.WellFormed) :
    t.currentState ∈ t.machine.states := Machine.stateAt_mem h.position

/-- The machine of a child is one of those in the current state. -/
theorem WellFormed.machine_mem {t c : LiveTree} (h : t.WellFormed) (hc : c ∈ t.children) :
    c.machine ∈ t.currentState.subMachines := by
  rw [← h.runs]
  exact List.mem_map_of_mem hc

/-! ## Fresh trees -/

@[simp] theorem machine_fresh (m : Machine) : (fresh m).machine = m := by
  rw [fresh_eq_inState, machine_inState]

theorem wellFormed_inState_of_subs {m : Machine} {index : Nat} (hindex : index < m.states.length)
    (hsubs : ∀ sub ∈ (m.stateAt index).subMachines, (fresh sub).WellFormed) :
    (inState m index).WellFormed := by
  refine WellFormed.intro hindex ?_ ?_
  · show ((m.stateAt index).subMachines.map fresh).map (·.machine) = (m.stateAt index).subMachines
    have hcomp : (fun t : LiveTree => t.machine) ∘ fresh = id := funext machine_fresh
    rw [List.map_map, hcomp, List.map_id]
  · intro c hc
    obtain ⟨sub, hsub, rfl⟩ := List.mem_map.1 hc
    exact hsubs sub hsub

theorem wellFormed_fresh {m : Machine} (hm : m.WellFormed) : (fresh m).WellFormed := by
  induction m using Machine.induction with
  | nest m ih =>
      -- by induction on the machine, since launching goes down through the start states
      rw [fresh_eq_inState]
      apply wellFormed_inState_of_subs hm.start
      intro sub hsub
      have hstate := Machine.stateAt_mem hm.start
      exact ih _ hstate sub hsub (hm.subs hstate hsub)

theorem wellFormed_inState {m : Machine} (hm : m.WellFormed) {index : Nat}
    (hindex : index < m.states.length) : (inState m index).WellFormed := by
  apply wellFormed_inState_of_subs hindex
  intro sub hsub
  exact wellFormed_fresh (hm.subs (Machine.stateAt_mem hindex) hsub)

/-! ## Subtrees -/

/-- What runs in a well-formed tree is well formed, and of its machine holds what holds of the machine of the
tree and passes on to the machines in the states. -/
theorem WellFormed.descendant_of_inherited {P : Machine → Prop}
    (hinherited : ∀ m, P m → ∀ s ∈ m.states, ∀ sub ∈ s.subMachines, P sub) {t u : LiveTree}
    (ht : t.WellFormed) (hm : P t.machine) {p : List Nat} (h : t.descendant? p = some u) :
    u.WellFormed ∧ P u.machine := by
  induction p generalizing t with
  | nil =>
      obtain rfl : t = u := by simpa using h
      exact ⟨ht, hm⟩
  | cons i p ih =>
      rw [descendant?_cons] at h
      obtain ⟨c, hi, hu⟩ := Option.bind_eq_some_iff.1 h
      have hc := List.mem_of_getElem? hi
      exact ih (ht.nested hc) (hinherited _ hm _ ht.currentState_mem _ (ht.machine_mem hc)) hu

/-- What runs in a well-formed tree of a well-formed machine is well formed. -/
theorem WellFormed.descendant {t u : LiveTree} (ht : t.WellFormed) (hm : t.machine.WellFormed)
    {p : List Nat} (h : t.descendant? p = some u) : u.WellFormed ∧ u.machine.WellFormed :=
  ht.descendant_of_inherited (fun _ hm _ hs _ hsub => hm.subs hs hsub) hm h

/-- A subtree may be replaced by a well-formed one of the same machine. -/
theorem WellFormed.replace {t old new : LiveTree} (ht : t.WellFormed) {p : List Nat}
    (h : t.descendant? p = some old) (hnew : new.WellFormed) (hmachine : new.machine = old.machine) :
    (t.replace p new).WellFormed ∧ (t.replace p new).machine = t.machine := by
  induction p generalizing t with
  | nil =>
      obtain rfl : t = old := by simpa using h
      rw [replace_nil]
      exact ⟨hnew, hmachine⟩
  | cons i p ih =>
      rw [descendant?_cons] at h
      obtain ⟨c, hi, hold⟩ := Option.bind_eq_some_iff.1 h
      obtain ⟨hc, hcmachine⟩ := ih (ht.nested (List.mem_of_getElem? hi)) hold
      refine ⟨WellFormed.intro ht.position ?_ ?_, rfl⟩
      · -- the machines of the children are the same at every position
        refine Eq.trans ?_ ht.runs
        rw [children_replace_cons]
        apply List.ext_getElem?
        intro k
        rw [List.getElem?_map, List.getElem?_map, List.getElem?_modify]
        by_cases hk : i = k
        · subst hk
          simp [hi, hcmachine]
        · simp [hk]
      · -- one child has been replaced, the others are as they were
        intro d hd
        rw [children_replace_cons] at hd
        obtain ⟨k, hk⟩ := List.mem_iff_getElem?.1 hd
        rw [List.getElem?_modify] at hk
        by_cases hik : i = k
        · subst hik
          simp only [hi, if_true, Option.map_eq_map, Option.map_some, Option.some.injEq] at hk
          exact hk ▸ hc
        · have hkd : t.children[k]? = some d := by simpa [hik] using hk
          exact ht.nested (List.mem_of_getElem? hkd)

/-- A well-formed tree has at most as many levels as its machine. -/
theorem WellFormed.height_le_depth {t : LiveTree} (ht : t.WellFormed) : t.height ≤ t.machine.depth := by
  induction t using LiveTree.induction with
  | node machine current children ih =>
      obtain ⟨n, hn⟩ : ∃ n, machine.depth = n + 1 :=
        ⟨machine.depth - 1, by have := machine.depth_pos; omega⟩
      -- every child runs a machine of the current state, which is less deep than this one
      have hchildren : heightOfAll children ≤ n := by
        apply heightOfAll_le
        intro c hc
        have hlt := Machine.depth_lt_of_mem ht.currentState_mem (ht.machine_mem hc)
        have hle := ih c hc (ht.nested hc)
        simp only [hn] at hlt
        omega
      rw [height]
      show 1 + heightOfAll children ≤ machine.depth
      omega

end LiveTree

end ModeTree
