import ModeTree.Proofs.Session.Run
import ModeTree.Proofs.Tree.Lookup

/-!
# What a dispatch leaves as it was

A stimulus that is dropped or only fires an action leaves the tree, the history and the view alone. A move
replaces the subtree at one path, by the machine there in its new state with the machines of that state
just launched, and adds one change to the history. The rest of the tree is as it was (`dispatch_frame`).
-/

set_option autoImplicit false

namespace ModeTree

universe u

namespace LiveTree

variable {σ : Type u}

/-- The machines below a machine in a state are those of the state just launched, with whatever registry
and after whatever has been performed. -/
theorem children_inState (m : Machine) (index : Nat) (r : Registry σ) (j : Journal σ) :
    (inState m index).children = (m.stateAt index).subMachines.map fun sub => (launch r sub j).1 := by
  have hlaunch : ∀ sub, (launch r sub j).1 = fresh sub := by
    intro sub
    rw [launch_eq r sub []]
  simp only [hlaunch]
  rfl

end LiveTree

namespace Session

open LiveTree

variable {σ : Type u}

/-- Unless a machine moves, a dispatch leaves the tree, the history and the view as they are. After a move
the tree is the one before with another subtree at one path. There the same machine runs in the state that
the outcome names, with the machines of this state just launched; all else is as before, and the history
has recorded the move. -/
theorem dispatch_frame {root : Machine} (hroot : root.Validated) (registry : Registry σ)
    (config : Config) (host : σ) (calls : List Call) (now : Instant) (x : Stimulus) :
    let s := (start root registry config host).run calls
    let s' := (s.dispatch now x).2
    match (s.dispatch now x).1 with
    | .dropped => s'.tree = s.tree ∧ s'.history = s.history ∧ s'.view = s.view
    | .fired _ _ _ => s'.tree = s.tree ∧ s'.history = s.history ∧ s'.view = s.view
    | .moved machine source target =>
      ∃ (p : List Nat) (old new : LiveTree),
        s.tree.descendant? p = some old ∧ old.name = machine ∧ old.currentId = source ∧
          s'.tree = s.tree.replace p new ∧ s'.tree.descendant? p = some new ∧
          new.machine = old.machine ∧ new.currentState ∈ new.machine.states ∧ new.currentId = target ∧
          (∀ (r : Registry σ) (j : Journal σ),
            new.children = new.currentState.subMachines.map fun sub => (launch r sub j).1) ∧
          Alike p s.tree s'.tree ∧
          s'.history = s.history.record ⟨machine, p.length, source, target, x.text, now⟩ := by
  intro s s'
  have hwf := Machine.wellFormed_of_validated hroot
  have hrun : Running root s := running_run hwf registry config host calls
  obtain ⟨outcome, after, heq, hresponse⟩ := hrun.response hwf now x
  have hafter : s' = after.present := congrArg Prod.snd heq
  rw [heq, hafter]
  cases hresponse with
  | dropped hselect => exact ⟨rfl, rfl, rfl⟩
  | fired hselect hkind => exact ⟨rfl, rfl, rfl⟩
  | @moved c t target also index hselect hkind hindex hlt hid =>
      have hlive := descendant?_of_select? hselect
      refine ⟨c.path, c.tree, inState c.tree.machine index, hlive, rfl, rfl, rfl,
        descendant?_replace_self hlive _, rfl, Machine.stateAt_mem hlt, hid,
        children_inState c.tree.machine index, alike_replace hlive _, ?_⟩
      rw [← hid]
      rfl

/-- On a desk with two lights a tick replaces one light and leaves the other. -/
theorem dispatch_frame_desk :
    ∃ inner root, MachineDraft.blinker.build = .ok inner ∧ (MachineDraft.desk inner).build = .ok root ∧
      ∀ now,
        let s := (start root (.empty : Registry Unit) ⟨4, 16, none⟩ ()).run []
        let s' := (s.dispatch now (.command "tick")).2
        ∃ p new, p.length = 1 ∧ new.currentId = "dark" ∧ s'.tree = s.tree.replace p new ∧
          Alike p s.tree s'.tree := by
  refine ⟨_, _, rfl, rfl, ?_⟩
  intro now s s'
  obtain ⟨p, old, new, -, -, -, htree, -, -, -, hid, -, halike, hhistory⟩ :=
    dispatch_frame (Machine.validated_desk rfl rfl) (.empty : Registry Unit) ⟨4, 16, none⟩ () []
      now (.command "tick")
  -- the history tells how deep the machine is that has moved
  have hdepth : s'.history.changes.map (·.depth) = [1] := rfl
  have hrecorded : s'.history.changes.map (·.depth) = [p.length] :=
    congrArg (fun h => h.changes.map (·.depth)) hhistory
  have hlength : p.length = 1 := by
    rw [hdepth] at hrecorded
    simpa using hrecorded.symm
  exact ⟨p, new, hlength, hid, htree, halike⟩

end Session

end ModeTree
