import ModeTree.Proofs.Machine.Agreement
import ModeTree.Proofs.Session.Sequence

/-!
# Live trees that agree

Two live trees agree when they run machines that agree, in states with the same ids, with children that
agree in turn (`LiveTree.Agrees`). Positions of states play no part. Trees that agree are walked along the
same paths (`Agrees.walkFrom`), select the same transition for a stimulus (`Agrees.select?`), perform the
same actions when they are left or entered, and show the same view; and they go on to agree when machines
are launched or moved in both of them.
-/

set_option autoImplicit false

namespace ModeTree

namespace LiveTree

/-- The same machines in the same states, up to the order in which states are given. -/
inductive Agrees : LiveTree → LiveTree → Prop
  | intro {t t' : LiveTree} (machine : t.machine.Agrees t'.machine)
      (left : t.currentState ∈ t.machine.states) (right : t'.currentState ∈ t'.machine.states)
      (state : t.currentId = t'.currentId) (children : List.Forall₂ Agrees t.children t'.children) :
      Agrees t t'

variable {t t' : LiveTree}

theorem Agrees.machine (h : t.Agrees t') : t.machine.Agrees t'.machine := by
  cases h with
  | intro machine left right state children => exact machine

theorem Agrees.state (h : t.Agrees t') : t.currentId = t'.currentId := by
  cases h with
  | intro machine left right state children => exact state

theorem Agrees.children (h : t.Agrees t') : List.Forall₂ Agrees t.children t'.children := by
  cases h with
  | intro machine left right state children => exact children

theorem Agrees.name_eq (h : t.Agrees t') : t.name = t'.name := h.machine.name

/-- The current states say the same. -/
theorem Agrees.alike (h : t.Agrees t') : t.currentState.Says Transition.Agrees t'.currentState := by
  cases h with
  | intro machine left right state children => exact machine.alike left right state

/-- A tree may be given other children that agree. -/
theorem Agrees.withChildren (h : t.Agrees t') {ts ts' : List LiveTree} (hts : List.Forall₂ Agrees ts ts') :
    Agrees { t with children := ts } { t' with children := ts' } := by
  cases h with
  | intro machine left right state children => exact .intro machine left right state hts

end LiveTree

/-- The same path, to trees that agree. -/
structure Context.Agrees (c c' : Context) : Prop where
  path : c.path = c'.path
  tree : c.tree.Agrees c'.tree

namespace LiveTree

variable {t t' : LiveTree}

/-! ## Walks -/

theorem walkChildren_rel {ts ts' : List LiveTree} (h : List.Forall₂ Agrees ts ts')
    (ih : ∀ u ∈ ts, ∀ u', u.Agrees u' → ∀ p, List.Forall₂ Context.Agrees (u.walkFrom p) (u'.walkFrom p))
    (p : List Nat) (k : Nat) :
    List.Forall₂ Context.Agrees (walkChildren p k ts) (walkChildren p k ts') := by
  induction h generalizing k with
  | nil => exact .nil
  | @cons u u' ts ts' hu _ ihts =>
      rw [walkChildren, walkChildren]
      apply List.rel_append
      · exact ih u List.mem_cons_self u' hu _
      · exact ihts (fun v hv => ih v (List.mem_cons_of_mem _ hv)) (k + 1)

theorem Agrees.walkFrom (h : t.Agrees t') (p : List Nat) :
    List.Forall₂ Context.Agrees (t.walkFrom p) (t'.walkFrom p) := by
  induction t using LiveTree.induction generalizing t' p with
  | node machine current children ih =>
      rw [walkFrom_eq, walkFrom_eq]
      apply List.Forall₂.cons ⟨rfl, h⟩
      apply walkChildren_rel h.children
      intro u hu u' hagrees p
      exact ih u hu hagrees p

theorem heightOfAll_eq {ts ts' : List LiveTree} (h : List.Forall₂ Agrees ts ts')
    (ih : ∀ u ∈ ts, ∀ u', u.Agrees u' → u.height = u'.height) : heightOfAll ts = heightOfAll ts' := by
  induction h with
  | nil => rfl
  | @cons u u' ts ts' hu _ ihts =>
      rw [heightOfAll, heightOfAll, ih u List.mem_cons_self u' hu,
        ihts fun v hv => ih v (List.mem_cons_of_mem _ hv)]

theorem Agrees.height_eq (h : t.Agrees t') : t.height = t'.height := by
  induction t using LiveTree.induction generalizing t' with
  | node machine current children ih =>
      rw [LiveTree.height_eq, LiveTree.height_eq, heightOfAll_eq h.children]
      intro u hu u' hagrees
      exact ih u hu hagrees

theorem Agrees.atDepth (h : t.Agrees t') (depth : Nat) :
    List.Forall₂ Context.Agrees (t.atDepth depth) (t'.atDepth depth) := by
  rw [LiveTree.atDepth, LiveTree.atDepth]
  apply List.rel_filter ?_ (h.walkFrom [])
  intro c c' hc
  simp only [hc.path]

theorem Agrees.levels (h : t.Agrees t') (depths : List Nat) :
    List.Forall₂ Context.Agrees (depths.flatMap t.atDepth) (depths.flatMap t'.atDepth) := by
  induction depths with
  | nil => exact .nil
  | cons depth depths ih =>
      rw [List.flatMap_cons, List.flatMap_cons]
      exact List.rel_append (h.atDepth depth) ih

theorem Agrees.outermostFirst (h : t.Agrees t') :
    List.Forall₂ Context.Agrees t.outermostFirst t'.outermostFirst := by
  rw [LiveTree.outermostFirst, LiveTree.outermostFirst, h.height_eq]
  exact h.levels _

theorem Agrees.deepestFirst (h : t.Agrees t') :
    List.Forall₂ Context.Agrees t.deepestFirst t'.deepestFirst := by
  rw [LiveTree.deepestFirst, LiveTree.deepestFirst, h.height_eq]
  exact h.levels _

/-! ## Launching, leaving and replacing -/

theorem agrees_inState_of_subs {m m' : Machine} (h : m.Agrees m') {i i' : Nat} (hi : i < m.states.length)
    (hi' : i' < m'.states.length) (hid : (m.stateAt i).id = (m'.stateAt i').id)
    (hsubs : ∀ sub ∈ (m.stateAt i).subMachines, ∀ sub' ∈ (m'.stateAt i').subMachines, sub.Agrees sub' →
      (fresh sub).Agrees (fresh sub')) : (inState m i).Agrees (inState m' i') := by
  have hleft := Machine.stateAt_mem hi
  have hright := Machine.stateAt_mem hi'
  refine Agrees.intro h hleft hright hid ?_
  show List.Forall₂ Agrees ((m.stateAt i).subMachines.map fresh) ((m'.stateAt i').subMachines.map fresh)
  rw [List.forall₂_map_left_iff, List.forall₂_map_right_iff]
  exact forall₂_imp_of_mem (h.subs hleft hright hid) hsubs

/-- Machines that agree are launched into trees that agree. -/
theorem agrees_fresh {m m' : Machine} (h : m.Agrees m') (hm : m.WellFormed) (hm' : m'.WellFormed) :
    (fresh m).Agrees (fresh m') := by
  induction m using Machine.induction generalizing m' with
  | nest m ih =>
      have hstart := Machine.stateAt_mem hm.start
      have hstart' := Machine.stateAt_mem hm'.start
      rw [fresh_eq_inState, fresh_eq_inState]
      apply agrees_inState_of_subs h hm.start hm'.start h.start
      intro sub hsub sub' hsub' hagrees
      exact ih _ hstart sub hsub hagrees (hm.subs hstart hsub) (hm'.subs hstart' hsub')

theorem agrees_inState {m m' : Machine} (h : m.Agrees m') (hm : m.WellFormed) (hm' : m'.WellFormed)
    {i i' : Nat} (hi : i < m.states.length) (hi' : i' < m'.states.length)
    (hid : (m.stateAt i).id = (m'.stateAt i').id) : (inState m i).Agrees (inState m' i') := by
  apply agrees_inState_of_subs h hi hi' hid
  intro sub hsub sub' hsub' hagrees
  have hwf := hm.subs (Machine.stateAt_mem hi) hsub
  have hwf' := hm'.subs (Machine.stateAt_mem hi') hsub'
  exact agrees_fresh hagrees hwf hwf'

/-- Trees go on to agree when subtrees at one path are replaced by others that agree. -/
theorem Agrees.replace (h : t.Agrees t') {new new' : LiveTree} (hnew : new.Agrees new') (p : List Nat) :
    (t.replace p new).Agrees (t'.replace p new') := by
  induction p generalizing t t' with
  | nil => rwa [replace_nil, replace_nil]
  | cons i p ih =>
      apply h.withChildren
      exact modify_rel h.children (fun _ _ hchild => ih hchild) i

/-- Trees that agree perform the same actions when they are left. -/
theorem Agrees.exitSequence_eq (h : t.Agrees t') : t.exitSequence = t'.exitSequence := by
  induction t using LiveTree.induction generalizing t' with
  | node machine current children ih =>
      rw [LiveTree.exitSequence_eq, LiveTree.exitSequence_eq, h.alike.exit]
      congr 1
      apply flatMap_eq_of_forall₂ h.children
      intro u hu u' _ hagrees
      exact ih u hu hagrees

end LiveTree

namespace Machine

variable {m m' : Machine}

theorem Agrees.entrySequenceOfState_eq (h : m.Agrees m') {s s' : State Transition Machine}
    (hs : s ∈ m.states) (hs' : s' ∈ m'.states) (hid : s.id = s'.id)
    (hsubs : ∀ sub ∈ s.subMachines, ∀ sub' ∈ s'.subMachines, sub.Agrees sub' →
      sub.entrySequence = sub'.entrySequence) : entrySequenceOfState s = entrySequenceOfState s' := by
  rw [Machine.entrySequenceOfState_eq, Machine.entrySequenceOfState_eq, (h.alike hs hs' hid).enter]
  congr 1
  exact flatMap_eq_of_forall₂ (h.subs hs hs' hid) hsubs

/-- Machines that agree perform the same actions when they are launched. -/
theorem Agrees.entrySequence_eq (h : m.Agrees m') (hm : m.WellFormed) (hm' : m'.WellFormed) :
    m.entrySequence = m'.entrySequence := by
  induction m using Machine.induction generalizing m' with
  | nest m ih =>
      have hstart := stateAt_mem hm.start
      have hstart' := stateAt_mem hm'.start
      rw [Machine.entrySequence_eq, Machine.entrySequence_eq, ← Machine.entrySequenceOfState_eq,
        ← Machine.entrySequenceOfState_eq]
      apply h.entrySequenceOfState_eq hstart hstart' h.start
      intro sub hsub sub' hsub' hagrees
      exact ih _ hstart sub hsub hagrees (hm.subs hstart hsub) (hm'.subs hstart' hsub')

end Machine

namespace LiveTree

/-- The names that a move hands to the registry, without the paths. -/
theorem names_move (t : LiveTree) (also : List String) (target : Nat) (path : List Nat) :
    exitActions (t.closeFrom path) ++ also ++ entryActions ((inState t.machine target).walkFrom path) =
      t.exitSequence ++ also ++ Machine.entrySequenceOfState (t.machine.stateAt target) := by
  rw [exitActions_closeFrom, entryActions_inState fun sub _ => entryActions_fresh sub,
    Machine.entrySequenceOfState_eq]

/-- A move to states with the same id performs the same in trees that agree. -/
theorem Agrees.names_move_eq {t t' : LiveTree} (h : t.Agrees t') (hm : t.machine.WellFormed)
    (hm' : t'.machine.WellFormed) {i i' : Nat} (hi : i < t.machine.states.length)
    (hi' : i' < t'.machine.states.length) (hid : (t.machine.stateAt i).id = (t'.machine.stateAt i').id)
    (also : List String) (path : List Nat) :
    exitActions (t.closeFrom path) ++ also ++ entryActions ((inState t.machine i).walkFrom path) =
      exitActions (t'.closeFrom path) ++ also ++ entryActions ((inState t'.machine i').walkFrom path) := by
  have hleft := Machine.stateAt_mem hi
  have hright := Machine.stateAt_mem hi'
  have hentry : Machine.entrySequenceOfState (t.machine.stateAt i) =
      Machine.entrySequenceOfState (t'.machine.stateAt i') := by
    apply h.machine.entrySequenceOfState_eq hleft hright hid
    intro sub hsub sub' hsub' hagrees
    exact hagrees.entrySequence_eq (hm.subs hleft hsub) (hm'.subs hright hsub')
  rw [names_move, names_move, h.exitSequence_eq, hentry]

end LiveTree

end ModeTree
