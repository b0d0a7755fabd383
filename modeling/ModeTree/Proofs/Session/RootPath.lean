import ModeTree.Proofs.Machine.Construction
import ModeTree.Proofs.Session.Log

/-!
# The path of the root

A history tells the path of a machine from the changes that bear its name. Where no machine in the root has its
name, these are the moves of the root, and what they tell is a walk in it: each stimulus is one that an arrow of
the state waits for, and this arrow leads to the next state (`rootPath_walks`).

One dispatch takes the root one step further or leaves it where it is (`Running.rootStep`), so the moves of a run
walk from the state in which it began to the one in which it ended (`Running.walks`). What a history retains of a
run are the moves of its last part (`drop_moves`), which is a run itself. That is why a path that has lost its
oldest entries is still a walk.
-/

set_option autoImplicit false

namespace ModeTree

universe u

namespace Machine

/-- A state with the id `source` has an arrow that waits for a stimulus and leads to `target`. -/
def Leads (m : Machine) (source : String) (x : Stimulus) (target : String) : Prop :=
  ∃ s ∈ m.states, s.id = source ∧
    ∃ t ∈ s.transitions, t.kind.target? = some target ∧ t.matchesStimulus x = true

/-- The stimuli lead from state to state, and these are the ids on the way. -/
inductive Walks (m : Machine) : List Stimulus → List String → Prop
  | rest {s : State Transition Machine} (hs : s ∈ m.states) : Walks m [] [s.id]
  | step {source target : String} {x : Stimulus} {xs : List Stimulus} {path : List String}
      (hleads : m.Leads source x target) (hwalks : Walks m xs (target :: path)) :
      Walks m (x :: xs) (source :: target :: path)

/-- What is in a machine that was built is in a state of its draft, or in a machine there. -/
theorem exists_of_holds {d : MachineDraft} {m sub : Machine} (h : d.build = .ok m) (hsub : m.Holds sub) :
    ∃ s ∈ d.states, ∃ next ∈ s.subMachines, sub = next ∨ next.Holds sub := by
  obtain ⟨next, ⟨s', hs', hnext⟩, hrest⟩ := Relation.TransGen.head'_iff.1 hsub
  obtain ⟨s, hs, -, hsame⟩ := exists_of_mem_right (MachineDraft.makes_of_build h).states hs'
  exact ⟨s, hs, next, hsame ▸ hnext, Relation.reflTransGen_iff_eq_or_transGen.1 hrest⟩

end Machine

/-- Whether the outcome is a move of a machine with this name. -/
def Outcome.isMoveOf (name : String) : Outcome → Bool
  | .moved machine _ _ => machine == name
  | _ => false

namespace Dispatch

variable {σ : Type u}

/-- The states of the root as moves of it show them: where the first one finds it, and where each one leaves it. -/
def trail : List (Dispatch σ) → List String
  | [] => []
  | d :: ds => d.session.tree.currentId :: (d :: ds).map (·.after.tree.currentId)

/-- A dispatch moves the machine that its change names. -/
theorem Records.isMoveOf {d : Dispatch σ} {c : ModeChange} (h : d.Records c) (name : String) :
    d.outcome.isMoveOf name = (c.machine == name) := by
  rw [h.outcome]
  rfl

end Dispatch

namespace Session

variable {σ : Type u} {root : Machine}

/-! ## Moves of the root -/

/-- The first running machine of all is the one that the session runs. -/
theorem Running.currentState?_root {s : Session σ} (h : Running root s) :
    s.currentState? root.name = some s.tree.currentId := by
  have hname : (s.tree.name == root.name) = true := by
    rw [LiveTree.name, h.machine, beq_self_eq_true]
  rw [currentState?, LiveTree.walk, LiveTree.walkFrom_eq, List.find?_cons, hname]
  rfl

section

variable (hother : ∀ sub, root.Holds sub → sub.name ≠ root.name)

include hother

/-- Where no machine in the root has its name, no other machine runs under it. -/
theorem Running.name_eq_iff {s : Session σ} (h : Running root s) {p : List Nat} {u : LiveTree}
    (hu : s.tree.descendant? p = some u) : u.name = root.name ↔ p = [] := by
  cases p with
  | nil =>
      obtain rfl : s.tree = u := by simpa using hu
      rw [LiveTree.name, h.machine]
      exact ⟨fun _ => rfl, fun _ => rfl⟩
  | cons i p =>
      rw [LiveTree.descendant?_cons] at hu
      obtain ⟨c, hi, hu⟩ := Option.bind_eq_some_iff.1 hu
      have hc := List.mem_of_getElem? hi
      have hchild : root.Holds c.machine := by
        rw [← h.machine]
        exact .single ⟨_, h.wellFormed.currentState_mem, h.wellFormed.machine_mem hc⟩
      obtain ⟨-, hheld⟩ := (h.wellFormed.nested hc).descendant_of_inherited
        (fun m hm s hs sub hsub => hm.tail ⟨s, hs, hsub⟩) hchild hu
      exact ⟨fun heq => absurd heq (hother u.machine hheld), nofun⟩

/-- A dispatch moves the root by an arrow of its current state, or leaves the root in this state. -/
theorem Running.rootStep (hroot : root.WellFormed) {d : Dispatch σ} (h : Running root d.session) :
    (d.outcome.isMoveOf root.name = true ∧
      root.Leads d.session.tree.currentId d.stimulus d.after.tree.currentId) ∨
    (d.outcome.isMoveOf root.name = false ∧
      d.after.tree.currentId = d.session.tree.currentId) := by
  obtain ⟨outcome, after, heq, hresponse⟩ := h.response hroot d.now d.stimulus
  rw [Dispatch.outcome, Dispatch.after, heq]
  cases hresponse with
  | dropped hselect => exact Or.inr ⟨rfl, rfl⟩
  | fired hselect hkind => exact Or.inr ⟨rfl, rfl⟩
  | @moved c t target also index hselect hkind hindex hlt hid =>
      have hlive := descendant?_of_select? hselect
      have hname := h.name_eq_iff hother hlive
      rw [tree_present, tree_afterMove]
      cases hpath : c.path with
      | nil =>
          left
          rw [hpath, LiveTree.descendant?_nil, Option.some.injEq] at hlive
          have hfind : c.tree.currentState.transitions.find? (fun u => u.matchesStimulus d.stimulus) = some t :=
            (mem_walk_of_select? hselect).2
          have hmem : c.tree.currentState ∈ root.states := by
            rw [← h.machine, ← hlive]
            exact h.wellFormed.currentState_mem
          rw [LiveTree.replace_nil, hlive]
          refine ⟨beq_iff_eq.2 (hname.2 hpath), c.tree.currentState, hmem, rfl, t, ?_, ?_, ?_⟩
          · exact List.mem_of_find?_eq_some hfind
          · rw [hkind]
            exact congrArg some hid.symm
          · have hmatch := List.find?_some hfind
            exact hmatch
      | cons i p =>
          right
          -- below the root everything may change, but not the state that the root is in
          rw [hpath] at hname
          exact ⟨beq_eq_false_iff_ne.2 fun hsame => List.cons_ne_nil i p (hname.1 hsame), rfl⟩

/-- A change that tells of a dispatch is of the root exactly when it is at the top. Then it tells where the root
was before and where it is after. -/
theorem Running.records_root {d : Dispatch σ} (h : Running root d.session) {c : ModeChange}
    (hrecords : d.Records c) :
    (c.machine = root.name ↔ c.depth = 0) ∧
      (c.machine = root.name →
        c.source = d.session.tree.currentId ∧ c.target = d.after.tree.currentId) := by
  obtain ⟨a, old, new, -, hold, hname, hsource, hafter, -, htarget, hdepth⟩ := hrecords.depth
  have htop := h.name_eq_iff hother hold
  rw [hname] at htop
  refine ⟨by rw [htop, hdepth, List.length_eq_zero_iff], ?_⟩
  intro hmachine
  rw [htop.1 hmachine] at hold hafter
  obtain rfl : d.session.tree = old := by simpa using hold
  rw [LiveTree.replace_nil] at hafter
  rw [hafter]
  exact ⟨hsource.symm, htarget.symm⟩

/-- A history that tells of some dispatches has those of the root on its path. -/
theorem pathOf_of_records {ds : List (Dispatch σ)} (hrunning : ∀ d ∈ ds, Running root d.session) {h : History}
    (hrecords : List.Forall₂ Dispatch.Records ds h.changes) :
    h.pathOf root.name = Dispatch.trail (ds.filter fun d => d.outcome.isMoveOf root.name) := by
  have hown : List.Forall₂ Dispatch.Records (ds.filter fun d => d.outcome.isMoveOf root.name)
      (h.changes.filter fun c => c.machine == root.name) := by
    apply List.rel_filter ?_ hrecords
    intro d c htells
    exact Bool.eq_iff_iff.1 (htells.isMoveOf root.name)
  have htold : List.Forall₂ (fun d c => c.source = d.session.tree.currentId ∧
      c.target = d.after.tree.currentId) (ds.filter fun d => d.outcome.isMoveOf root.name)
      (h.changes.filter fun c => c.machine == root.name) := by
    apply forall₂_imp_of_mem hown
    intro d hd c hc htells
    obtain ⟨-, hends⟩ := (hrunning d (List.mem_of_mem_filter hd)).records_root hother htells
    exact hends (beq_iff_eq.1 (List.mem_filter.1 hc).2)
  rw [History.pathOf]
  revert htold
  generalize (ds.filter fun d => d.outcome.isMoveOf root.name) = own
  generalize (h.changes.filter fun c => c.machine == root.name) = changes
  intro htold
  cases htold with
  | nil => rfl
  | @cons d c own changes hfirst hrest =>
      have htargets := map_eq_of_forall₂ hrest fun d c hends => hends.2.symm
      show c.source :: c.target :: changes.map (·.target) = _
      rw [hfirst.1, hfirst.2, ← htargets]
      rfl

end

/-! ## Runs -/

/-- A call moves a machine by what it dispatches, or leaves the tree as it is. -/
theorem still_or_moves (s : Session σ) (c : Call) (calls : List Call) :
    ((s.call c).tree = s.tree ∧ s.moves (c :: calls) = (s.call c).moves calls) ∨
    ∃ d : Dispatch σ, d.session = s ∧ s.call c = d.after ∧
      s.moves (c :: calls) = d :: (s.call c).moves calls := by
  rw [moves_cons]
  cases hdispatch : c.dispatch? s with
  | none =>
      obtain ⟨htree, -, -⟩ := call_of_dispatch?_eq_none hdispatch
      exact Or.inl ⟨htree, rfl⟩
  | some d =>
      obtain ⟨hsession, hcall⟩ := call_of_dispatch? hdispatch
      rw [Option.toList_some, List.filter_singleton]
      rcases d.change_or_still with ⟨hmove, -⟩ | ⟨hstill, -, htree⟩
      · rw [hmove]
        exact Or.inr ⟨d, hsession, hcall, rfl⟩
      · rw [hstill, hcall, htree, hsession]
        exact Or.inl ⟨rfl, rfl⟩

/-- The last moves of a run are the moves of its last part. -/
theorem drop_moves (s : Session σ) (calls : List Call) (n : Nat) :
    ∃ before after, calls = before ++ after ∧ (s.moves calls).drop n = (s.run before).moves after ∧
      (n = 0 → before = []) := by
  induction calls generalizing s n with
  | nil => exact ⟨[], [], rfl, List.drop_nil, fun _ => rfl⟩
  | cons c calls ih =>
      cases n with
      | zero => exact ⟨[], c :: calls, rfl, rfl, fun _ => rfl⟩
      | succ n =>
          rcases s.still_or_moves c calls with ⟨-, hmoves⟩ | ⟨d, -, -, hmoves⟩
          · obtain ⟨before, after, rfl, hdrop, -⟩ := ih (s.call c) (n + 1)
            exact ⟨c :: before, after, rfl, by rw [hmoves, hdrop, run_cons], nofun⟩
          · obtain ⟨before, after, rfl, hdrop, -⟩ := ih (s.call c) n
            exact ⟨c :: before, after, rfl, by rw [hmoves, List.drop_succ_cons, hdrop, run_cons], nofun⟩

/-- Every move of a run is in a session that runs the root in a well-formed tree. -/
theorem Running.of_mem_moves (hroot : root.WellFormed) {s : Session σ} (h : Running root s)
    (calls : List Call) : ∀ d ∈ s.moves calls, Running root d.session := by
  induction calls generalizing s with
  | nil => exact fun d hd => absurd hd List.not_mem_nil
  | cons c calls ih =>
      have hrest := ih (running_call hroot s c h)
      rcases s.still_or_moves c calls with ⟨-, hmoves⟩ | ⟨d, hsession, -, hmoves⟩
      · rw [hmoves]
        exact hrest
      · rw [hmoves, List.forall_mem_cons, hsession]
        exact ⟨h, hrest⟩

/-- The stimuli that move the root in a run lead it from the state in which it was to the one in which it is
then, by way of the states in which they leave it. -/
theorem Running.walks (hroot : root.WellFormed) (hother : ∀ sub, root.Holds sub → sub.name ≠ root.name)
    {s : Session σ} (h : Running root s) (calls : List Call) :
    let own := (s.moves calls).filter fun d => d.outcome.isMoveOf root.name
    let path := s.tree.currentId :: own.map (·.after.tree.currentId)
    root.Walks (own.map (·.stimulus)) path ∧ path.getLast? = some (s.run calls).tree.currentId ∧
      (own ≠ [] → Dispatch.trail own = path) := by
  induction calls generalizing s with
  | nil =>
      have hmem : s.tree.currentState ∈ root.states := by
        rw [← h.machine]
        exact h.wellFormed.currentState_mem
      have hrest : root.Walks [] [s.tree.currentId] := .rest hmem
      exact ⟨hrest, rfl, fun hown => absurd rfl hown⟩
  | cons c calls ih =>
      have hrest := ih (running_call hroot s c h)
      rw [run_cons]
      rcases s.still_or_moves c calls with ⟨htree, hmoves⟩ | ⟨d, hsession, hcall, hmoves⟩
      · rw [hmoves, ← htree]
        exact hrest
      · -- the rest of the run begins in the state in which this dispatch leaves the root
        rw [hmoves]
        rw [hcall] at hrest ⊢
        rw [← hsession] at h ⊢
        rcases h.rootStep hother hroot with ⟨hmoved, hleads⟩ | ⟨hstill, hsame⟩
        · rw [List.filter_cons, if_pos hmoved]
          obtain ⟨hwalks, hlast, -⟩ := hrest
          refine ⟨.step hleads hwalks, ?_, fun _ => rfl⟩
          rw [← hlast]
          exact List.getLast?_cons_cons
        · rw [List.filter_cons, if_neg (Bool.eq_false_iff.1 hstill), ← hsame]
          exact hrest

/-- Where the first few moves of a run are left out, those of the root among the others walk along their trail. It
ends in the state in which the run leaves the root, and if none are left out it begins in the one in which the run
found it. -/
theorem Running.walks_drop (hroot : root.WellFormed) (hother : ∀ sub, root.Holds sub → sub.name ≠ root.name)
    {s : Session σ} (h : Running root s) (calls : List Call) (n : Nat) :
    let own := ((s.moves calls).drop n).filter fun d => d.outcome.isMoveOf root.name
    own ≠ [] →
      root.Walks (own.map (·.stimulus)) (Dispatch.trail own) ∧
        (Dispatch.trail own).getLast? = some (s.run calls).tree.currentId ∧
        (n = 0 → (Dispatch.trail own).head? = some s.tree.currentId) := by
  obtain ⟨before, after, rfl, hdrop, hwhole⟩ := s.drop_moves calls n
  have hbefore : Running root (s.run before) := run_keeps (running_call hroot) h before
  have hend : s.run (before ++ after) = (s.run before).run after := List.foldl_append
  obtain ⟨hwalks, hlast, htrail⟩ := hbefore.walks hroot hother after
  intro own hown
  rw [← hdrop] at hwalks hlast htrail
  rw [htrail hown, hend]
  refine ⟨hwalks, hlast, ?_⟩
  intro hzero
  rw [hwhole hzero]
  rfl

/-- The changes that a history retains of a run tell of its last moves. -/
theorem records_kept (root : Machine) (registry : Registry σ) (config : Config) (host : σ)
    (calls : List Call) :
    let s := start root registry config host
    List.Forall₂ Dispatch.Records ((s.moves calls).rtake config.historyCapacity)
      (s.run calls).history.changes := by
  intro s
  obtain ⟨changes, hrecords, hhistory⟩ := history_run s calls
  have hkept : (s.run calls).history.changes = changes.rtake config.historyCapacity := by
    rw [hhistory]
    exact History.changes_recordAll_withCapacity config.historyCapacity changes
  rw [hkept, List.rtake, List.rtake, hrecords.length_eq]
  exact List.forall₂_drop _ hrecords

/-- The history tells of the last moves of a run. Where no machine in the root has its name, the changes that bear
it are those at the top of the tree, and the path that they tell is empty if the root has not moved in these last
moves. Otherwise the stimuli of its moves walk along it through states of the root, to the state in which the root
is; unless moves have been forgotten, they walk from its start. -/
theorem rootPath_walks (hroot : root.Validated) (hother : ∀ sub, root.Holds sub → sub.name ≠ root.name)
    (registry : Registry σ) (config : Config) (host : σ) (calls : List Call) :
    let s := start root registry config host
    let kept := (s.moves calls).rtake config.historyCapacity
    let own := kept.filter fun d => d.outcome.isMoveOf root.name
    let history := (s.run calls).history
    let path := history.pathOf root.name
    List.Forall₂ Dispatch.Records kept history.changes ∧
      (∀ c ∈ history.changes, c.machine = root.name ↔ c.depth = 0) ∧
      ((own = [] ∧ path = []) ∨
        (own ≠ [] ∧ root.Walks (own.map (·.stimulus)) path ∧
          path.getLast? = (s.run calls).currentState? root.name ∧
          ((s.moves calls).length ≤ config.historyCapacity → path.head? = some root.startState.id))) := by
  intro s kept own history path
  have hwf := Machine.wellFormed_of_validated hroot
  have hstart : Running root s := running_start hwf registry config host
  have hrecords : List.Forall₂ Dispatch.Records kept history.changes :=
    records_kept root registry config host calls
  have hrunning : ∀ d ∈ kept, Running root d.session := fun d hd =>
    hstart.of_mem_moves hwf calls d (List.mem_of_mem_drop hd)
  refine ⟨hrecords, ?_, ?_⟩
  · intro c hc
    obtain ⟨d, hd, htells⟩ := exists_of_mem_right hrecords hc
    exact ((hrunning d hd).records_root hother htells).1
  · have hpath : path = Dispatch.trail own := pathOf_of_records hother hrunning hrecords
    rw [hpath]
    by_cases hown : own = []
    · left
      rw [hown]
      exact ⟨rfl, rfl⟩
    · right
      obtain ⟨hwalks, hlast, hfirst⟩ := hstart.walks_drop hwf hother calls _ hown
      rw [(running_run hwf registry config host calls).currentState?_root]
      refine ⟨hown, hwalks, hlast, ?_⟩
      intro hroom
      have hentry := hfirst (Nat.sub_eq_zero_of_le hroom)
      rw [tree_start, LiveTree.fresh_eq_inState] at hentry
      exact hentry

/-- No machine in a lamp that blinks is named as the lamp is. -/
theorem name_ne_of_holds_lamp {inner root : Machine} (hinner : MachineDraft.blinker.build = .ok inner)
    (hroot : (MachineDraft.lamp inner).build = .ok root) : ∀ sub, root.Holds sub → sub.name ≠ root.name := by
  intro sub hsub
  have hinnerName : inner.name = "blinker" := (MachineDraft.makes_of_build hinner).name.symm
  have hrootName : root.name = "lamp" := (MachineDraft.makes_of_build hroot).name.symm
  obtain ⟨s, hs, next, hnext, hsub⟩ := Machine.exists_of_holds hroot hsub
  obtain rfl : next = inner := by
    simp only [MachineDraft.lamp, List.mem_cons, List.not_mem_nil, or_false] at hs
    rcases hs with rfl | rfl
    · exact List.mem_singleton.1 hnext
    · exact absurd hnext List.not_mem_nil
  rcases hsub with rfl | hsub
  · rw [hinnerName, hrootName]
    decide
  · -- nothing runs in the blinker
    obtain ⟨s, hs, next, hnext, -⟩ := Machine.exists_of_holds hinner hsub
    simp only [MachineDraft.blinker, List.mem_cons, List.not_mem_nil, or_false] at hs
    rcases hs with rfl | rfl
    · exact absurd hnext List.not_mem_nil
    · exact absurd hnext List.not_mem_nil

/-- Three times the space bar, with a tick before and between. -/
def night : List Call :=
  [.command "tick", .key "space" .down, .key "space" .down, .command "tick", .key "space" .down].map
    (Call.dispatch ⟨0, 0⟩)

/-- At night a lamp goes off, on and off again while the light in it blinks. With room for three changes the first
way off is forgotten, and a change of the light stands between the other two. -/
theorem rootPath_walks_lamp :
    ∃ inner root, MachineDraft.blinker.build = .ok inner ∧ (MachineDraft.lamp inner).build = .ok root ∧
      let s := start root (.empty : Registry Unit) ⟨3, 16, none⟩ ()
      (s.run night).history.changes.map (·.machine) = ["lamp", "blinker", "lamp"] ∧
        (s.run night).history.pathOf root.name = ["off", "on", "off"] ∧
        root.Walks [.key "space" .down, .key "space" .down] ["off", "on", "off"] ∧
        (s.run night).currentState? root.name = some "off" := by
  obtain ⟨inner, root, hinner, hroot, hown, hmachines, hpath⟩ : ∃ inner root,
      MachineDraft.blinker.build = .ok inner ∧ (MachineDraft.lamp inner).build = .ok root ∧
        let s := start root (.empty : Registry Unit) ⟨3, 16, none⟩ ()
        (((s.moves night).rtake 3).filter fun d => d.outcome.isMoveOf root.name).map (·.stimulus) =
            [.key "space" .down, .key "space" .down] ∧
          (s.run night).history.changes.map (·.machine) = ["lamp", "blinker", "lamp"] ∧
          (s.run night).history.pathOf root.name = ["off", "on", "off"] :=
    ⟨_, _, rfl, rfl, by decide +kernel, by decide +kernel, by decide +kernel⟩
  refine ⟨inner, root, hinner, hroot, hmachines, hpath, ?_⟩
  obtain ⟨-, -, hwalk⟩ := rootPath_walks (Machine.validated_lamp hinner hroot)
    (name_ne_of_holds_lamp hinner hroot) (.empty : Registry Unit) ⟨3, 16, none⟩ () night
  rcases hwalk with ⟨-, hempty⟩ | ⟨-, hwalks, hlast, -⟩
  · rw [hpath] at hempty
    exact absurd hempty (List.cons_ne_nil _ _)
  · rw [hpath, hown] at hwalks
    rw [hpath] at hlast
    exact ⟨hwalks, hlast.symm⟩

end Session

end ModeTree
