import ModeTree.Proofs.Machine.Construction
import ModeTree.Proofs.Session.Log
import ModeTree.Proofs.Session.Panel
import ModeTree.Proofs.Session.Report

/-!
# Replaying a history

The history keeps the texts of the stimuli that have moved a machine. What a stimulus comes to depends on the
tree alone (`dispatch_of_tree_eq`), and stimuli that move nothing leave the tree as it is, so a session that
has just been started takes the moves of a run without the rest of it and comes to the same tree
(`takeAll_moves`). When the history has kept all moves and their texts can be read back, the stimuli that they
spell lead from the start to where the run has ended (`history_replays`).
-/

set_option autoImplicit false

namespace ModeTree

universe u v

namespace Session

variable {σ : Type u} {τ : Type v}

/-- In sessions with the same tree a stimulus has the same outcome and leads to the same tree, whatever else
these sessions hold. -/
theorem dispatch_of_tree_eq {s : Session σ} {r : Session τ} (htree : r.tree = s.tree) (now now' : Instant)
    (x : Stimulus) :
    (r.dispatch now' x).1 = (s.dispatch now x).1 ∧ (r.dispatch now' x).2.tree = (s.dispatch now x).2.tree := by
  rw [dispatch, dispatch, htree]
  cases select? s.tree x with
  | none => exact ⟨rfl, htree⟩
  | some found =>
      obtain ⟨c, t⟩ := found
      show (r.act now' x c t).1 = (s.act now x c t).1 ∧ (r.act now' x c t).2.tree = (s.act now x c t).2.tree
      rw [act, act]
      cases t.kind with
      | action name also => exact ⟨rfl, htree⟩
      | arrow target also =>
          cases t.targetIndex with
          | none => exact ⟨rfl, htree⟩
          | some index =>
              simp only [htree]
              cases s.tree.descendant? c.path with
              | none => exact ⟨rfl, htree⟩
              | some live =>
                  simp only [move, LiveTree.moveTo_eq _ live index also c.path, htree, and_self]

/-- A session with the same tree takes the moves of a run, one by one, with the same outcomes, and ends with
the tree of the run and the view of this tree. -/
theorem takeAll_moves {s : Session σ} {r : Session τ} (htree : r.tree = s.tree) (hview : r.tree.Shows r.view)
    (clock : Nat → Instant) (calls : List Call) :
    let inputs := (s.moves calls).map fun d => Input.stimulus d.stimulus
    (r.observe clock inputs).map (·.outcome) = (s.moves calls).map (·.outcome) ∧
      (r.takeAll clock inputs).tree = (s.run calls).tree ∧
      (r.takeAll clock inputs).tree.Shows (r.takeAll clock inputs).view := by
  induction calls generalizing s r clock with
  | nil => exact ⟨rfl, htree, hview⟩
  | cons c calls ih =>
      rw [moves_cons, run_cons]
      cases hdispatch : c.dispatch? s with
      | none =>
          obtain ⟨hsame, -, -⟩ := call_of_dispatch?_eq_none hdispatch
          exact ih (htree.trans hsame.symm) hview clock
      | some d =>
          obtain ⟨rfl, hcall⟩ := call_of_dispatch? hdispatch
          rw [Option.toList_some, List.filter_singleton, hcall]
          rcases d.change_or_still with ⟨hmove, -⟩ | ⟨hstill, -, hsame⟩
          · -- a move is taken by the other session too
            obtain ⟨houtcome, hafter⟩ := dispatch_of_tree_eq htree d.now (clock 0) d.stimulus
            obtain ⟨hshows, -⟩ := dispatch_shows r (clock 0) d.stimulus hview
            obtain ⟨hrest, hend⟩ := ih hafter hshows fun n => clock (n + 1)
            rw [hmove]
            exact ⟨congrArg₂ List.cons houtcome hrest, hend⟩
          · -- what moves nothing is left out
            rw [hstill]
            exact ih (htree.trans hsame.symm) hview clock

/-- A history that has kept all moves of a run replays. If the texts of the stimuli that have moved a machine
can be read back, then the texts of the changes spell stimuli with which a session of the same machine that
has just been started, in whatever trial, goes the same way. Each of them has as its outcome the move that
its change tells of, and at the end the active states and the view are those of the run. -/
theorem history_replays (root : Machine) (registry : Registry σ) (config : Config) (host : σ)
    (calls : List Call)
    (hread : ∀ d ∈ (start root registry config host).moves calls,
      Stimulus.parse d.stimulus.text = .ok d.stimulus)
    (hroom : ((start root registry config host).moves calls).length ≤ config.historyCapacity)
    (config' : Config) (normalizer : Normalizer) (trial : Trial τ) :
    let s := (start root registry config host).run calls
    let fresh := startTrial root config' normalizer trial
    ∃ xs, Stimulus.Spelled (s.history.changes.map (·.stimulus)) xs ∧
      (fresh.observe trial.clock (xs.map .stimulus)).map (·.outcome) =
        s.history.changes.map (fun c => .moved c.machine c.source c.target) ∧
      (fresh.takeAll trial.clock (xs.map .stimulus)).activeStates = s.activeStates ∧
      (fresh.takeAll trial.clock (xs.map .stimulus)).view = s.view := by
  intro s fresh
  let first := start root registry config host
  obtain ⟨changes, hrecords, hhistory⟩ := history_run first calls
  have hlength := hrecords.length_eq
  -- nothing has been forgotten
  have hchanges : s.history.changes = changes := by
    show (first.run calls).history.changes = changes
    rw [hhistory]
    refine (History.changes_recordAll_withCapacity config.historyCapacity changes).trans ?_
    exact rtake_of_length_le (hlength ▸ hroom)
  have htree : fresh.tree = first.tree :=
    (tree_start root trial.registry config' trial.host).trans (tree_start root registry config host).symm
  obtain ⟨houtcomes, hend, hview⟩ := takeAll_moves htree (shows_viewOf fresh.tree) trial.clock calls
  refine ⟨(first.moves calls).map (·.stimulus), ?_, ?_, ?_, ?_⟩
  · rw [hchanges, Stimulus.Spelled, List.forall₂_map_left_iff, List.forall₂_map_right_iff]
    refine forall₂_imp_of_mem hrecords.flip ?_
    intro c hc d hd hrecord
    rw [hrecord.stimulus]
    exact hread d hd
  · rw [hchanges, List.map_map]
    exact houtcomes.trans (map_eq_of_forall₂ hrecords fun d c hrecord => hrecord.outcome)
  · rw [List.map_map, activeStates, activeStates]
    exact congrArg (fun t => t.walk.map fun c => ActiveState.mk c.path.length c.tree.name c.tree.currentId) hend
  · have hshown : s.tree.Shows s.view := shows_run (shows_viewOf _) calls
    rw [List.map_map, (shows_iff s.tree s.view).1 hshown]
    exact ((shows_iff _ _).1 hview).trans (congrArg viewOf hend)

/-- A tick, a command that nothing takes, and the space bar as the host tells of it. -/
def evening : List Call :=
  [.dispatch ⟨0, 0⟩ (.command "tick"), .dispatch ⟨0, 0⟩ (.command "nothing"),
    .feed ⟨0, 0⟩ ⟨.key " " true, .none⟩ none]

/-- With the texts that its history keeps of an evening, a lamp that blinks is switched off again. -/
theorem history_replays_lamp :
    ∃ inner root, MachineDraft.blinker.build = .ok inner ∧ (MachineDraft.lamp inner).build = .ok root ∧
      let first := start root (.empty : Registry Unit) {} ()
      (∀ d ∈ first.moves evening, Stimulus.parse d.stimulus.text = .ok d.stimulus) ∧
        (first.moves evening).length ≤ 256 ∧
        ∃ xs, Stimulus.Spelled ["tick", "space:down"] xs ∧
          ((startTrial root {} .standard silent).takeAll silent.clock (xs.map .stimulus)).activeStates =
            [⟨0, "lamp", "off"⟩] := by
  obtain ⟨inner, root, hinner, hroot, hread, hroom, htexts, hoff⟩ : ∃ inner root,
      MachineDraft.blinker.build = .ok inner ∧ (MachineDraft.lamp inner).build = .ok root ∧
        let first := start root (.empty : Registry Unit) {} ()
        (∀ d ∈ first.moves evening, Stimulus.parse d.stimulus.text = .ok d.stimulus) ∧
          (first.moves evening).length ≤ 256 ∧
          (first.run evening).history.changes.map (·.stimulus) = ["tick", "space:down"] ∧
          (first.run evening).activeStates = [⟨0, "lamp", "off"⟩] :=
    ⟨_, _, rfl, rfl, by decide +kernel, by decide +kernel, by decide +kernel, by decide +kernel⟩
  refine ⟨inner, root, hinner, hroot, hread, hroom, ?_⟩
  obtain ⟨xs, hspelled, -, hactive, -⟩ := history_replays root (.empty : Registry Unit) {} () evening hread
    hroom {} .standard silent
  exact ⟨xs, htexts ▸ hspelled, hactive.trans hoff⟩

end Session

end ModeTree
