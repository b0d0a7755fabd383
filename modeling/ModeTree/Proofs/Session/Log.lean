import ModeTree.Proofs.History.Retention
import ModeTree.Proofs.Session.Priority
import ModeTree.Proofs.Relations

/-!
# The history as a log of moves

A run dispatches stimuli, one after the other (`Session.dispatches`), and some of them move a machine
(`Session.moves`). What one dispatch does to the history is said once, by `Dispatch.change_or_still`: a move
records one change, which tells of it as `Dispatch.Records` says, and anything else leaves the history alone.
So a run records the changes of its moves in order (`history_run`), and the history retains the last of them
(`history_keeps_moves`).
-/

set_option autoImplicit false

namespace ModeTree

universe u

/-- Whether the outcome is a move. -/
def Outcome.isMove : Outcome → Bool
  | .moved _ _ _ => true
  | _ => false

/-- A stimulus that is dispatched at a time, with the session that takes it. -/
structure Dispatch (σ : Type u) where
  session : Session σ
  now : Instant
  stimulus : Stimulus

namespace Dispatch

variable {σ : Type u}

/-- What comes of a dispatch. -/
def outcome (d : Dispatch σ) : Outcome := (d.session.dispatch d.now d.stimulus).1

/-- The session after a dispatch. -/
def after (d : Dispatch σ) : Session σ := (d.session.dispatch d.now d.stimulus).2

/-- A change tells of a dispatch: of the move that was its outcome, of its stimulus, and of the depth of the
machine that has moved. This is the one with the first candidate for the stimulus, and it runs on in its new
state where it has run before. -/
structure Records (d : Dispatch σ) (c : ModeChange) : Prop where
  outcome : d.outcome = .moved c.machine c.source c.target
  stimulus : c.stimulus = d.stimulus.text
  depth : ∃ (a : Candidate) (old new : LiveTree), a.IsFirst d.session.tree d.stimulus ∧
    d.session.tree.descendant? a.path = some old ∧ old.name = c.machine ∧ old.currentId = c.source ∧
    d.after.tree = d.session.tree.replace a.path new ∧ new.machine = old.machine ∧
    new.currentId = c.target ∧ c.depth = a.path.length

/-- A dispatch that moves a machine records one change that tells of it. Any other leaves the history and the
tree as they are. -/
theorem change_or_still (d : Dispatch σ) :
    (d.outcome.isMove = true ∧
      ∃ c, d.Records c ∧ d.after.history = d.session.history.record c) ∨
    (d.outcome.isMove = false ∧
      d.after.history = d.session.history ∧ d.after.tree = d.session.tree) := by
  obtain ⟨outcome, after, heq, heffect⟩ := Session.dispatch_effect d.session d.now d.stimulus
  have houtcome : d.outcome = outcome := congrArg Prod.fst heq
  have hafter : d.after = after.present := congrArg Prod.snd heq
  rw [houtcome, hafter]
  cases heffect with
  | unmatched hselect => exact Or.inr ⟨rfl, rfl, rfl⟩
  | fired hselect hkind => exact Or.inr ⟨rfl, rfl, rfl⟩
  | untargeted hselect hkind hindex => exact Or.inr ⟨rfl, rfl, rfl⟩
  | @moved c t target also index hselect hkind hindex =>
      obtain ⟨a, hstands, hfirst⟩ := Session.isFirst_of_select? hselect
      refine Or.inl ⟨rfl, _, ⟨houtcome, rfl, ?_⟩, rfl⟩
      refine ⟨a, c.tree, LiveTree.inState c.tree.machine index, hfirst, hstands.runs, rfl, rfl, ?_, rfl, rfl,
        congrArg List.length hstands.path⟩
      rw [hafter, ← hstands.path]
      rfl

end Dispatch

namespace Session

variable {σ : Type u}

/-- What a call dispatches, if it does. -/
def Call.dispatch? (s : Session σ) : Call → Option (Dispatch σ)
  | .dispatch now stimulus => some ⟨s, now, stimulus⟩
  | .feed now event hit => (s.normalizer.normalize event hit).map fun stimulus => ⟨s, now, stimulus⟩
  | .attachPanel => none
  | .useNormalizer _ => none
  | .invoke _ => none

/-- What a run dispatches, in order. -/
def dispatches (s : Session σ) : List Call → List (Dispatch σ)
  | [] => []
  | c :: calls => (c.dispatch? s).toList ++ (s.call c).dispatches calls

/-- The dispatches of a run that move a machine, in order. -/
def moves (s : Session σ) (calls : List Call) : List (Dispatch σ) :=
  (s.dispatches calls).filter fun d => d.outcome.isMove

/-- A call that dispatches a stimulus does so in the session as it is. -/
theorem call_of_dispatch? {s : Session σ} {c : Call} {d : Dispatch σ} (h : c.dispatch? s = some d) :
    d.session = s ∧ s.call c = d.after := by
  cases c with
  | dispatch now stimulus =>
      obtain rfl := Option.some.inj h
      exact ⟨rfl, rfl⟩
  | feed now event hit =>
      obtain ⟨stimulus, hnormal, rfl⟩ := Option.map_eq_some_iff.1 h
      refine ⟨rfl, ?_⟩
      rw [call, feed, hnormal]
      rfl
  | attachPanel => cases h
  | useNormalizer n => cases h
  | invoke name => cases h

/-- A call that dispatches nothing leaves the tree, the history and the view as they are. -/
theorem call_of_dispatch?_eq_none {s : Session σ} {c : Call} (h : c.dispatch? s = none) :
    (s.call c).tree = s.tree ∧ (s.call c).history = s.history ∧ (s.call c).view = s.view := by
  cases c with
  | dispatch now stimulus => cases h
  | feed now event hit =>
      rw [call, feed, Option.map_eq_none_iff.1 h]
      exact ⟨rfl, rfl, rfl⟩
  | attachPanel => exact ⟨rfl, rfl, rfl⟩
  | useNormalizer n => exact ⟨rfl, rfl, rfl⟩
  | invoke name => exact ⟨rfl, rfl, rfl⟩

/-- The moves of a run are that of the first call, if it moves a machine, and those of the others. -/
theorem moves_cons (s : Session σ) (c : Call) (calls : List Call) :
    s.moves (c :: calls) =
      ((c.dispatch? s).toList.filter fun d => d.outcome.isMove) ++ (s.call c).moves calls := by
  rw [moves, dispatches, List.filter_append]
  rfl

/-- A run records one change for each of its moves, in order. -/
theorem history_run (s : Session σ) (calls : List Call) :
    ∃ changes, List.Forall₂ Dispatch.Records (s.moves calls) changes ∧
      (s.run calls).history = s.history.recordAll changes := by
  induction calls generalizing s with
  | nil => exact ⟨[], .nil, rfl⟩
  | cons c calls ih =>
      obtain ⟨changes, hrecords, hhistory⟩ := ih (s.call c)
      rw [run_cons, moves_cons, hhistory]
      cases hdispatch : c.dispatch? s with
      | none =>
          obtain ⟨-, hsame, -⟩ := call_of_dispatch?_eq_none hdispatch
          rw [hsame]
          exact ⟨changes, hrecords, rfl⟩
      | some d =>
          obtain ⟨hsession, hcall⟩ := call_of_dispatch? hdispatch
          rw [Option.toList_some, List.filter_singleton, hcall]
          rw [hcall] at hrecords
          rcases d.change_or_still with ⟨hmove, change, hchange, hrecorded⟩ | ⟨hstill, hsame, -⟩
          · rw [hmove, hrecorded, hsession]
            exact ⟨change :: changes, .cons hchange hrecords, rfl⟩
          · rw [hstill, hsame, hsession]
            exact ⟨changes, hrecords, rfl⟩

/-- The history of a run is the log of its moves as far as there is room: of all the dispatches that have moved
a machine, as many as the capacity are told of by the changes, and these are the last, in order. Without
capacity there are no changes. -/
theorem history_keeps_moves (root : Machine) (registry : Registry σ) (config : Config) (host : σ)
    (calls : List Call) :
    let s := start root registry config host
    let moves := s.moves calls
    let history := (s.run calls).history
    history.size = min config.historyCapacity moves.length ∧
      List.Forall₂ Dispatch.Records (moves.rtake config.historyCapacity) history.changes ∧
      (config.historyCapacity = 0 → history.changes = []) := by
  intro s moves history
  obtain ⟨changes, hrecords, hhistory⟩ := history_run s calls
  have hlength : moves.length = changes.length := hrecords.length_eq
  have hkept : history.changes = changes.rtake config.historyCapacity := by
    show (s.run calls).history.changes = _
    rw [hhistory]
    exact History.changes_recordAll_withCapacity config.historyCapacity changes
  refine ⟨?_, ?_, ?_⟩
  · rw [History.size, hkept, length_rtake, hlength]
  · rw [hkept, List.rtake, List.rtake, hlength]
    exact List.forall₂_drop _ hrecords
  · intro hzero
    rw [hkept, hzero, List.rtake_zero]

end Session

end ModeTree
