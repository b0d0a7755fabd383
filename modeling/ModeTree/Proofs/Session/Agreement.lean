import ModeTree.Proofs.Tree.Agreement

/-!
# Sessions that agree

Two sessions agree when their trees do, and when their histories are the same apart from times, their views
and their normalizers the same. Hosts, registries and what callbacks have done play no part. A stimulus
leads from sessions that agree to sessions that agree, with the same outcome and by the same names
(`Agrees.dispatch`).
-/

set_option autoImplicit false

namespace ModeTree

universe u v

/-! ## What states say together -/

theorem Transition.Agrees.control?_eq {t t' : Transition} (h : t.Agrees t') : t.control? = t'.control? := by
  rw [control?, control?, h.hint, h.stimuli]

theorem State.Says.findTransition?_rel {μ : Type} {s s' : State Transition μ}
    (h : s.Says Transition.Agrees s') (x : Stimulus) :
    Option.Rel Transition.Agrees (s.findTransition? x) (s'.findTransition? x) := by
  apply find?_rel h.transitions
  intro t t' ht
  rw [Transition.matchesStimulus, Transition.matchesStimulus, ht.stimuli]

/-- States that say the same make the same view. -/
theorem View.project_eq_of_says {μ : Type} {ss ss' : List (State Transition μ)}
    (h : List.Forall₂ (State.Says Transition.Agrees) ss ss') : View.project ss = View.project ss' := by
  have hreverse := List.rel_reverse h
  have hmodes : ss.reverse.map (·.hintMode) = ss'.reverse.map (·.hintMode) :=
    map_eq_of_forall₂ hreverse fun _ _ hsame => hsame.hintMode
  have hdescription : ss.reverse.findSome? (·.description) = ss'.reverse.findSome? (·.description) := by
    have hmap := map_eq_of_forall₂ hreverse fun _ _ hsame => hsame.description
    have hfirst := congrArg (fun texts => texts.findSome? id) hmap
    simpa only [List.findSome?_map, Function.id_comp] using hfirst
  have hcontrols : (ss.flatMap (·.transitions)).filterMap Transition.control? =
      (ss'.flatMap (·.transitions)).filterMap Transition.control? := by
    have htransitions := List.rel_flatMap h fun _ _ hsame => hsame.transitions
    have hmap := map_eq_of_forall₂ htransitions fun _ _ ht => ht.control?_eq
    have hlabelled := congrArg (fun controls => controls.filterMap id) hmap
    simpa only [List.filterMap_map, Function.id_comp] using hlabelled
  rw [project, project, decidingMode?, decidingMode?, hmodes, hdescription, hcontrols]

/-! ## Changes without their times -/

/-- What a change tells apart from its time. -/
structure Passage where
  machine : String
  depth : Nat
  source : String
  target : String
  stimulus : String
  deriving DecidableEq, Repr

/-- A change without its time. -/
def ModeChange.passage (c : ModeChange) : Passage :=
  ⟨c.machine, c.depth, c.source, c.target, c.stimulus⟩

/-- The changes of a history without their times. -/
def History.passages (h : History) : List Passage := h.changes.map ModeChange.passage

theorem History.passages_record (h : History) (c : ModeChange) :
    (h.record c).passages =
      if h.capacity = 0 then h.passages
      else h.passages.drop (h.passages.length + 1 - h.capacity) ++ [c.passage] := by
  rw [record]
  split
  · rfl
  · simp [passages, makeRoom_eq_drop]

namespace Session

open LiveTree

variable {σ : Type u} {τ : Type v}

/-- Sessions that run alike. -/
structure Agrees (s : Session σ) (s' : Session τ) : Prop where
  tree : s.tree.Agrees s'.tree
  normalizer : s.normalizer = s'.normalizer
  capacity : s.history.capacity = s'.history.capacity
  passages : s.history.passages = s'.history.passages
  view : s.view = s'.view

/-- Two sessions have each performed the same names. -/
def PerformAlike (s after : Session σ) (s' after' : Session τ) : Prop :=
  ∃ names, after.journal = s.journal.performAll s.registry names ∧
    after'.journal = s'.journal.performAll s'.registry names

theorem viewOf_eq_of_agrees {t t' : LiveTree} (h : t.Agrees t') : viewOf t = viewOf t' := by
  apply View.project_eq_of_says
  rw [List.forall₂_map_left_iff, List.forall₂_map_right_iff]
  exact h.outermostFirst.imp fun c c' hc => hc.tree.alike

/-- Trees that agree select transitions that do, on machines at the same path. -/
theorem select?_rel {t t' : LiveTree} (h : t.Agrees t') (x : Stimulus) :
    Option.Rel (fun a b => a.1.Agrees b.1 ∧ a.2.Agrees b.2) (select? t x) (select? t' x) := by
  apply findSome?_rel h.deepestFirst
  intro c c' hc
  have hfind := hc.tree.alike.findTransition?_rel x
  revert hfind
  cases c.tree.currentState.findTransition? x with
  | none =>
      cases c'.tree.currentState.findTransition? x with
      | none => exact fun _ => .none
      | some u' => exact fun hfind => nomatch hfind
  | some u =>
      cases c'.tree.currentState.findTransition? x with
      | none => exact fun hfind => nomatch hfind
      | some u' =>
          rintro ⟨hu⟩
          exact .some ⟨hc, hu⟩

theorem Agrees.activeStates_eq {s : Session σ} {s' : Session τ} (h : s.Agrees s') :
    s.activeStates = s'.activeStates := by
  apply map_eq_of_forall₂ (h.tree.walkFrom [])
  intro c c' hc
  rw [hc.path, hc.tree.name_eq, hc.tree.state]

/-- Machines that agree are started into sessions that agree, by the same names. -/
theorem agrees_start {root root' : Machine} (h : root.Agrees root') (hroot : root.WellFormed)
    (hroot' : root'.WellFormed) (config : Config) (registry : Registry σ) (registry' : Registry τ)
    (host : σ) (host' : τ) :
    let s := start root registry config host
    let s' := start root' registry' config host'
    s.Agrees s' ∧ s.journal = (Journal.start host).performAll registry root.entrySequence ∧
      s'.journal = (Journal.start host').performAll registry' root.entrySequence := by
  intro s s'
  have hfresh := agrees_fresh h hroot hroot'
  have hjournal := LiveTree.launch_eq registry root [] (.start host)
  have hjournal' := LiveTree.launch_eq registry' root' [] (.start host')
  rw [entryActions_fresh] at hjournal hjournal'
  rw [← h.entrySequence_eq hroot hroot'] at hjournal'
  have hs : s.tree = fresh root := tree_start root registry config host
  have hs' : s'.tree = fresh root' := tree_start root' registry' config host'
  refine ⟨⟨?_, rfl, rfl, rfl, ?_⟩, congrArg Prod.snd hjournal, congrArg Prod.snd hjournal'⟩
  · rw [hs, hs']
    exact hfresh
  · show viewOf s.tree = viewOf s'.tree
    rw [hs, hs']
    exact viewOf_eq_of_agrees hfresh

/-- A dispatch is what its response says. -/
theorem dispatch_eq_of_response {s after : Session σ} {now : Instant} {x : Stimulus} {outcome : Outcome}
    (h : Response s now x outcome after) : s.dispatch now x = (outcome, after.present) := by
  cases h with
  | dropped hselect => rw [dispatch, hselect]
  | fired hselect hkind =>
      rw [dispatch, hselect]
      simp only [act, hkind]
      rfl
  | moved hselect hkind hindex hlt hid =>
      rw [dispatch, hselect]
      simp only [act, hkind, hindex, descendant?_of_select? hselect, move_eq, hid]

variable {root root' : Machine} {s after : Session σ} {s' : Session τ}

/-- A stimulus moves sessions that agree alike. -/
theorem Agrees.afterMove (h : s.Agrees s') {c c' : Context} (hc : c.Agrees c')
    (hm : c.tree.machine.WellFormed) (hm' : c'.tree.machine.WellFormed) {i i' : Nat}
    (hi : i < c.tree.machine.states.length) (hi' : i' < c'.tree.machine.states.length)
    (hid : (c.tree.machine.stateAt i).id = (c'.tree.machine.stateAt i').id) (now now' : Instant)
    (x : Stimulus) (also : List String) :
    (s.afterMove now x c i also).Agrees (s'.afterMove now' x c' i' also) ∧
      PerformAlike s (s.afterMove now x c i also) s' (s'.afterMove now' x c' i' also) := by
  have hmoved := agrees_inState hc.tree.machine hm hm' hi hi' hid
  have htree : (s.afterMove now x c i also).tree.Agrees (s'.afterMove now' x c' i' also).tree := by
    rw [tree_afterMove, tree_afterMove, ← hc.path]
    exact h.tree.replace hmoved c.path
  refine ⟨⟨htree, h.normalizer, ?_, ?_, viewOf_eq_of_agrees htree⟩, _, rfl, ?_⟩
  · show (s.history.record _).capacity = (s'.history.record _).capacity
    rw [History.capacity_record, History.capacity_record]
    exact h.capacity
  · show (s.history.record _).passages = (s'.history.record _).passages
    rw [History.passages_record, History.passages_record, h.capacity, h.passages]
    simp only [ModeChange.passage, hc.tree.name_eq, hc.path, hc.tree.state, hid]
  · -- the names of a move do not depend on the path
    show s'.journal.performAll s'.registry _ = _
    rw [hc.tree.names_move_eq hm hm' hi hi' hid also c.path, hc.path]

/-- A session responds as one does that agrees with it. -/
theorem Agrees.response (h : s.Agrees s') (hroot : root.WellFormed) (hroot' : root'.WellFormed)
    (hs : Running root s) (hs' : Running root' s') {now : Instant} {x : Stimulus} {outcome : Outcome}
    (hresponse : Response s now x outcome after) (now' : Instant) :
    ∃ after', Response s' now' x outcome after' ∧ after.Agrees after' ∧ PerformAlike s after s' after' := by
  have hrel := select?_rel h.tree x
  cases hresponse with
  | dropped hselect =>
      rw [hselect] at hrel
      generalize hselect' : select? s'.tree x = found at hrel
      cases hrel with
      | none => exact ⟨s', .dropped hselect', h, [], rfl, rfl⟩
  | @fired c t name also hselect hkind =>
      rw [hselect] at hrel
      generalize hselect' : select? s'.tree x = found at hrel
      obtain @⟨_, ⟨c', t'⟩, hc, ht⟩ := hrel
      rw [hc.tree.name_eq, hc.tree.state]
      refine ⟨_, .fired hselect' (ht.kind ▸ hkind), ?_, name :: also, rfl, rfl⟩
      exact ⟨h.tree, h.normalizer, h.capacity, h.passages, h.view⟩
  | @moved c t target also index hselect hkind hindex hlt hid =>
      rw [hselect] at hrel
      generalize hselect' : select? s'.tree x = found at hrel
      obtain @⟨_, ⟨c', t'⟩, hc, ht⟩ := hrel
      obtain ⟨-, hm, -⟩ := hs.selected hroot hselect
      obtain ⟨-, hm', hresolved⟩ := hs'.selected hroot' hselect'
      -- the arrow of the other machine leads to the state of the same name, wherever that stands
      have hkind' : t'.kind = .arrow target also := ht.kind ▸ hkind
      obtain ⟨index', hlt', hindex', hid'⟩ := hresolved target (by rw [hkind']; rfl)
      rw [← Machine.stateAt_eq_getElem hlt'] at hid'
      rw [hc.tree.name_eq, hc.tree.state]
      refine ⟨_, .moved hselect' hkind' hindex' hlt' hid', ?_⟩
      exact h.afterMove hc hm hm' hlt hlt' (hid.trans hid'.symm) now now' x also

/-- A stimulus has the same outcome in sessions that agree, by the same names, and they go on to agree. -/
theorem Agrees.dispatch (h : s.Agrees s') (hroot : root.WellFormed) (hroot' : root'.WellFormed)
    (hs : Running root s) (hs' : Running root' s') (now now' : Instant) (x : Stimulus) :
    (s.dispatch now x).1 = (s'.dispatch now' x).1 ∧ (s.dispatch now x).2.Agrees (s'.dispatch now' x).2 ∧
      PerformAlike s (s.dispatch now x).2 s' (s'.dispatch now' x).2 := by
  obtain ⟨outcome, after, heq, hresponse⟩ := hs.response hroot now x
  obtain ⟨after', hresponse', hafter, hnames⟩ := h.response hroot hroot' hs hs' hresponse now'
  rw [heq, dispatch_eq_of_response hresponse']
  exact ⟨rfl, ⟨hafter.tree, hafter.normalizer, hafter.capacity, hafter.passages, hafter.view⟩, hnames⟩

/-- Sessions that agree perform the same names when they end. -/
theorem Agrees.stop (h : s.Agrees s') :
    s.stop = s.journal.performAll s.registry s.tree.exitSequence ∧
      s'.stop = s'.journal.performAll s'.registry s.tree.exitSequence := by
  rw [h.tree.exitSequence_eq, Session.stop, Session.stop, leave_eq s.registry s.tree [],
    leave_eq s'.registry s'.tree [], exitActions_closeFrom, exitActions_closeFrom, h.tree.exitSequence_eq]
  exact ⟨rfl, rfl⟩

end Session

end ModeTree
