import ModeTree.Proofs.Session.Run
import ModeTree.Proofs.Tree.Order

/-!
# The view and the panel

The view of a session is put together when it starts and when a machine moves, and kept in between. It is
current all the same: at every point of a run it is the projection of the states that are active then
(`Shows`). A panel is given the view when it is attached, and after that one view for each stimulus that is
dispatched, whatever comes of it (`panel_follows`).
-/

set_option autoImplicit false

namespace ModeTree

universe u

/-- The view is the projection of the current states of all running machines, taken by depth and within one
depth in the order of the walk. -/
def LiveTree.Shows (t : LiveTree) (v : View) : Prop :=
  ∃ contexts, t.ByDepth contexts ∧ v = View.project (contexts.map fun c => c.tree.currentState)

namespace Session

variable {σ : Type u}

theorem shows_viewOf (t : LiveTree) : t.Shows (viewOf t) :=
  ⟨t.outermostFirst, t.byDepth_outermostFirst, rfl⟩

/-- A tree shows one view. -/
theorem shows_iff (t : LiveTree) (v : View) : t.Shows v ↔ v = viewOf t := by
  constructor
  · rintro ⟨contexts, hcontexts, rfl⟩
    rw [hcontexts.unique t.byDepth_outermostFirst]
    rfl
  · rintro rfl
    exact shows_viewOf t

/-! ## The view -/

/-- A dispatch gives the panel the view that it leaves, once, and leaves a view that is current. -/
theorem dispatch_shows (s : Session σ) (now : Instant) (x : Stimulus) (h : s.tree.Shows s.view) :
    (s.dispatch now x).2.tree.Shows (s.dispatch now x).2.view ∧
      (s.dispatch now x).2.shown = s.shown.map (· ++ [(s.dispatch now x).2.view]) := by
  obtain ⟨outcome, after, heq, heffect⟩ := dispatch_effect s now x
  rw [heq]
  -- only a move changes the tree, and it puts the view together anew
  cases heffect with
  | unmatched hselect => exact ⟨h, rfl⟩
  | fired hselect hkind => exact ⟨h, rfl⟩
  | moved hselect hkind hindex => exact ⟨shows_viewOf _, rfl⟩
  | untargeted hselect hkind hindex => exact ⟨h, rfl⟩

/-- The stimulus that a call dispatches, if it does. -/
def Call.stimulus? (normalizer : Normalizer) : Call → Option Stimulus
  | .dispatch _ x => some x
  | .feed _ event hit => normalizer.normalize event hit
  | .attachPanel => none
  | .useNormalizer _ => none
  | .invoke _ => none

/-- A call leaves a view that is current. Unless it attaches a panel, it gives the panel this view if it
dispatches a stimulus, and nothing if it does not. -/
theorem call_shows (s : Session σ) (c : Call) (h : s.tree.Shows s.view) :
    (s.call c).tree.Shows (s.call c).view ∧
      (c ≠ .attachPanel → (s.call c).shown = s.shown.map
        (· ++ if (c.stimulus? s.normalizer).isSome then [(s.call c).view] else [])) := by
  cases c with
  | dispatch now x =>
      obtain ⟨hview, hshown⟩ := dispatch_shows s now x h
      exact ⟨hview, fun _ => hshown⟩
  | feed now event hit =>
      rw [call, feed, Call.stimulus?]
      cases s.normalizer.normalize event hit with
      | none => exact ⟨h, fun _ => by simp⟩
      | some x =>
          obtain ⟨hview, hshown⟩ := dispatch_shows s now x h
          exact ⟨hview, fun _ => hshown⟩
  | attachPanel => exact ⟨h, fun hne => absurd rfl hne⟩
  | useNormalizer n => exact ⟨h, fun _ => by simp [call, withNormalizer, Call.stimulus?]⟩
  | invoke name => exact ⟨h, fun _ => by simp [call, invoke, Call.stimulus?]⟩

/-! ## Runs -/

theorem shows_run {s : Session σ} (h : s.tree.Shows s.view) (calls : List Call) :
    (s.run calls).tree.Shows (s.run calls).view :=
  run_keeps (P := fun s => s.tree.Shows s.view) (fun s c hs => (call_shows s c hs).1) h calls

/-- The trees after those calls that dispatch a stimulus. -/
def treesDispatched (s : Session σ) : List Call → List LiveTree
  | [] => []
  | c :: calls =>
    (if (c.stimulus? s.normalizer).isSome then [(s.call c).tree] else []) ++
      (s.call c).treesDispatched calls

/-- A panel that stays attached is given the views of the trees after each dispatch, one by one. -/
theorem shown_run {s : Session σ} (h : s.tree.Shows s.view) {given : List View}
    (hshown : s.shown = some given) {calls : List Call} (hcalls : ∀ c ∈ calls, c ≠ .attachPanel) :
    ∃ views, (s.run calls).shown = some (given ++ views) ∧
      List.Forall₂ LiveTree.Shows (s.treesDispatched calls) views := by
  induction calls generalizing s given with
  | nil => exact ⟨[], by simpa using hshown, .nil⟩
  | cons c calls ih =>
      obtain ⟨hc, hrest⟩ := List.forall_mem_cons.1 hcalls
      obtain ⟨hview, hgiven⟩ := call_shows s c h
      have hgiven := hgiven hc
      rw [hshown, Option.map_some] at hgiven
      obtain ⟨views, hviews, hall⟩ := ih hview hgiven hrest
      rw [run_cons, treesDispatched]
      refine ⟨(if (c.stimulus? s.normalizer).isSome then [(s.call c).view] else []) ++ views,
        by rw [hviews, List.append_assoc], ?_⟩
      cases (c.stimulus? s.normalizer).isSome with
      | false => exact hall
      | true => exact .cons hview hall

/-- At every point of a run the view is the one that the tree shows. A panel that is attached then is given this view,
and as long as no other panel is attached, one view for each call that dispatches a stimulus, which is the view
of the tree after the call, and nothing else. -/
theorem panel_follows (root : Machine) (registry : Registry σ) (config : Config) (host : σ)
    (calls : List Call) :
    let s := (start root registry config host).run calls
    (∀ v, s.tree.Shows v ↔ v = s.view) ∧
      ∀ later : List Call, (∀ c ∈ later, c ≠ .attachPanel) →
        ∃ views, (s.attachPanel.run later).shown = some (s.view :: views) ∧
          List.Forall₂ LiveTree.Shows (s.attachPanel.treesDispatched later) views := by
  intro s
  have hview : s.tree.Shows s.view := shows_run (shows_viewOf _) calls
  constructor
  · intro v
    rw [shows_iff, (shows_iff s.tree s.view).1 hview]
  · intro later hlater
    exact shown_run (s := s.attachPanel) hview rfl hlater

/-- The panel of a lamp that blinks is given three views after the first: one for a command that nothing
takes, none for a blank command of the host, and two for ticks, dispatched and fed. -/
theorem panel_follows_lamp :
    ∃ inner root, MachineDraft.blinker.build = .ok inner ∧ (MachineDraft.lamp inner).build = .ok root ∧
      let now : Instant := ⟨0, 0⟩
      let later : List Call := [.dispatch now (.command "nothing"), .feed now ⟨.command " ", .none⟩ none,
        .dispatch now (.command "tick"), .feed now ⟨.command "tick", .none⟩ none]
      let s := start root (.empty : Registry Unit) {} ()
      (∀ c ∈ later, c ≠ .attachPanel) ∧
        ∃ views, (s.attachPanel.run later).shown = some (s.view :: views) ∧ views.length = 3 := by
  obtain ⟨inner, root, hinner, hroot, hcount⟩ : ∃ inner root,
      MachineDraft.blinker.build = .ok inner ∧ (MachineDraft.lamp inner).build = .ok root ∧
        ((start root (.empty : Registry Unit) {} ()).attachPanel.treesDispatched
          [.dispatch ⟨0, 0⟩ (.command "nothing"), .feed ⟨0, 0⟩ ⟨.command " ", .none⟩ none,
            .dispatch ⟨0, 0⟩ (.command "tick"), .feed ⟨0, 0⟩ ⟨.command "tick", .none⟩ none]).length = 3 :=
    ⟨_, _, rfl, rfl, by decide +kernel⟩
  refine ⟨inner, root, hinner, hroot, ?_⟩
  intro now later s
  have hlater : ∀ c ∈ later, c ≠ .attachPanel := by simp [later]
  obtain ⟨-, hfollows⟩ := panel_follows root (.empty : Registry Unit) {} () []
  obtain ⟨views, hviews, hall⟩ := hfollows later hlater
  exact ⟨hlater, views, hviews, hall.length_eq.symm.trans hcount⟩

end Session

end ModeTree
