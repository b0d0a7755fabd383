import ModeTree.Proofs.Relations
import ModeTree.Proofs.Session.Panel
import ModeTree.Proofs.Session.Priority

/-!
# The controls of the panel

A view is put together from the outermost machine on, while a stimulus is offered from the deepest machine on,
so a control that the panel lists may stand for a transition that others come before. It is never idle all the
same: what its texts spell is taken by its own transition or by one that precedes it. The panel leaves nothing
out either. Unless a state hides it, it lists every labelled transition of every running machine once
(`controls_agree`).
-/

set_option autoImplicit false

namespace ModeTree

universe u

/-! ## What is listed -/

/-- A control tells of a transition: it has the label and the help text of the transition, and the texts of its
patterns in order. -/
structure Control.Tells (control : Control) (t : Transition) : Prop where
  label : t.hint.label = some control.label
  helpText : t.hint.helpText = control.helpText
  stimuli : t.stimuli.map Stimulus.text = control.stimuli

theorem Transition.control?_eq_some_iff (t : Transition) (control : Control) :
    t.control? = some control ↔ control.Tells t := by
  rw [Transition.control?, Option.map_eq_some_iff]
  constructor
  · rintro ⟨label, hlabel, rfl⟩
    exact ⟨hlabel, rfl, rfl⟩
  · rintro ⟨hlabel, hhelp, hstimuli⟩
    refine ⟨control.label, hlabel, ?_⟩
    rw [hhelp, hstimuli]

/-- The candidate is a transition that has a label. -/
def Candidate.Labelled (a : Candidate) (tree : LiveTree) : Prop :=
  ∃ c t, a.Stands tree c t ∧ t.hint.label ≠ none

/-- The control tells of the candidate. -/
def Candidate.ToldBy (a : Candidate) (tree : LiveTree) (control : Control) : Prop :=
  ∃ c t, a.Stands tree c t ∧ control.Tells t

/-- The labelled transitions of a machine's current state, in the order in which they are declared. -/
def Context.labelled (c : Context) : List Candidate :=
  (c.tree.currentState.transitions.findIdxs fun t => t.control?.isSome).map fun i => ⟨c.path, i⟩

namespace LiveTree

/-- The labelled transitions of all running machines, from the outermost machine on. -/
def labelled (t : LiveTree) : List Candidate := t.outermostFirst.flatMap Context.labelled

theorem mem_labelled_iff (t : LiveTree) (a : Candidate) : a ∈ t.labelled ↔ a.Labelled t := by
  simp only [labelled, Context.labelled, List.mem_flatMap, List.mem_map, mem_outermostFirst_iff,
    List.mem_findIdxs_iff_exists_getElem_pos, Transition.control?, Option.isSome_map]
  constructor
  · rintro ⟨c, hc, i, ⟨hlt, hlabel⟩, rfl⟩
    have hruns := (mem_walk_iff t c).1 hc
    exact ⟨c, _, ⟨hruns, rfl, List.getElem?_eq_getElem hlt⟩, Option.isSome_iff_ne_none.1 hlabel⟩
  · rintro ⟨c, transition, hstands, hlabel⟩
    obtain ⟨hlt, rfl⟩ := List.getElem?_eq_some_iff.1 hstands.transition
    refine ⟨c, hstands.mem_walk, a.position, ⟨hlt, Option.isSome_iff_ne_none.2 hlabel⟩, ?_⟩
    rw [hstands.path]

/-- No candidate is listed twice: machines have different paths, and the transitions of one machine different
positions. -/
theorem nodup_labelled (t : LiveTree) : t.labelled.Nodup := by
  rw [labelled, List.nodup_flatMap]
  constructor
  · intro c _
    apply List.Nodup.map
    · intro i j heq
      exact congrArg Candidate.position heq
    · exact List.nodup_findIdxs
  · refine t.outermostFirst_ordered.imp ?_
    intro c d hcd a hc hd
    obtain ⟨i, -, rfl⟩ := List.mem_map.1 hc
    obtain ⟨j, -, heq⟩ := List.mem_map.1 hd
    have hpath : d.path = c.path := congrArg Candidate.path heq
    rcases hcd with hlt | ⟨-, hsub⟩
    · rw [hpath] at hlt
      exact Nat.lt_irrefl _ hlt
    · have hlt := path_lt_of_sublist hsub
      rw [hpath] at hlt
      exact List.lt_irrefl _ hlt

/-- The controls of the running machines tell of the candidates that are listed, one by one. -/
theorem labelled_toldBy (t : LiveTree) :
    List.Forall₂ (fun a control => a.ToldBy t control) t.labelled
      (((t.outermostFirst.map fun c => c.tree.currentState).flatMap (·.transitions)).filterMap
        Transition.control?) := by
  have hsame : List.Forall₂ (fun c d => c = d ∧ c ∈ t.outermostFirst) t.outermostFirst t.outermostFirst :=
    List.forall₂_same.2 fun c hc => ⟨rfl, hc⟩
  rw [labelled, List.flatMap_map, List.filterMap_flatMap]
  refine List.rel_flatMap hsame ?_
  rintro c _ ⟨rfl, hc⟩
  have hruns := (mem_walk_iff t c).1 ((mem_outermostFirst_iff t c).1 hc)
  rw [Context.labelled, List.forall₂_map_left_iff]
  refine (forall₂_findIdxs_filterMap Transition.control? c.tree.currentState.transitions).imp ?_
  rintro i control ⟨transition, hi, htells⟩
  exact ⟨c, transition, ⟨hruns, rfl, hi⟩, (transition.control?_eq_some_iff control).1 htells⟩

end LiveTree

/-! ## Who displays -/

theorem HintMode.isInherit_iff (mode : HintMode) : mode.isInherit = true ↔ mode = .inherit := by
  cases mode with
  | inherit => simp [isInherit]
  | hidden => simp [isInherit]
  | shown hint => simp [isInherit]

namespace LiveTree

/-- The machine whose current state decides what is displayed. The state does not inherit, and any other
machine with such a state is less deep, or as deep and earlier in the walk. -/
structure Displays (t : LiveTree) (c : Context) : Prop where
  runs : c ∈ t.walk
  decides : c.tree.currentState.hintMode ≠ .inherit
  innermost : ∀ d ∈ t.walk, d.tree.currentState.hintMode ≠ .inherit → d ≠ c →
    d.path.length < c.path.length ∨ d.path.length = c.path.length ∧ [d, c].Sublist t.walk

/-- At most one machine decides. -/
theorem Displays.unique {t : LiveTree} {c d : Context} (hc : t.Displays c) (hd : t.Displays d) : d = c := by
  by_contra hne
  have hdc := hc.innermost d hd.runs hd.decides hne
  have hcd := hd.innermost c hc.runs hc.decides (Ne.symm hne)
  exact hne (eq_of_ordered hdc hcd)

/-- Of the machines from the outermost on, the last one decides whose state does not inherit. -/
theorem displays_of_split {t : LiveTree} {c : Context} {earlier later : List Context}
    (hsplit : t.outermostFirst = earlier ++ c :: later)
    (hdecides : c.tree.currentState.hintMode ≠ .inherit)
    (hlater : ∀ d ∈ later, d.tree.currentState.hintMode = .inherit) : t.Displays c := by
  have hmem : c ∈ t.outermostFirst := by simp [hsplit]
  refine ⟨(mem_outermostFirst_iff t c).1 hmem, hdecides, ?_⟩
  intro d hd hother hne
  have hordered := t.outermostFirst_ordered
  rw [← mem_outermostFirst_iff, hsplit] at hd
  rw [hsplit, List.pairwise_append] at hordered
  rcases List.mem_append.1 hd with hbefore | hd
  · exact hordered.2.2 d hbefore c List.mem_cons_self
  · rcases List.mem_cons.1 hd with rfl | hafter
    · exact absurd rfl hne
    · exact absurd (hlater d hafter) hother

theorem exists_displays_of_decidingMode? {t : LiveTree} {mode : HintMode}
    (h : View.decidingMode? (t.outermostFirst.map fun c => c.tree.currentState) = some mode) :
    ∃ c, t.Displays c ∧ c.tree.currentState.hintMode = mode := by
  rw [View.decidingMode?, ← List.map_reverse, List.map_map, List.find?_map] at h
  obtain ⟨c, hfind, rfl⟩ := Option.map_eq_some_iff.1 h
  obtain ⟨hc, later, earlier, hsplit, hlater⟩ := List.find?_eq_some_iff_append.1 hfind
  have hsplit : t.outermostFirst = earlier.reverse ++ c :: later.reverse := by
    simpa using congrArg List.reverse hsplit
  refine ⟨c, displays_of_split hsplit ?_ ?_, rfl⟩
  · intro hinherit
    simp [hinherit, HintMode.isInherit] at hc
  · intro d hd
    have hd := hlater d (List.mem_reverse.1 hd)
    simpa [HintMode.isInherit_iff] using hd

/-- The mode that decides is the one of the machine that displays. -/
theorem decidingMode?_eq_some_iff (t : LiveTree) (mode : HintMode) :
    View.decidingMode? (t.outermostFirst.map fun c => c.tree.currentState) = some mode ↔
      ∃ c, t.Displays c ∧ c.tree.currentState.hintMode = mode := by
  constructor
  · exact exists_displays_of_decidingMode?
  · rintro ⟨c, hc, rfl⟩
    cases hmode : View.decidingMode? (t.outermostFirst.map fun c => c.tree.currentState) with
    | none =>
        have hmem := (mem_outermostFirst_iff t c).2 hc.runs
        have hinherit : c.tree.currentState.hintMode.isInherit = true := by
          simp only [View.decidingMode?, List.find?_eq_none, List.mem_map, List.mem_reverse] at hmode
          simpa using hmode _ ⟨_, ⟨c, hmem, rfl⟩, rfl⟩
        exact absurd ((HintMode.isInherit_iff _).1 hinherit) hc.decides
    | some mode =>
        obtain ⟨d, hd, rfl⟩ := exists_displays_of_decidingMode? hmode
        rw [hc.unique hd]

end LiveTree

/-- A panel that is hidden lists no controls, and any other lists those of all labelled transitions. -/
theorem View.project_cases {μ : Type} (states : List (State Transition μ)) :
    decidingMode? states = some .hidden ∧ project states = empty ∨
      decidingMode? states ≠ some .hidden ∧
        (project states).controls = (states.flatMap (·.transitions)).filterMap Transition.control? := by
  rw [project]
  cases hmode : decidingMode? states with
  | none => exact Or.inr ⟨by simp, rfl⟩
  | some mode =>
      cases mode with
      | inherit => exact Or.inr ⟨by simp, rfl⟩
      | hidden => exact Or.inl ⟨rfl, rfl⟩
      | shown hint => exact Or.inr ⟨by simp, rfl⟩

namespace Session

open Candidate

variable {σ : Type u} {root : Machine} {s : Session σ}

/-- A view is empty if the machine that displays hides the panel. Otherwise its controls tell of the labelled
transitions, one by one. -/
theorem controls_viewOf (t : LiveTree) :
    (∃ c, t.Displays c ∧ c.tree.currentState.hintMode = .hidden) ∧ viewOf t = .empty ∨
      (¬ ∃ c, t.Displays c ∧ c.tree.currentState.hintMode = .hidden) ∧
        List.Forall₂ (fun a control => a.ToldBy t control) t.labelled (viewOf t).controls := by
  have hiff := t.decidingMode?_eq_some_iff .hidden
  rcases View.project_cases (t.outermostFirst.map fun c => c.tree.currentState) with
    ⟨hhidden, hempty⟩ | ⟨hshown, hcontrols⟩
  · exact Or.inl ⟨hiff.1 hhidden, hempty⟩
  · refine Or.inr ⟨fun hdisplays => hshown (hiff.2 hdisplays), ?_⟩
    rw [viewOf, hcontrols]
    exact t.labelled_toldBy

/-! ## What is taken -/

/-- A dispatch takes the first candidate for its stimulus: the transition acts, and the outcome tells of it. -/
def Takes (s : Session σ) (now : Instant) (x : Stimulus) (a : Candidate) : Prop :=
  a.IsFirst s.tree x ∧ ∃ c t, a.Stands s.tree c t ∧
    s.dispatch now x = ((s.act now x c t).1, (s.act now x c t).2.present) ∧
    (s.dispatch now x).1 = c.outcome t

theorem outcome_ne_dropped (c : Context) (t : Transition) : c.outcome t ≠ .dropped := by
  rw [Context.outcome]
  cases t.kind with
  | action name also => simp
  | arrow target also => simp

/-- What a candidate waits for is taken by this candidate or by one that precedes it. -/
theorem Running.takes_of_waits (hroot : root.WellFormed) (h : Running root s) {a : Candidate} {x : Stimulus}
    (ha : a.Waits s.tree x) (now : Instant) :
    (s.dispatch now x).1 ≠ .dropped ∧ ∃ b, s.Takes now x b ∧ (b = a ∨ b.Precedes a) := by
  cases hselect : select? s.tree x with
  | none => exact absurd ⟨a, ha⟩ ((select?_eq_none_iff_waits s.tree x).1 hselect)
  | some found =>
      obtain ⟨c, t⟩ := found
      obtain ⟨b, hstands, hfirst⟩ := isFirst_of_select? hselect
      obtain ⟨hact, houtcome⟩ := h.dispatch_of_select? hroot hselect now
      refine ⟨?_, b, ⟨hfirst, c, t, hstands, hact, houtcome⟩, ?_⟩
      · rw [houtcome]
        exact outcome_ne_dropped c t
      · by_cases heq : a = b
        · exact Or.inl heq.symm
        · exact Or.inr (hfirst.precedes a ha heq)

/-! ## The panel and dispatch -/

/-- Whatever control the panel lists, it tells of a labelled transition of a running machine, and dispatching
any of the patterns whose texts it gives is not dropped: this transition is taken or one that precedes it.
Unless the machine that displays hides the panel, every labelled transition of every running machine is listed
exactly once. -/
theorem controls_agree (hroot : root.Validated) (registry : Registry σ) (config : Config) (host : σ)
    (calls : List Call) :
    let s := (start root registry config host).run calls
    (∀ control ∈ s.view.controls, ∃ (a : Candidate) (c : Context) (t : Transition),
      a.Stands s.tree c t ∧ control.Tells t ∧ ∀ x ∈ t.stimuli, ∀ now,
        (s.dispatch now x).1 ≠ .dropped ∧ ∃ b, s.Takes now x b ∧ (b = a ∨ b.Precedes a)) ∧
      ((¬ ∃ c, s.tree.Displays c ∧ c.tree.currentState.hintMode = .hidden) →
        ∃ listed : List Candidate, listed.Nodup ∧ (∀ a, a ∈ listed ↔ a.Labelled s.tree) ∧
          List.Forall₂ (fun a control => a.ToldBy s.tree control) listed s.view.controls) := by
  intro s
  have hwf := Machine.wellFormed_of_validated hroot
  have hrun : Running root s := running_run hwf registry config host calls
  have hview : s.view = viewOf s.tree := (shows_iff s.tree s.view).1 (shows_run (shows_viewOf _) calls)
  rw [hview]
  rcases controls_viewOf s.tree with ⟨hhidden, hempty⟩ | ⟨-, htold⟩
  · refine ⟨?_, fun hshown => absurd hhidden hshown⟩
    intro control hcontrol
    rw [hempty] at hcontrol
    exact absurd hcontrol List.not_mem_nil
  · refine ⟨?_, fun _ => ⟨s.tree.labelled, s.tree.nodup_labelled, s.tree.mem_labelled_iff, htold⟩⟩
    intro control hcontrol
    obtain ⟨a, -, c, t, hstands, htells⟩ := exists_of_mem_right htold hcontrol
    refine ⟨a, c, t, hstands, htells, ?_⟩
    intro x hx now
    have hmatch : t.matchesStimulus x = true := List.any_eq_true.2 ⟨x, hx, x.matchesStimulus_self⟩
    exact hrun.takes_of_waits hwf ⟨c, t, hstands, hmatch⟩ now

/-- A desk that counts ticks and can be cleared, with a control for each. A machine on it hears ticks too. -/
def counter (inner : Machine) : MachineDraft :=
  ⟨"desk", some "lit", [
    ⟨"lit", [], [], [
      ⟨.action "count" [], ["tick"], ⟨some ⟨"Desk", "Count"⟩, none⟩⟩,
      ⟨.arrow "lit" [], ["clear"], ⟨some ⟨"Desk", "Clear"⟩, none⟩⟩], [inner], .inherit, none⟩], 16⟩

/-- On a desk with a light that blinks both controls are listed, each once. A tick, which the first one offers,
is taken by the light, since it is deeper. -/
theorem controls_agree_counter :
    ∃ inner root, MachineDraft.blinker.build = .ok inner ∧ (counter inner).build = .ok root ∧
      let s := (start root (.empty : Registry Unit) {} ()).run []
      let count : Control := ⟨⟨"Desk", "Count"⟩, none, ["tick"]⟩
      let clear : Control := ⟨⟨"Desk", "Clear"⟩, none, ["clear"]⟩
      s.view.controls = [count, clear] ∧
        (∀ control ∈ s.view.controls, ∃ (a : Candidate) (c : Context) (t : Transition),
          a.Stands s.tree c t ∧ control.Tells t ∧ ∀ x ∈ t.stimuli, ∀ now, (s.dispatch now x).1 ≠ .dropped) ∧
        (∀ now, (s.dispatch now (.command "tick")).1 = .moved "blinker" "light" "dark") ∧
        ∃ listed : List Candidate, listed.Nodup ∧ listed.length = 2 ∧ ∀ a, a ∈ listed ↔ a.Labelled s.tree := by
  have hvalid : ∀ inner root, MachineDraft.blinker.build = .ok inner → (counter inner).build = .ok root →
      root.Validated := by
    intro inner root hinner hroot
    have hinner : inner.Validated := .built (by simp [MachineDraft.blinker]) hinner
    exact .built (by simpa [counter] using hinner) hroot
  refine ⟨_, _, rfl, rfl, ?_⟩
  intro s count clear
  have hcontrols : s.view.controls = [count, clear] := by decide +kernel
  have hshown : ¬ ∃ c, s.tree.Displays c ∧ c.tree.currentState.hintMode = .hidden := by
    rw [← LiveTree.decidingMode?_eq_some_iff]
    decide +kernel
  obtain ⟨htaken, hlisted⟩ := controls_agree (hvalid _ _ rfl rfl) (.empty : Registry Unit) {} () []
  obtain ⟨listed, hnodup, hall, htold⟩ := hlisted hshown
  refine ⟨hcontrols, ?_, fun now => rfl, listed, hnodup, ?_, hall⟩
  · intro control hcontrol
    obtain ⟨a, c, t, hstands, htells, htakes⟩ := htaken control hcontrol
    exact ⟨a, c, t, hstands, htells, fun x hx now => (htakes x hx now).1⟩
  · rw [htold.length_eq]
    exact congrArg List.length hcontrols

end Session

end ModeTree
