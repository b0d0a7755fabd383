import ModeTree.Hint.Projection

/-!
# Surveying the active states

The view of a list of states is put together by looking for the mode and for the description from the
innermost state outwards, and for the controls from the outermost state inwards. A survey gathers all of it in
one pass, from the outermost state inwards: what a state says of the mode or the description takes the place
of what has been gathered, and its labelled transitions are added to the controls. Both come to the same view
(`project_surveys`).
-/

set_option autoImplicit false

namespace ModeTree

/-- What has been gathered from the outer states. -/
structure Survey where
  mode : HintMode
  description : Option String
  controls : List Control

namespace Survey

variable {μ : Type}

/-- Nothing has been gathered. -/
def blank : Survey := ⟨.inherit, none, []⟩

/-- Adds a transition to the controls if it has a label. -/
def note (s : Survey) (t : Transition) : Survey :=
  match t.hint.label with
  | none => s
  | some label =>
    { s with controls := s.controls ++ [⟨label, t.hint.helpText, t.stimuli.map Stimulus.text⟩] }

/-- Takes the mode of a state unless it inherits. -/
def takeMode (s : Survey) : HintMode → Survey
  | .inherit => s
  | .hidden => { s with mode := .hidden }
  | .shown hint => { s with mode := .shown hint }

/-- Takes the description of a state if there is one. -/
def takeDescription (s : Survey) : Option String → Survey
  | none => s
  | some text => { s with description := some text }

/-- Goes on to the next state inwards. -/
def visit (s : Survey) (state : State Transition μ) : Survey :=
  state.transitions.foldl note ((s.takeMode state.hintMode).takeDescription state.description)

/-- Surveys a list of states, outermost first. -/
def ofStates (states : List (State Transition μ)) : Survey := states.foldl visit blank

/-- The view of what has been gathered. -/
def view (s : Survey) : View :=
  match s.mode with
  | .hidden => .empty
  | .shown hint => ⟨hint.label, hint.helpText, s.description, s.controls⟩
  | .inherit => ⟨none, none, s.description, s.controls⟩

/-! ## One state -/

theorem foldl_note (s : Survey) (ts : List Transition) :
    ts.foldl note s = { s with controls := s.controls ++ ts.filterMap Transition.control? } := by
  induction ts generalizing s with
  | nil => simp
  | cons t ts ih =>
      rw [List.foldl_cons, ih, note, List.filterMap_cons, Transition.control?]
      cases t.hint.label with
      | none => rfl
      | some label => simp

theorem mode_takeMode (s : Survey) (mode : HintMode) :
    (s.takeMode mode).mode = if mode.isInherit then s.mode else mode := by
  cases mode with
  | inherit | hidden | shown => rfl

theorem visit_eq (s : Survey) (state : State Transition μ) :
    s.visit state =
      ⟨if state.hintMode.isInherit then s.mode else state.hintMode, state.description.or s.description,
        s.controls ++ state.transitions.filterMap Transition.control?⟩ := by
  rw [visit, foldl_note, ← mode_takeMode]
  cases state.description with
  | none =>
      cases state.hintMode with
      | inherit | hidden | shown => rfl
  | some text =>
      cases state.hintMode with
      | inherit | hidden | shown => rfl

/-- A state that inherits and has neither a description nor a labelled transition adds nothing. -/
theorem visit_eq_self {state : State Transition μ} (hmode : state.hintMode = .inherit)
    (hdescription : state.description = none) (hlabels : ∀ t ∈ state.transitions, t.hint.label = none)
    (s : Survey) : s.visit state = s := by
  have hnone : state.transitions.filterMap Transition.control? = [] := by
    rw [List.filterMap_eq_nil_iff]
    intro t ht
    rw [Transition.control?, hlabels t ht, Option.map_none]
  rw [visit_eq, hmode, hdescription, hnone, List.append_nil]
  rfl

/-! ## All states -/

/-- The states inwards of one are surveyed from what has been gathered with it. -/
theorem ofStates_append_cons (outer : List (State Transition μ)) (state : State Transition μ)
    (inner : List (State Transition μ)) :
    ofStates (outer ++ state :: inner) = inner.foldl visit ((ofStates outer).visit state) := by
  rw [ofStates, ofStates, List.foldl_append, List.foldl_cons]

theorem decidingMode?_cons (state : State Transition μ) (states : List (State Transition μ)) :
    View.decidingMode? (state :: states) =
      (View.decidingMode? states).or (if state.hintMode.isInherit then none else some state.hintMode) := by
  rw [View.decidingMode?, View.decidingMode?, List.reverse_cons, List.map_append, List.find?_append,
    List.map_singleton, List.find?_singleton]
  cases state.hintMode.isInherit with
  | true => rfl
  | false => rfl

/-- What a survey has gathered at the end: what the innermost states say, and the controls of all. -/
theorem foldl_visit (s : Survey) (states : List (State Transition μ)) :
    states.foldl visit s =
      ⟨(View.decidingMode? states).getD s.mode,
        (states.reverse.findSome? (·.description)).or s.description,
        s.controls ++ (states.flatMap (·.transitions)).filterMap Transition.control?⟩ := by
  induction states generalizing s with
  | nil => simp [View.decidingMode?]
  | cons state states ih =>
      rw [List.foldl_cons, ih, visit_eq, decidingMode?_cons, List.reverse_cons, List.findSome?_append,
        List.flatMap_cons, List.filterMap_append, List.append_assoc, Option.or_assoc]
      congr 1
      · cases View.decidingMode? states with
        | some mode => rfl
        | none =>
            cases state.hintMode with
            | inherit | hidden | shown => rfl
      · cases hdescription : state.description with
        | none => simp [hdescription]
        | some text => simp [hdescription]

theorem project_eq_view (states : List (State Transition μ)) : View.project states = (ofStates states).view := by
  rw [ofStates, foldl_visit, View.project, view]
  cases View.decidingMode? states with
  | none => simp [blank]
  | some mode =>
      cases mode with
      | inherit | hidden | shown => simp [blank]

theorem decidingMode?_ne_none {states : List (State Transition μ)} {state : State Transition μ}
    (hstate : state ∈ states) (hdecides : state.hintMode.isInherit = false) :
    View.decidingMode? states ≠ none := by
  intro hnone
  rw [View.decidingMode?, List.find?_eq_none] at hnone
  have hmem : state.hintMode ∈ states.reverse.map (·.hintMode) :=
    List.mem_map_of_mem (List.mem_reverse.2 hstate)
  exact hnone state.hintMode hmem (by rw [hdecides]; rfl)

/-- The mode that has been gathered has no effect when a state further inwards does not inherit. -/
theorem foldl_visit_of_decides {s s' : Survey} (hdescription : s'.description = s.description)
    (hcontrols : s'.controls = s.controls) {states : List (State Transition μ)}
    {state : State Transition μ} (hstate : state ∈ states) (hdecides : state.hintMode.isInherit = false) :
    states.foldl visit s' = states.foldl visit s := by
  obtain ⟨mode, hmode⟩ := Option.ne_none_iff_exists'.1 (decidingMode?_ne_none hstate hdecides)
  rw [foldl_visit, foldl_visit, hmode, hdescription, hcontrols]
  rfl

theorem mode_foldl_ne_hidden {s : Survey} (hs : s.mode ≠ .hidden) {states : List (State Transition μ)}
    (hstates : ∀ state ∈ states, state.hintMode ≠ .hidden) : (states.foldl visit s).mode ≠ .hidden := by
  induction states generalizing s with
  | nil => exact hs
  | cons state states ih =>
      obtain ⟨hstate, hrest⟩ := List.forall_mem_cons.1 hstates
      apply ih ?_ hrest
      rw [visit_eq]
      split
      · exact hs
      · exact hstate

/-- Unless the panel is hidden the view has all that has been gathered. -/
theorem view_of_mode_ne_hidden {s : Survey} (h : s.mode ≠ .hidden) :
    s.view.description = s.description ∧ s.view.controls = s.controls := by
  rw [view]
  cases hmode : s.mode with
  | hidden => exact absurd hmode h
  | inherit | shown => exact ⟨rfl, rfl⟩

/-- The view of a list of states is that of their survey. So a state that inherits and has neither a
description nor a labelled transition may stand anywhere in the list without any effect. A state that hides the
panel does nothing of the kind when one further inwards shows a hint; and if none further inwards than this one
hides the panel again, the view has the description and the controls that all states together give. -/
theorem project_surveys (states : List (State Transition μ)) :
    View.project states = (ofStates states).view ∧
      (∀ outer inner quiet, states = outer ++ quiet :: inner → quiet.hintMode = .inherit →
        quiet.description = none → (∀ t ∈ quiet.transitions, t.hint.label = none) →
          View.project states = View.project (outer ++ inner)) ∧
      (∀ outer silent between shown inner hint,
        states = outer ++ silent :: (between ++ shown :: inner) → silent.hintMode = .hidden →
        shown.hintMode = .shown hint →
          View.project states =
              View.project (outer ++ { silent with hintMode := .inherit } :: (between ++ shown :: inner)) ∧
            ((∀ state ∈ inner, state.hintMode ≠ .hidden) →
              (View.project states).description = (ofStates states).description ∧
                (View.project states).controls = (ofStates states).controls)) := by
  refine ⟨project_eq_view states, ?_, ?_⟩
  · rintro outer inner quiet rfl hmode hdescription hlabels
    rw [project_eq_view, project_eq_view, ofStates_append_cons, visit_eq_self hmode hdescription hlabels,
      ofStates, ofStates, List.foldl_append]
  · rintro outer silent between shown inner hint rfl hsilent hshown
    have hdecides : shown.hintMode.isInherit = false := by
      rw [hshown]
      rfl
    refine ⟨?_, ?_⟩
    · -- the two surveys differ in the mode until the state that shows a hint is visited
      rw [project_eq_view, project_eq_view, ofStates_append_cons, ofStates_append_cons]
      apply congrArg view
      apply foldl_visit_of_decides ?_ ?_ (List.mem_append_right _ List.mem_cons_self) hdecides
      · rw [visit_eq, visit_eq]
      · rw [visit_eq, visit_eq]
    · intro hinner
      rw [project_eq_view]
      apply view_of_mode_ne_hidden
      rw [ofStates_append_cons, List.foldl_append, List.foldl_cons]
      apply mode_foldl_ne_hidden ?_ hinner
      rw [visit_eq, hshown]
      exact HintMode.noConfusion

/-- A state with a control, a state in it that hides the panel, and one further in that shows a hint: the
description and the control are back, whether or not a state that says nothing stands in between. -/
theorem project_surveys_zoom :
    let zoom : Transition := ⟨.action "zoom" [], [.key "Z" .down], ⟨some ⟨"View", "Zoom"⟩, none⟩, none⟩
    let edit : State Transition Machine := ⟨"edit", [], [], [zoom], [], .inherit, some "Edit the ring"⟩
    let silent : State Transition Machine := ⟨"zoom", [], [], [], [], .hidden, none⟩
    let shown : State Transition Machine := ⟨"stop", [], [], [], [], .shown ⟨none, some "Release"⟩, none⟩
    View.project [edit, silent] = .empty ∧
      View.project [edit, silent, .named "wait", shown] = View.project [edit, silent, shown] ∧
      (View.project [edit, silent, shown]).description = some "Edit the ring" ∧
      (View.project [edit, silent, shown]).controls = [⟨⟨"View", "Zoom"⟩, none, ["z:down"]⟩] := by
  intro zoom edit silent shown
  obtain ⟨hsilent, -, -⟩ := project_surveys [edit, silent]
  obtain ⟨-, hquiet, -⟩ := project_surveys [edit, silent, .named "wait", shown]
  obtain ⟨-, -, hshown⟩ := project_surveys [edit, silent, shown]
  have hwait := hquiet [edit, silent] [shown] (.named "wait") rfl rfl rfl (by simp [State.named])
  obtain ⟨-, hall⟩ := hshown [edit] silent [] shown [] ⟨none, some "Release"⟩ rfl rfl rfl
  obtain ⟨hdescription, hcontrols⟩ := hall (by simp)
  exact ⟨hsilent, hwait, hdescription, hcontrols.trans (by decide +kernel)⟩

end Survey

end ModeTree
