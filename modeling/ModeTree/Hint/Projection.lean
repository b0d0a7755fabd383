import ModeTree.Machine.Basic

/-!
# Projecting hints

The view of a list of active states, outermost first. The innermost state that hides the panel or
shows a hint decides; the innermost description counts; and the labelled transitions of all states are
listed as controls.
-/

namespace ModeTree

/-- The control of a transition that has a label. -/
def Transition.control? (t : Transition) : Option Control :=
  t.hint.label.map fun label => ⟨label, t.hint.helpText, t.stimuli.map Stimulus.text⟩

namespace View

variable {μ : Type}

/-- The innermost mode that does not inherit. -/
def decidingMode? (states : List (State Transition μ)) : Option HintMode :=
  (states.reverse.map (·.hintMode)).find? fun mode => !mode.isInherit

/-- The view of a list of states, outermost first. -/
def project (states : List (State Transition μ)) : View :=
  let description := states.reverse.findSome? (·.description)
  let controls := (states.flatMap (·.transitions)).filterMap Transition.control?
  match decidingMode? states with
  -- a hidden panel shows no controls either
  | some .hidden => empty
  | some (.shown hint) => ⟨hint.label, hint.helpText, description, controls⟩
  | some .inherit | none => ⟨none, none, description, controls⟩

end View

end ModeTree
