/-!
# Hints

What a state says about the hint panel, what a transition says about the control that triggers it,
and the view that the panel shows.
-/

namespace ModeTree

/-- A control is labelled by a category and an action. -/
structure Label where
  category : String
  action : String
  deriving DecidableEq, Repr

/-- A label and a line of help, each of which may be missing. -/
structure Hint where
  label : Option Label
  helpText : Option String
  deriving DecidableEq, Repr

namespace Hint

/-- The hint that says nothing. -/
def empty : Hint := ⟨none, none⟩

/-- Whether a hint says nothing. -/
def isEmpty (h : Hint) : Bool := h.label.isNone && h.helpText.isNone

end Hint

/-- What a state does to the panel: nothing, hiding it, or showing a hint of its own. -/
inductive HintMode where
  | inherit
  | hidden
  | shown (hint : Hint)
  deriving DecidableEq, Repr

/-- Whether a state leaves the panel as it is. -/
def HintMode.isInherit : HintMode → Bool
  | inherit => true
  | _ => false

/-- A control in the panel: its label, and the stimuli that trigger it. -/
structure Control where
  label : Label
  helpText : Option String
  stimuli : List String
  deriving DecidableEq, Repr

/-- What the panel shows. -/
structure View where
  label : Option Label
  helpText : Option String
  description : Option String
  controls : List Control
  deriving DecidableEq, Repr

namespace View

/-- The view that shows nothing. -/
def empty : View := ⟨none, none, none, []⟩

/-- Whether there is nothing to show. -/
def isEmpty (v : View) : Bool :=
  v.label.isNone && v.helpText.isNone && v.description.isNone && v.controls.isEmpty

end View

end ModeTree
