import ModeTree.Session.Basic
import ModeTree.Text.Split

/-!
# Inspecting sessions

A one-line text of a session for diagnostics.
-/

namespace ModeTree

universe u

namespace Inspection

/-- A text between quotes. -/
def quoted (s : String) : String :=
  let escape (c : Char) : List Char :=
    match c with
    | '"' => ['\\', '"']
    | '\\' => ['\\', '\\']
    | '\t' => ['\\', 't']
    | '\n' => ['\\', 'n']
    | '\x0d' => ['\\', 'r']
    | c => [c]
  String.ofList ('"' :: s.toList.flatMap escape ++ ['"'])

/-- Parts between brackets. -/
def listed (parts : List String) : String := "[" ++ Text.joinWith ", " parts ++ "]"

/-- A name with its fields. -/
def fields (name : String) (parts : List (String × String)) : String :=
  name ++ " \x7b " ++ Text.joinWith ", " (parts.map fun p => p.1 ++ ": " ++ p.2) ++ " \x7d"

/-- A part that may be missing. -/
def optional : Option String → String
  | none => "None"
  | some s => "Some(" ++ s ++ ")"

/-- The text of a label. -/
def label (l : Label) : String := "(" ++ quoted l.category ++ ", " ++ quoted l.action ++ ")"

/-- The text of a control. -/
def control (c : Control) : String :=
  fields "ControlHint" [("label", label c.label), ("help_text", optional (c.helpText.map quoted)),
    ("stimuli", listed (c.stimuli.map quoted))]

/-- The text of a view. -/
def view (v : View) : String :=
  fields "HintView" [("label", optional (v.label.map label)),
    ("help_text", optional (v.helpText.map quoted)),
    ("description", optional (v.description.map quoted)),
    ("controls", listed (v.controls.map control))]

/-- The text of an active state. -/
def activeState (a : ActiveState) : String :=
  fields "ActiveState" [("depth", toString a.depth), ("machine", quoted a.machine),
    ("state", quoted a.state)]

end Inspection

/-- The names in a registry, for diagnostics. -/
def Registry.inspect {σ : Type u} (r : Registry σ) : String :=
  Inspection.fields "ActionRegistry" [("actions", Inspection.listed (r.names.map Inspection.quoted))]

/-- A session with its active states, registry, number of changes, view, and whether it has a panel. -/
def Session.inspect {σ : Type u} (s : Session σ) : String :=
  Inspection.fields "Interpreter" [
    ("active", Inspection.listed (s.activeStates.map Inspection.activeState)),
    ("registry", s.registry.inspect),
    ("history", toString s.history.size),
    ("hint", Inspection.view s.view),
    ("sink", if s.shown.isSome then "true" else "false")]

end ModeTree
