import ModeTree.Hint.Basic
import ModeTree.Json.Record

/-!
# Hints in JSON

A label is an array of two strings. Hints leave out what they lack, and views write it as `null`.
-/

namespace ModeTree

/-- A field that is written only when there is a value. -/
def Json.present {α : Type} (field : String) (encode : α → Json) : Option α → List (String × Json)
  | none => []
  | some a => [(field, encode a)]

namespace Label

/-- A label in JSON: its category and its action. -/
def toJson (l : Label) : Json := .texts [l.category, l.action]

/-- Reads a label. -/
def ofJson? : Json → Option Label
  | .arr [c, a] => do return ⟨← c.string?, ← a.string?⟩
  | _ => none

end Label

namespace Hint

/-- A hint in JSON. -/
def toJson (h : Hint) : Json :=
  .record (Json.present "label" Label.toJson h.label ++ Json.present "help_text" Json.text h.helpText)

/-- Reads a hint; keys that are no fields of it are skipped. -/
def ofJson? (v : Json) : Option Hint := do
  let row ← v.row? ["label", "help_text"] false
  return {
    label := ← row.defaulted "label" (Json.nullable? Label.ofJson?) none
    helpText := ← row.defaulted "help_text" (Json.nullable? Json.string?) none }

end Hint

namespace HintMode

/-- A mode in JSON: its name, with the hint if it shows one. -/
def toJson : HintMode → Json
  | inherit => .text "inherit"
  | hidden => .text "none"
  | shown hint => .record [("show", hint.toJson)]

/-- Reads a mode. -/
def ofJson? (v : Json) : Option HintMode := do
  let (name, payload) ← v.choice?
  match name, payload with
  | "inherit", p => if Json.isBareChoice p then some inherit else none
  | "none", p => if Json.isBareChoice p then some hidden else none
  | "show", some body => (Hint.ofJson? body).map shown
  | _, _ => none

end HintMode

namespace Control

/-- A control in JSON. -/
def toJson (c : Control) : Json :=
  .record [("label", c.label.toJson), ("help_text", .nullable .text c.helpText),
    ("stimuli", .texts c.stimuli)]

/-- Reads a control. -/
def ofJson? (v : Json) : Option Control := do
  let row ← v.row? ["label", "help_text", "stimuli"] false
  return {
    label := ← row.required "label" Label.ofJson?
    helpText := ← row.optional "help_text" Json.string?
    stimuli := ← row.required "stimuli" (Json.list? Json.string?) }

end Control

namespace View

/-- A view in JSON. -/
def toJson (v : View) : Json :=
  .record [("label", .nullable Label.toJson v.label), ("help_text", .nullable .text v.helpText),
    ("description", .nullable .text v.description), ("controls", .arr (v.controls.map Control.toJson))]

/-- Reads a view. -/
def ofJson? (v : Json) : Option View := do
  let row ← v.row? ["label", "help_text", "description", "controls"] false
  return {
    label := ← row.optional "label" Label.ofJson?
    helpText := ← row.optional "help_text" Json.string?
    description := ← row.optional "description" Json.string?
    controls := ← row.required "controls" (Json.list? Control.ofJson?) }

end View

end ModeTree
