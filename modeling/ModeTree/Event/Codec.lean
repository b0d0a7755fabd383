import ModeTree.Event.Basic
import ModeTree.Json.Record

/-!
# Events in JSON
-/

namespace ModeTree

/-- Reads a set of modifiers; each of them has to be given. -/
def Modifiers.ofJson? (v : Json) : Option Modifiers := do
  let row ← v.row? ["ctrl", "shift", "alt", "meta"] false
  return {
    ctrl := ← row.required "ctrl" Json.bool?
    shift := ← row.required "shift" Json.bool?
    alt := ← row.required "alt" Json.bool?
    metaKey := ← row.required "meta" Json.bool? }

/-- Buttons are numbered by a byte. -/
def RawInput.ofJson? (v : Json) : Option RawInput := do
  let (name, payload) ← v.choice?
  match name, payload with
  | "Button", some body => do
    let row ← body.row? ["button", "pressed"] false
    return .button (← row.required "button" (Json.natBelow? 256)) (← row.required "pressed" Json.bool?)
  | "Move", p => if Json.isBareChoice p then some .move else none
  | "DoubleClick", p => if Json.isBareChoice p then some .doubleClick else none
  | "Wheel", some body => do
    let row ← body.row? ["delta_y"] false
    return .wheel (← row.required "delta_y" Json.float?)
  | "Key", some body => do
    let row ← body.row? ["key", "pressed"] false
    return .key (← row.required "key" Json.string?) (← row.required "pressed" Json.bool?)
  | "Command", some body => body.string?.map .command
  | _, _ => none

/-- Events without modifiers may leave them out. -/
def Event.ofJson? (v : Json) : Option Event := do
  let row ← v.row? ["input", "modifiers"] false
  return {
    input := ← row.required "input" RawInput.ofJson?
    held := ← row.defaulted "modifiers" Modifiers.ofJson? .none }

/-- Reads what a hit test found. -/
def Hit.ofJson? (v : Json) : Option Hit := do
  let (name, payload) ← v.choice?
  if !Json.isBareChoice payload then none else
  match name with
  | "Vertex" => some .vertex
  | "Segment" => some .segment
  | "Ring" => some .ring
  | "Background" => some .background
  | "LeftEntity" => some .leftEntity
  | _ => none

end ModeTree
