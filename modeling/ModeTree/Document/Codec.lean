import ModeTree.Document.Basic
import ModeTree.Hint.Codec

/-!
# Documents in JSON

Unknown keys are refused in documents, machines, states and transitions. Empty lists and missing values
are left out, but the hint of a state and the stimuli of a transition are always written.
-/

namespace ModeTree

/-- A field that is written only when the list has items. -/
def Json.unlessEmpty (field : String) : List Json → List (String × Json)
  | [] => []
  | items => [(field, .arr items)]

/-- An object with an entry for each name. -/
def Json.table {α : Type} (encode : α → Json) (t : NameTable α) : Json :=
  .record (t.entries.map fun e => (e.1, encode e.2))

namespace TransitionEntry

/-- A written transition in JSON. -/
def toJson (t : TransitionEntry) : Json :=
  .record (Json.present "to" Json.text t.target ++ Json.present "action" Json.text t.action ++
    Json.unlessEmpty "also" (t.also.map .text) ++ [("on", .texts t.on)] ++
    Json.present "label" Label.toJson t.label ++ Json.present "help" Json.text t.help)

/-- Reads a transition; every field may be left out. -/
def ofJson? (v : Json) : Option TransitionEntry := do
  let row ← v.row? ["to", "action", "also", "on", "label", "help"] true
  return {
    target := ← row.defaulted "to" (Json.nullable? Json.string?) none
    action := ← row.defaulted "action" (Json.nullable? Json.string?) none
    also := ← row.defaulted "also" (Json.list? Json.string?) []
    on := ← row.defaulted "on" (Json.list? Json.string?) []
    label := ← row.defaulted "label" (Json.nullable? Label.ofJson?) none
    help := ← row.defaulted "help" (Json.nullable? Json.string?) none }

end TransitionEntry

namespace StateEntry

/-- A written state in JSON. -/
def toJson (s : StateEntry) : Json :=
  .record (Json.unlessEmpty "enter" (s.enter.map .text) ++ Json.unlessEmpty "exit" (s.exit.map .text) ++
    Json.unlessEmpty "sub_machines" (s.subMachines.map .text) ++ [("hint", s.hint.toJson)] ++
    Json.present "description" Json.text s.description ++
    Json.unlessEmpty "transitions" (s.transitions.map TransitionEntry.toJson))

/-- Reads a state; every field may be left out. -/
def ofJson? (v : Json) : Option StateEntry := do
  let row ← v.row? ["enter", "exit", "sub_machines", "hint", "description", "transitions"] true
  return {
    enter := ← row.defaulted "enter" (Json.list? Json.string?) []
    exit := ← row.defaulted "exit" (Json.list? Json.string?) []
    subMachines := ← row.defaulted "sub_machines" (Json.list? Json.string?) []
    hint := ← row.defaulted "hint" HintMode.ofJson? .inherit
    description := ← row.defaulted "description" (Json.nullable? Json.string?) none
    transitions := ← row.defaulted "transitions" (Json.list? TransitionEntry.ofJson?) [] }

end StateEntry

namespace MachineEntry

/-- A written machine in JSON. -/
def toJson (m : MachineEntry) : Json :=
  .record [("start", .text m.start), ("states", .table StateEntry.toJson m.states)]

/-- Reads a machine; of several states with one id the last counts. -/
def ofJson? (v : Json) : Option MachineEntry := do
  let row ← v.row? ["start", "states"] true
  return {
    start := ← row.required "start" Json.string?
    states := ← row.required "states" (Json.table? StateEntry.ofJson?) }

end MachineEntry

namespace Document

/-- A document in JSON. -/
def toJson (d : Document) : Json :=
  .record [("root", .text d.root), ("machines", .table MachineEntry.toJson d.machines)]

/-- Reads a document; of several machines with one name the last counts. -/
def ofJson? (v : Json) : Option Document := do
  let row ← v.row? ["root", "machines"] true
  return {
    root := ← row.required "root" Json.string?
    machines := ← row.required "machines" (Json.table? MachineEntry.ofJson?) }

end Document

end ModeTree
