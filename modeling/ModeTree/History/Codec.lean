import ModeTree.History.Basic
import ModeTree.Json.Record

/-!
# Histories in JSON
-/

namespace ModeTree

namespace Instant

/-- An instant in JSON: its text. -/
def toJson (t : Instant) : Json := .text t.text

/-- Reads an instant. -/
def ofJson? (v : Json) : Option Instant := v.string?.bind parse

end Instant

namespace ModeChange

/-- A change in JSON. -/
def toJson (c : ModeChange) : Json :=
  .record [("machine", .text c.machine), ("depth", .nat c.depth), ("from", .text c.source),
    ("to", .text c.target), ("stimulus", .text c.stimulus), ("timestamp", c.timestamp.toJson)]

/-- Reads a change. -/
def ofJson? (v : Json) : Option ModeChange := do
  let row ← v.row? ["machine", "depth", "from", "to", "stimulus", "timestamp"] false
  return {
    machine := ← row.required "machine" Json.string?
    depth := ← row.required "depth" Json.size?
    source := ← row.required "from" Json.string?
    target := ← row.required "to" Json.string?
    stimulus := ← row.required "stimulus" Json.string?
    timestamp := ← row.required "timestamp" Instant.ofJson? }

end ModeChange

namespace History

/-- A history in JSON. -/
def toJson (h : History) : Json :=
  .record [("capacity", .nat h.capacity), ("changes", .arr (h.changes.map ModeChange.toJson))]

/-- A history that is read may hold more changes than its capacity. -/
def ofJson? (v : Json) : Option History := do
  let row ← v.row? ["capacity", "changes"] false
  return {
    capacity := ← row.required "capacity" Json.size?
    changes := ← row.required "changes" (Json.list? ModeChange.ofJson?) }

end History

end ModeTree
