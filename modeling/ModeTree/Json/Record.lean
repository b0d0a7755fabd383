import ModeTree.Json.Basic
import ModeTree.NameTable

/-!
# Records in JSON

How values of the library are read from JSON. A record is an object, or an array of its fields in
their declared order. A row keeps the fields that are present; a field may be required, optional
(`null`, or missing from an object) or have a value that stands for it when it is missing. Every
decoder answers `none` for a value of the wrong shape.
-/

namespace ModeTree.Json

variable {α : Type}

/-- A string that has a text. -/
def string? : Json → Option String
  | .str s => s
  | _ => none

/-- A truth value. -/
def bool? : Json → Option Bool
  | .bool b => some b
  | _ => none

/-- A natural number below `bound`. -/
def natBelow? (bound : Nat) : Json → Option Nat
  | .num n => n.toNat?.filter (· < bound)
  | _ => none

/-- Numbers of entries and levels have 64 bits. -/
def size? : Json → Option Nat := natBelow? (Nat.pow 2 64)

/-- A number as a floating-point number. -/
def float? : Json → Option Float
  | .num n => n.toFloat?
  | _ => none

/-- A list whose items are read by `item`. -/
def list? (item : Json → Option α) : Json → Option (List α)
  | .arr items => items.mapM item
  | _ => none

/-- A value that may be `null`. -/
def nullable? (value : Json → Option α) : Json → Option (Option α)
  | .null => some none
  | v => (value v).map some

/-- The members of an object whose keys all have a text. -/
def named? (members : List (Option String × Json)) : Option (List (String × Json)) :=
  members.mapM fun m => m.1.map (·, m.2)

/-- A table from names to values; of several members with one name the last counts. -/
def table? (value : Json → Option α) : Json → Option (NameTable α)
  | .obj members => do
    let entries ← (← named? members).mapM fun m => (value m.2).map (m.1, ·)
    return .ofList entries
  | _ => none

/-- The fields of a record that are present. Fields written as an array are known by position. -/
structure Row where
  positional : Bool
  cells : List (String × Json)

/-- The row of a record with the given field names. A field written twice and surplus items of an array
are refused; unknown keys of an object are refused if the record is closed, and skipped otherwise. -/
def row? (fields : List String) (closed : Bool) : Json → Option Row
  | .arr items => if items.length ≤ fields.length then some ⟨true, fields.zip items⟩ else none
  | .obj members => do
    let cells ← named? members
    -- only known fields have to differ; unknown ones may be repeated
    let known := cells.filter fun c => fields.contains c.1
    if closed && known.length != cells.length then none
    if !decide (known.map (·.1)).Nodup then none
    return ⟨false, known⟩
  | _ => none

namespace Row

/-- The value of a field, if the field is present. -/
def find? (row : Row) (field : String) : Option Json := NameTable.findEntry field row.cells

/-- A field that has to be present. -/
def required (row : Row) (field : String) (value : Json → Option α) : Option α :=
  (row.find? field).bind value

/-- A field that may be `null`, and that an object may leave out. -/
def optional (row : Row) (field : String) (value : Json → Option α) : Option (Option α) :=
  match row.find? field with
  | some v => nullable? value v
  | none => if row.positional then none else some none

/-- A field that has the value `fallback` when it is left out. -/
def defaulted (row : Row) (field : String) (value : Json → Option α) (fallback : α) : Option α :=
  match row.find? field with
  | some v => value v
  | none => some fallback

end Row

/-- Name and payload of a choice: a name alone, or an object with the name as its only key. -/
def choice? : Json → Option (String × Option Json)
  | .str (some name) => some (name, none)
  | .obj [(some name, payload)] => some (name, some payload)
  | _ => none

/-- Whether a choice has no payload. -/
def isBareChoice : Option Json → Bool
  | none | some .null => true
  | some _ => false

end ModeTree.Json
