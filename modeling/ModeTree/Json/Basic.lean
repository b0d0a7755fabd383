import ModeTree.Json.Numeral

/-!
# JSON values

A value as written: numerals keep their digits, objects keep the order of their members and repeated
keys. A string literal whose escapes leave half of a surrogate pair alone has no text.
-/

namespace ModeTree

/-- A JSON value as it is written. The text of a string or key may be missing. -/
inductive Json where
  | null
  | bool (b : Bool)
  | num (n : Json.Numeral)
  | str (text : Option String)
  | arr (items : List Json)
  | obj (members : List (Option String × Json))
  deriving Inhabited, Repr

namespace Json

/-- The string value with a text. -/
def text (s : String) : Json := str (some s)

/-- The numeral of a natural number. -/
def nat (n : Nat) : Json := num (.ofNat n)

/-- The numeral of an integer. -/
def int (n : Int) : Json := num (.ofInt n)

/-- An array of strings. -/
def texts (ss : List String) : Json := arr (ss.map text)

/-- An object with the given members. -/
def record (fields : List (String × Json)) : Json := obj (fields.map fun f => (some f.1, f.2))

/-- The value, or `null` where there is none. -/
def nullable {α : Type} (encode : α → Json) : Option α → Json
  | none => null
  | some a => encode a

end Json

end ModeTree
