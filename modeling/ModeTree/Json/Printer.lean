import ModeTree.Json.Basic

/-!
# Writing JSON

The compact text of a value: no white space, and only quotes, backslashes and control characters are
escaped.
-/

namespace ModeTree.Json

/-- The hexadecimal digits by value. -/
def hexDigits : List Char := "0123456789abcdef".toList

/-- The characters that stand for `c` in a string literal. -/
def escape (c : Char) : List Char :=
  match c with
  | '"' => ['\\', '"']
  | '\\' => ['\\', '\\']
  | '\x08' => ['\\', 'b']
  | '\t' => ['\\', 't']
  | '\n' => ['\\', 'n']
  | '\x0c' => ['\\', 'f']
  | '\x0d' => ['\\', 'r']
  | c =>
    if c < ' ' then
      ['\\', 'u', '0', '0', hexDigits.getD (c.toNat / 16) '0', hexDigits.getD (c.toNat % 16) '0']
    else [c]

/-- The literal of a text. -/
def quote (s : String) : String := String.ofList ('"' :: s.toList.flatMap escape ++ ['"'])

/-- The literal of a string value; one without a text is half of a surrogate pair. -/
def quoteText : Option String → String
  | some s => quote s
  | none => "\"\\ud800\""

mutual

/-- Compact text of a value. -/
def compact : Json → String
  | null => "null"
  | bool true => "true"
  | bool false => "false"
  | num n => String.ofList n.chars
  | str s => quoteText s
  | arr items => "[" ++ compactItems items ++ "]"
  | obj members => "\x7b" ++ compactMembers members ++ "\x7d"

/-- Compact text of the items of an array, with commas between them. -/
def compactItems : List Json → String
  | [] => ""
  | [v] => compact v
  | v :: rest => compact v ++ "," ++ compactItems rest

/-- Compact text of the members of an object, with commas between them. -/
def compactMembers : List (Option String × Json) → String
  | [] => ""
  | [(k, v)] => quoteText k ++ ":" ++ compact v
  | (k, v) :: rest => quoteText k ++ ":" ++ compact v ++ "," ++ compactMembers rest

end

end ModeTree.Json
