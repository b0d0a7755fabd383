import ModeTree.Json.Basic

/-!
# JSON tokens

The characters of a JSON text are read one by one (`Scan.step`) into marks, literals and words.
-/

namespace ModeTree.Json

/-- One of the marks that hold arrays and objects together, or a value without parts. -/
inductive Token where
  | mark (c : Char)
  | scalar (v : Json)
  deriving Inhabited

/-- Part of a string literal: a character, or a code unit given by an escape. -/
inductive Piece where
  | char (c : Char)
  | unit (code : Nat)

/-- Value of a hexadecimal digit. -/
def hexDigit? (c : Char) : Option Nat :=
  if '0' ≤ c ∧ c ≤ '9' then some (c.toNat - '0'.toNat)
  else if 'a' ≤ c ∧ c ≤ 'f' then some (c.toNat - 'a'.toNat + 10)
  else if 'A' ≤ c ∧ c ≤ 'F' then some (c.toNat - 'A'.toNat + 10)
  else none

/-- Character that a short escape stands for. -/
def shortEscape? : Char → Option Char
  | '"' => some '"'
  | '\\' => some '\\'
  | '/' => some '/'
  | 'b' => some '\x08'
  | 'f' => some '\x0c'
  | 'n' => some '\n'
  | 'r' => some '\x0d'
  | 't' => some '\t'
  | _ => none

/-- The pieces of a literal, given what stands between its quotes. Control characters have to be
escaped. -/
def pieces? : List Char → Option (List Piece)
  | [] => some []
  | '\\' :: 'u' :: a :: b :: c :: d :: rest => do
    let code := (← hexDigit? a) * 4096 + (← hexDigit? b) * 256 + (← hexDigit? c) * 16 + (← hexDigit? d)
    return .unit code :: (← pieces? rest)
  | '\\' :: e :: rest => do
    let c ← shortEscape? e
    return .char c :: (← pieces? rest)
  | c :: rest => do
    if c = '\\' ∨ c < ' ' then none
    return .char c :: (← pieces? rest)

/-- Whether a code unit is the first half of a surrogate pair. -/
def isHighSurrogate (code : Nat) : Bool := 0xD800 ≤ code && code < 0xDC00

/-- Whether a code unit is the second half of a surrogate pair. -/
def isLowSurrogate (code : Nat) : Bool := 0xDC00 ≤ code && code < 0xE000

/-- The characters of a literal; none if a code unit is half of a surrogate pair without the other. -/
def join? : List Piece → Option (List Char)
  | [] => some []
  | .char c :: rest => (join? rest).map (c :: ·)
  | .unit high :: .unit low :: rest =>
    -- a high half needs its low half right behind it
    if isHighSurrogate high then
      if isLowSurrogate low then
        (join? rest).map (Char.ofNat (0x10000 + (high - 0xD800) * 1024 + (low - 0xDC00)) :: ·)
      else none
    else if isLowSurrogate high then none
    else (join? (.unit low :: rest)).map (Char.ofNat high :: ·)
  | .unit code :: rest =>
    if isHighSurrogate code || isLowSurrogate code then none
    else (join? rest).map (Char.ofNat code :: ·)

/-- The string that stands between two quotes. -/
def literal? (body : List Char) : Option Json :=
  (pieces? body).map fun ps => .str ((join? ps).map String.ofList)

/-- The value that a word outside of quotes names. -/
def word? (cs : List Char) : Option Json :=
  if cs = "null".toList then some .null
  else if cs = "true".toList then some (.bool true)
  else if cs = "false".toList then some (.bool false)
  else (Numeral.ofChars? cs).map .num

/-- Where the scan stands: between tokens, in a word, in a literal, or behind a backslash in one. The
characters of the open token are held latest first. -/
inductive Scan.Mode where
  | between
  | word (cs : List Char)
  | quoted (cs : List Char)
  | escaped (cs : List Char)

/-- The tokens read so far, latest first, and where the scan stands. -/
structure Scan where
  tokens : List Token
  mode : Scan.Mode

namespace Scan

/-- White space of JSON texts. -/
def isBlank (c : Char) : Bool := c == ' ' || c == '\t' || c == '\n' || c == '\x0d'

/-- Whether a character is a token of its own: a bracket, a brace, a colon or a comma. -/
def isMark (c : Char) : Bool := "[]\x7b\x7d:,".toList.contains c

/-- One character while no token is open. -/
def open? (tokens : List Token) (c : Char) : Option Scan :=
  if isBlank c then some ⟨tokens, .between⟩
  else if isMark c then some ⟨.mark c :: tokens, .between⟩
  else if c = '"' then some ⟨tokens, .quoted []⟩
  else some ⟨tokens, .word [c]⟩

/-- One character. -/
def step : Scan → Char → Option Scan
  | ⟨tokens, .between⟩, c => open? tokens c
  | ⟨tokens, .word cs⟩, c =>
    -- a word has no end of its own, so the character behind it is read again
    if isBlank c || isMark c || c == '"' then do
      let v ← word? cs.reverse
      open? (.scalar v :: tokens) c
    else some ⟨tokens, .word (c :: cs)⟩
  | ⟨tokens, .quoted cs⟩, c =>
    if c = '"' then do
      let v ← literal? cs.reverse
      some ⟨.scalar v :: tokens, .between⟩
    else if c = '\\' then some ⟨tokens, .escaped (c :: cs)⟩
    else some ⟨tokens, .quoted (c :: cs)⟩
  | ⟨tokens, .escaped cs⟩, c => some ⟨tokens, .quoted (c :: cs)⟩

/-- The tokens in order, if no literal is open. -/
def finish : Scan → Option (List Token)
  | ⟨tokens, .between⟩ => some tokens.reverse
  | ⟨tokens, .word cs⟩ => (word? cs.reverse).map fun v => (.scalar v :: tokens).reverse
  | _ => none

end Scan

/-- The tokens of a text. -/
def tokens? (cs : List Char) : Option (List Token) := do
  let scan ← cs.foldlM Scan.step ⟨[], .between⟩
  scan.finish

end ModeTree.Json
