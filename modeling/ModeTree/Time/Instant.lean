import ModeTree.Text.White
import ModeTree.Time.Calendar

/-!
# Instants

A point in time is a number of seconds since the start of 1970 and a number of nanoseconds. Nanoseconds
past the billion count into a leap second that follows. Instants are written in the format of RFC 3339
in universal time, and read with any offset.
-/

namespace ModeTree

/-- A point in time, with a precision of a nanosecond. -/
structure Instant where
  second : Int
  nano : Nat
  deriving DecidableEq, Repr

namespace Instant

/-- Nanoseconds of a second. -/
def billion : Nat := 1000000000

/-- Seconds of a day. -/
def daySeconds : Nat := 86400

/-- Time from `first` to `last` in seconds and nanoseconds. A leap second that is open at one of the
two counts when the other has a later or earlier time of day. -/
def elapsed (first last : Instant) : Int × Nat :=
  let clock (t : Instant) := t.second % daySeconds
  let leap : Int :=
    if clock first < clock last ∧ billion ≤ first.nano then 1
    else if clock last < clock first ∧ billion ≤ last.nano then -1
    else 0
  let nanos : Int := last.nano - first.nano
  (last.second - first.second + leap + nanos / billion, (nanos % billion).toNat)

/-! ## Writing -/

/-- The digits of a number, with zeros in front up to the given width. -/
def padded (width n : Nat) : String :=
  let digits := Nat.toDigits 10 n
  String.ofList (List.replicate (width - digits.length) '0' ++ digits)

/-- Years of four digits are written as they are, others with a sign. -/
def yearText (year : Int) : String :=
  if 0 ≤ year ∧ year ≤ 9999 then padded 4 year.toNat
  else if year < 0 then "-" ++ padded 4 year.natAbs
  else "+" ++ padded 4 year.natAbs

/-- The fewest of 0, 3, 6 and 9 digits that are exact. -/
def fractionText (nano : Nat) : String :=
  if nano = 0 then ""
  else if nano % 1000000 = 0 then "." ++ padded 3 (nano / 1000000)
  else if nano % 1000 = 0 then "." ++ padded 6 (nano / 1000)
  else "." ++ padded 9 nano

/-- The text of an instant in universal time. -/
def text (t : Instant) : String :=
  let date := Date.ofDayNumber (t.second / daySeconds)
  let clock := (t.second % daySeconds).toNat
  yearText date.year ++ "-" ++ padded 2 date.month ++ "-" ++ padded 2 date.day ++ "T" ++
    padded 2 (clock / 3600) ++ ":" ++ padded 2 (clock / 60 % 60) ++ ":" ++
    padded 2 (clock % 60 + t.nano / billion) ++ fractionText (t.nano % billion) ++ "Z"

/-! ## Reading

Each reader answers with what it has read and the rest of the text. White space may stand in front of
a number and of the mark after it. -/

/-- The number that decimal digits spell. -/
def digitsValue (digits : List Char) : Nat := Nat.ofDigitChars 10 digits 0

/-- A number of one to `width` digits. -/
def number? (width : Nat) (cs : List Char) : Option (Nat × List Char) :=
  let digits := (cs.takeWhile Char.isDigit).take width
  if digits.isEmpty then none else some (digitsValue digits, cs.drop digits.length)

/-- A number of two digits at most, after any white space. -/
def field? (cs : List Char) : Option (Nat × List Char) := number? 2 (Text.trimStart cs)

/-- A given character. -/
def mark? (c : Char) : List Char → Option (List Char)
  | d :: cs => if d = c then some cs else none
  | [] => none

/-- A year of up to four digits, or one with a sign and any number of digits. -/
def year? (cs : List Char) : Option (Int × List Char) :=
  match Text.trimStart cs with
  | '-' :: rest => (number? rest.length rest).map fun (n, rest) => (-(n : Int), rest)
  | '+' :: rest => (number? rest.length rest).map fun (n, rest) => ((n : Int), rest)
  | rest => (number? 4 rest).map fun (n, rest) => ((n : Int), rest)

/-- A date that exists. -/
def date? (cs : List Char) : Option (Date × List Char) := do
  let (year, cs) ← year? cs
  let cs ← mark? '-' (Text.trimStart cs)
  let (month, cs) ← field? cs
  let cs ← mark? '-' (Text.trimStart cs)
  let (day, cs) ← field? cs
  let date : Date := ⟨year, month, day⟩
  if date.IsValid then some (date, cs) else none

/-- A fraction of a second in nanoseconds; digits after the ninth do not count. -/
def fraction? : List Char → Option (Nat × List Char)
  | '.' :: cs =>
    let digits := cs.takeWhile Char.isDigit
    if digits.isEmpty then none
    else
      let counted := digits.take 9
      some (digitsValue counted * Nat.pow 10 (9 - counted.length), cs.dropWhile Char.isDigit)
  | cs => some (0, cs)

/-- Time of day in seconds and nanoseconds; the second 60 is a leap second. -/
def clock? (cs : List Char) : Option ((Nat × Nat) × List Char) := do
  let (hour, cs) ← field? cs
  let cs ← mark? ':' (Text.trimStart cs)
  let (minute, cs) ← field? cs
  let cs ← mark? ':' (Text.trimStart cs)
  let (second, cs) ← field? cs
  let (nano, cs) ← fraction? cs
  if 23 < hour ∨ 59 < minute ∨ 60 < second then none
  -- a leap second is told by nanoseconds past the billion
  else if second = 60 then some ((hour * 3600 + minute * 60 + 59, billion + nano), cs)
  else some ((hour * 3600 + minute * 60 + second, nano), cs)

/-- Two digits. -/
def twoDigits? : List Char → Option (Nat × List Char)
  | a :: b :: cs => if a.isDigit && b.isDigit then some (digitsValue [a, b], cs) else none
  | _ => none

/-- Hours and minutes of an offset, less than a day, in seconds. -/
def offset? (cs : List Char) : Option (Nat × List Char) := do
  let (hours, cs) ← twoDigits? cs
  let (minutes, cs) ← twoDigits? (cs.dropWhile fun c => c == ':' || Text.isWhite c)
  if 59 < minutes ∨ 23 < hours then none else some (hours * 3600 + minutes * 60, cs)

/-- Offset from universal time in seconds. -/
def zone? (cs : List Char) : Option (Int × List Char) :=
  match cs with
  | 'Z' :: rest | 'z' :: rest => some (0, rest)
  | '+' :: rest => (offset? rest).map fun (n, rest) => ((n : Int), rest)
  | '-' :: rest | '\u2212' :: rest => (offset? rest).map fun (n, rest) => (-(n : Int), rest)
  | a :: b :: c :: rest => if [a, b, c].map Char.toUpper = "UTC".toList then some (0, rest) else none
  | _ => none

/-- Instants reach over this many years before and after the year 0. -/
def yearInRange (year : Int) : Bool := -262143 ≤ year && year ≤ 262142

/-- Reads an instant. -/
def parse (s : String) : Option Instant := do
  let (date, cs) ← date? s.toList
  let cs ← match cs with
    | 't' :: rest | 'T' :: rest | ' ' :: rest => some rest
    | _ => none
  let ((clock, nano), cs) ← clock? cs
  let (offset, cs) ← zone? (Text.trimStart cs)
  let second := date.dayNumber * daySeconds + clock - offset
  -- the offset may lead to a year out of range from one that is in it
  if (Text.trimStart cs).isEmpty && yearInRange date.year &&
      yearInRange (Date.ofDayNumber (second / daySeconds)).year then
    some ⟨second, nano⟩
  else none

end Instant

end ModeTree
