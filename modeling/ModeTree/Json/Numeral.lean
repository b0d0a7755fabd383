/-!
# JSON numerals

A numeral is kept as it is written: sign, digits, fraction and exponent. It denotes a natural number
only when it has neither sign, fraction nor exponent; as a float it is read with a significand of 64
bits.
-/

namespace ModeTree.Json

/-- A numeral as written. `fraction` is empty when there is no decimal point. -/
structure Numeral where
  negative : Bool
  whole : List Char
  fraction : List Char
  exponent : Option Int
  deriving DecidableEq, Repr

namespace Numeral

/-- The numeral of a natural number. -/
def ofNat (n : Nat) : Numeral := ⟨false, Nat.toDigits 10 n, [], none⟩

/-- The numeral of an integer. -/
def ofInt (n : Int) : Numeral := ⟨n < 0, Nat.toDigits 10 n.natAbs, [], none⟩

/-- The number that a list of digits denotes. -/
def value (digits : List Char) : Nat := Nat.ofDigitChars 10 digits 0

/-- The natural number that a numeral without sign, fraction and exponent denotes. -/
def toNat? (n : Numeral) : Option Nat :=
  if n.negative || !n.fraction.isEmpty || n.exponent.isSome then none else some (value n.whole)

/-- Largest significand. -/
def maxSignificand : Nat := Nat.pow 2 64 - 1

/-- Appends digits to a significand while it stays within 64 bits. The first digit that does not fit
and those after it are left over. -/
def absorb (significand : Nat) : List Char → Nat × List Char
  | [] => (significand, [])
  | d :: ds =>
    let next := 10 * significand + (d.toNat - '0'.toNat)
    -- not only this digit is left over: a later one could fit again, but would be misplaced
    if next ≤ maxSignificand then absorb next ds else (significand, d :: ds)

/-- The significand, and the power of ten that goes with it. Digits of the integer that do not fit
raise the power, digits of the fraction that do not fit are dropped. -/
def parts (n : Numeral) : Nat × Int :=
  let (integer, surplus) := absorb 0 n.whole
  let (significand, unused) := absorb integer n.fraction
  let written : Int := n.exponent.getD 0
  (significand, surplus.length - (n.fraction.length - unused.length : Nat) + written)

/-- Largest power of ten that is a float. -/
def maxPower : Nat := 308

/-- A float times a power of ten, absent when it is too large. A power beyond the floats is taken in
steps; after `steps` of them the result is zero. -/
def scale (f : Float) (power : Int) : (steps : Nat) → Option Float
  | 0 => some 0
  | steps + 1 =>
    if power.natAbs ≤ maxPower then
      let ten := Float.ofScientific 1 false power.natAbs
      if power < 0 then some (f / ten)
      else if (f * ten).isInf then none else some (f * ten)
    else if f == 0 then some 0
    else if 0 ≤ power then none
    else scale (f / Float.ofScientific 1 false maxPower) (power + maxPower) steps

/-- The float that a numeral denotes, absent when it is too large. A significand of 64 bits is zero
after three divisions by the largest power. -/
def toFloat? (n : Numeral) : Option Float :=
  let (significand, power) := n.parts
  (scale (Float.ofNat significand) power 4).map fun f => if n.negative then -f else f

@[simp] theorem toNat?_ofNat (n : Nat) : (ofNat n).toNat? = some n := by
  simp [ofNat, toNat?, value, Nat.ofDigitChars_toDigits]

/-- Reads a numeral: no leading zeros, and at least one digit on either side of a point and after the
letter of an exponent. -/
def ofChars? (cs : List Char) : Option Numeral :=
  let (negative, cs) := match cs with
    | '-' :: rest => (true, rest)
    | _ => (false, cs)
  let whole := cs.takeWhile Char.isDigit
  let cs := cs.dropWhile Char.isDigit
  if whole.isEmpty || (whole.head? == some '0' && 1 < whole.length) then none else
  let (fraction, cs, pointless) := match cs with
    | '.' :: rest => (rest.takeWhile Char.isDigit, rest.dropWhile Char.isDigit, false)
    | _ => ([], cs, true)
  if fraction.isEmpty && !pointless then none else
  match cs with
  | [] => some ⟨negative, whole, fraction, none⟩
  | e :: cs =>
    if e != 'e' && e != 'E' then none else
    let (down, cs) := match cs with
      | '-' :: rest => (true, rest)
      | '+' :: rest => (false, rest)
      | _ => (false, cs)
    if cs.isEmpty || !cs.all Char.isDigit then none else
    let power : Int := value cs
    some ⟨negative, whole, fraction, some (if down then -power else power)⟩

/-- The numeral's characters. -/
def chars (n : Numeral) : List Char :=
  let exponent := match n.exponent with
    | none => []
    | some e => 'e' :: (if e < 0 then ['-'] else []) ++ Nat.toDigits 10 e.natAbs
  (if n.negative then ['-'] else []) ++ n.whole ++
    (if n.fraction.isEmpty then [] else '.' :: n.fraction) ++ exponent

end Numeral

end ModeTree.Json
