/-! Numbers as a settings file writes them. A number with a fraction or an exponent is
read as a significand of 64 bits and a power of ten; digits that have no room in the
significand are dropped. The two are then multiplied in floating point, so that the
result can differ in its last place from the number that is written. -/
namespace ElmScope.Settings

def digitValue (c : Char) : Nat := c.toNat - '0'.toNat

def appendDigits (n : Nat) (digits : List Char) : Nat :=
  digits.foldl (fun n digit => 10 * n + digitValue digit) n

/-- Appends digits to a number as long as it has room in 64 bits, and gives the
digits that are left. -/
def appendFitting (n : Nat) : List Char → Nat × List Char
  | [] => (n, [])
  | digit :: rest =>
    let next := 10 * n + digitValue digit
    if next < UInt64.size then appendFitting next rest else (n, digit :: rest)

def digitsValue? (text : List Char) : Option Nat :=
  if text.isEmpty || !text.all Char.isDigit then none else some (appendDigits 0 text)

def int64? (isNegative : Bool) (magnitude : Nat) : Option Int :=
  let n : Int := if isNegative then -magnitude else magnitude
  if -0x8000000000000000 ≤ n ∧ n < 0x8000000000000000 then some n else none

/-- A number in decimal. Only digits stand before and behind its point. -/
structure Numeral where
  isNegative : Bool
  whole : List Char
  /-- The digits behind the point, none if there is no point. -/
  fraction : List Char
  exponent : Option Int
deriving DecidableEq, Repr

/-- The greatest exponent of a power of ten that is a floating-point number. -/
def maxPower : Nat := 308

/-- A power of ten up to `maxPower`, rounded to the nearest. -/
def powerOfTen (exponent : Nat) : Float := .ofScientific 1 false exponent

/-- A number that is not negative times a power of ten, infinite if it is out of
range. A power too small for a floating-point number is divided by in parts. -/
def scale (x : Float) (exponent : Int) : Float :=
  if exponent.natAbs ≤ maxPower then
    if 0 ≤ exponent then x * powerOfTen exponent.natAbs
    else x / powerOfTen exponent.natAbs
  else if x == 0 then x
  else if 0 ≤ exponent then 1.0 / 0.0
  else scale (x / powerOfTen maxPower) (exponent + maxPower)
termination_by exponent.natAbs
decreasing_by simp only [maxPower] at *; omega

namespace Numeral

/-- The leading digits of a number and the power of ten that makes them the number.
A digit that is dropped before the point counts in the power, and so does one that
is kept behind it. -/
def parts (n : Numeral) : Nat × Int :=
  let (whole, dropped) := appendFitting 0 n.whole
  let (significand, left) := appendFitting whole n.fraction
  (significand, n.exponent.getD 0 + dropped.length - (n.fraction.length - left.length))

def toFloat (n : Numeral) : Float :=
  let magnitude := scale (.ofNat n.parts.1) n.parts.2
  if n.isNegative then -magnitude else magnitude

/-- The integer that is read, if there is neither fraction nor exponent and it has
room in 64 bits. -/
def toInt? (n : Numeral) : Option Int :=
  if n.fraction.isEmpty && n.exponent.isNone then
    int64? n.isNegative (appendDigits 0 n.whole)
  else none

end Numeral

end ElmScope.Settings
