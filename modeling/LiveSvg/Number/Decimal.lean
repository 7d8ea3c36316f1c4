import LiveSvg.Number.Numeral
/-!
Exact decimal numbers: reading them, rounding them to a number of places with halves going away
from zero, and writing them without an exponent.
-/

namespace LiveSvg.Number

/-- A decimal number, or one of the special ones. -/
inductive Decimal where
  | finite (negative : Bool) (coefficient : Nat) (exponent : Int)
  | infinity (negative : Bool)
  | nan (negative : Bool)
  deriving DecidableEq

namespace Decimal

/-- The most digits that a rounded number may have. -/
def precision : Nat := 28

def maxExponent : Int := 999999

/-- The least exponent that a rounded number may have. -/
def minExponent : Int := -1000026

/-- The greatest exponent that the first digit of a number in text may have. -/
def firstExponent : Int := 999999999999999999

/-- The least exponent that its last digit may have. -/
def lastExponent : Int := -1999999999999999997

def digitCount (n : Nat) : Nat := (digitsOf n).length

/-- The decimal number that a text spells, between blanks; underscores do not count. -/
def ofText? (s : String) : Option Decimal :=
  let cs := (plainDigits (Text.trim s.toList)).filter (· ≠ '_')
  let (negative, rest) := takeSign cs
  let word := String.ofList (lowercase rest)
  if word = "inf" ∨ word = "infinity" then some (.infinity negative)
  else if word = "nan" then some (.nan negative)
  else do
    let n ← unsignedNumeral? negative rest
    if n.exponent + digitCount n.coefficient - 1 ≤ firstExponent ∧ lastExponent ≤ n.exponent then
      some (.finite n.negative n.coefficient n.exponent)
    else none

/-- A fraction of naturals rounded to an integer, halves up. -/
def divHalfUp (num den : Nat) : Nat := (2 * num + den) / (2 * den)

/-- Why a number cannot be rounded to the places asked for. -/
inductive RoundError where
  | tooManyDigits
  | exponentTooLarge
  deriving DecidableEq

/-- The unit of the last of `places` decimals, as the exponent of ten that it is. -/
def unitExponent (places : Int) : Except RoundError Int :=
  if 2 * (maxExponent + precision) < places.natAbs then .error .tooManyDigits
  else if maxExponent < -places then .error .exponentTooLarge
  else .ok (max (-places) minExponent)

/-- Rounds to a number of decimal places, halves away from zero. -/
def round (places : Int) : Decimal → Except RoundError Decimal
  | .finite negative c e => do
    let unit ← unitExponent places
    if c = 0 then return .finite negative 0 unit
    let shift := e - unit
    -- a shift beyond the precision is refused before the power is built
    if (precision : Int) < shift + digitCount c then throw .tooManyDigits
    let rounded :=
      if shift + digitCount c < 0 then 0 else divHalfUp (c * 10 ^ shift.toNat) (10 ^ (-shift).toNat)
    if precision < digitCount rounded then throw .tooManyDigits
    return .finite negative rounded unit
  | .infinity _ => throw .tooManyDigits
  | .nan negative => do
    let _ ← unitExponent places
    return .nan negative

/-- The digits of a finite number without an exponent. -/
def plainChars (c : Nat) (e : Int) : List Char :=
  let ds := digitsOf c
  if c = 0 ∧ 0 ≤ e then ['0']
  else if 0 ≤ e then ds ++ List.replicate e.toNat '0'
  else
    let places := (-e).toNat
    if ds.length ≤ places then
      '0' :: '.' :: List.replicate (places - ds.length) '0' ++ ds
    else ds.take (ds.length - places) ++ '.' :: ds.drop (ds.length - places)

/-- The number written without an exponent. -/
def plain : Decimal → List Char
  | .finite negative c e => if negative then '-' :: plainChars c e else plainChars c e
  | .infinity negative => (if negative then "-Infinity" else "Infinity").toList
  | .nan negative => (if negative then "-NaN" else "NaN").toList

/-- The number without zeros at the end of its fraction, and zero without a sign. -/
def stripped (d : Decimal) : List Char :=
  let cs := d.plain
  let cs :=
    if cs.contains '.' then
      let cs := Binary64.dropZerosRight cs
      match cs.reverse with
      | '.' :: rest => rest.reverse
      | _ => cs
    else cs
  if cs = ['-', '0'] ∨ cs = [] then ['0'] else cs

end Decimal

end LiveSvg.Number
