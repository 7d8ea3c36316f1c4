import LiveSvg.Number.Binary64
/-!
The written form of a floating-point number: the fewest decimal digits that read back as the same
number, and of those the nearest; positional from a ten-thousandth to below `10 ^ 16`.
-/

namespace LiveSvg.Number

/-- Decimal digits of a natural number, most significant first. -/
def digitsOf (n : Nat) : List Char := Nat.toDigits 10 n

namespace Binary64

/-- Whether `x * 10 ^ k ≤ y * 2 ^ e`. -/
def decimalAtMost (x : Nat) (k : Int) (y : Nat) (e : Int) : Bool :=
  x * 10 ^ k.toNat * 2 ^ (-e).toNat ≤ y * 2 ^ e.toNat * 10 ^ (-k).toNat

/-- The number of decimal places before the point of `y * 2 ^ e`, negative for small numbers. -/
def decimalPlace (y : Nat) (e : Int) : Int :=
  let guess : Int := ((y.log2 : Int) + e) * 30103 / 100000
  if !decimalAtMost 1 guess y e then guess
  else if !decimalAtMost 1 (guess + 1) y e then guess + 1
  else guess + 2

/-- The numbers that round to one mantissa, in quarters of its last place. -/
structure Interval where
  low : Nat
  middle : Nat
  high : Nat
  closed : Bool

def interval (m : Nat) (e : Int) : Interval where
  low := if m = 2 ^ (52 : Nat) ∧ e ≠ -1074 then 4 * m - 1 else 4 * m - 2
  middle := 4 * m
  high := 4 * m + 2
  closed := m % 2 == 0

/-- Whether `x * 10 ^ k` lies in the interval whose unit is `2 ^ e`. -/
def Interval.contains (i : Interval) (e : Int) (x : Nat) (k : Int) : Bool :=
  let notBelow := !decimalAtMost x k i.low e
  let notAbove := decimalAtMost x k i.high e
  if i.closed then
    (notBelow || x * 10 ^ k.toNat * 2 ^ (-e).toNat == i.low * 2 ^ e.toNat * 10 ^ (-k).toNat) &&
      notAbove
  else
    notBelow && notAbove &&
      x * 10 ^ k.toNat * 2 ^ (-e).toNat != i.high * 2 ^ e.toNat * 10 ^ (-k).toNat

/-- The neighbour of the middle with unit `10 ^ k` that lies in the interval, if one does. -/
def Interval.nearest? (i : Interval) (e k : Int) : Option Nat :=
  let num := i.middle * 2 ^ e.toNat * 10 ^ (-k).toNat
  let den := 10 ^ k.toNat * 2 ^ (-e).toNat
  let below := num / den
  match i.contains e below k, i.contains e (below + 1) k with
  | true, true => some (if 2 * (num % den) < den then below else below + 1)
  | true, false => some below
  | false, true => some (below + 1)
  | false, false => none

/-- Tries ever more digits; the fuel is the number of digits left to try. -/
def shortestFrom (i : Interval) (e place : Int) (count : Nat) : Nat → Nat × Int
  | 0 => (0, 0)
  | fuel + 1 =>
    let k := place - count
    match i.nearest? e k with
    | some d => (d, k)
    | none => shortestFrom i e place (count + 1) fuel

/-- The shortest decimal `digits * 10 ^ exponent` of a positive finite number. -/
def shortest (m : Nat) (e : Int) : Nat × Int :=
  let i := interval m e
  shortestFrom i (e - 2) (decimalPlace i.middle (e - 2)) 1 18

def dropZerosRight (cs : List Char) : List Char := (cs.reverse.dropWhile (· == '0')).reverse

/-- The digits of an exponent, at least two, after their sign. -/
def exponentText (n : Int) : List Char :=
  let ds := digitsOf n.natAbs
  (if n < 0 then '-' else '+') :: (if ds.length < 2 then '0' :: ds else ds)

/-- Digits with a decimal point after the given place. -/
def placePoint (digits : List Char) (point : Int) : List Char :=
  if point ≤ -4 ∨ 16 < point then
    match digits with
    | [] => []
    | d :: rest =>
      let fraction := if rest.isEmpty then [] else '.' :: rest
      d :: fraction ++ 'e' :: exponentText (point - 1)
  else if point ≤ 0 then
    '0' :: '.' :: List.replicate (-point).toNat '0' ++ digits
  else
    let n := point.toNat
    if digits.length ≤ n then digits ++ List.replicate (n - digits.length) '0' ++ ['.', '0']
    else digits.take n ++ '.' :: digits.drop n

/-- The written form of a number. -/
def text : Binary64 → String
  | .nan => "nan"
  | .infinity negative => if negative then "-inf" else "inf"
  | .finite negative m e _ =>
    let body :=
      if m = 0 then ['0', '.', '0']
      else
        let (d, k) := shortest m e
        let all := digitsOf d
        placePoint (dropZerosRight all) (all.length + k)
    String.ofList (if negative then '-' :: body else body)

end Binary64

end LiveSvg.Number
