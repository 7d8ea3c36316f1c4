/-!
Binary floating-point numbers of 64 bits as exact dyadic rationals. A finite number is a sign, a
mantissa and an exponent in the one canonical form; every operation is an exact computation on
rationals followed by one rounding to nearest, ties to even.
-/

namespace LiveSvg.Number

-- Powers of naturals are the built-in ones, also where an algebraic hierarchy offers its own.
attribute [scoped instance (high)] instPowNat

/-- Full precision, or the least exponent. -/
def Canonical (mantissa : Nat) (exponent : Int) : Prop :=
  (2 ^ (52 : Nat) ≤ mantissa ∧ mantissa < 2 ^ (53 : Nat) ∧ -1074 ≤ exponent ∧ exponent ≤ 971) ∨
    (mantissa < 2 ^ (52 : Nat) ∧ exponent = -1074)

instance (m : Nat) (e : Int) : Decidable (Canonical m e) := inferInstanceAs (Decidable (_ ∨ _))

/-- A 64-bit floating-point number. Zeros keep their sign; there is one NaN. -/
inductive Binary64 where
  | nan
  | infinity (negative : Bool)
  | finite (negative : Bool) (mantissa : Nat) (exponent : Int)
      (canonical : Canonical mantissa exponent)
  deriving DecidableEq

namespace Binary64

/-- The number with these parts; what is too large for the format is infinite. -/
def ofParts (negative : Bool) (mantissa : Nat) (exponent : Int) : Binary64 :=
  if h : Canonical mantissa exponent then .finite negative mantissa exponent h
  else .infinity negative

/-- A quotient of naturals rounded to an integer, ties to even. -/
def divToEven (num den : Nat) : Nat :=
  let q := num / den
  let twice := 2 * (num % den)
  if twice < den then q
  else if den < twice then q + 1
  else q + q % 2

/-- A fraction times a power of two, as a fraction. -/
def scaleFraction (num den : Nat) (exponent : Int) : Nat × Nat :=
  (num * 2 ^ exponent.toNat, den * 2 ^ (-exponent).toNat)

/-- The exponent at which a positive fraction has a full mantissa, or the least one. -/
def exponentOf (num den : Nat) : Int :=
  let guess : Int := (num.log2 : Int) - (den.log2 : Int) - 52
  let (n, d) := scaleFraction num den (-guess)
  max (if n < 2 ^ (52 : Nat) * d then guess - 1 else guess) (-1074)

/-- The number nearest to a fraction; of two, the one with the even mantissa. -/
def ofRatio (negative : Bool) (num den : Nat) : Binary64 :=
  if num = 0 then ofParts negative 0 (-1074)
  else
    let e := exponentOf num den
    let (n, d) := scaleFraction num den (-e)
    let m := divToEven n d
    if m = 2 ^ (53 : Nat) then ofParts negative (2 ^ (52 : Nat)) (e + 1) else ofParts negative m e

def zero (negative : Bool) : Binary64 := ofParts negative 0 (-1074)

def ofInt (n : Int) : Binary64 := ofRatio (decide (n < 0)) n.natAbs 1

/-- The number nearest to `digits * 10 ^ exponent`. -/
def ofDecimal (negative : Bool) (digits : Nat) (exponent : Int) : Binary64 :=
  if digits = 0 then zero negative
  else
    let magnitude : Int := exponent + (digits.log2 : Int) * 30103 / 100000
    if 400 < magnitude then .infinity negative
    else if magnitude < -400 then zero negative
    else ofRatio negative (digits * 10 ^ exponent.toNat) (10 ^ (-exponent).toNat)

/-- Numerator and denominator of a finite number. -/
def ratio? : Binary64 → Option (Int × Nat)
  | .finite negative m e _ =>
    let n : Int := m * 2 ^ e.toNat
    some (if negative then -n else n, 2 ^ (-e).toNat)
  | _ => none

def isNaN : Binary64 → Bool
  | .nan => true
  | _ => false

def isInfinite : Binary64 → Bool
  | .infinity _ => true
  | _ => false

def isFinite : Binary64 → Bool
  | .finite .. => true
  | _ => false

/-- Whether the sign is negative, also of a zero. -/
def signed : Binary64 → Bool
  | .nan => false
  | .infinity s => s
  | .finite s .. => s

def isZero : Binary64 → Bool
  | .finite _ m _ _ => m == 0
  | _ => false

/-- The integer part, toward zero. -/
def truncate? : Binary64 → Option Int
  | .finite negative m e _ =>
    let n : Int := (m * 2 ^ e.toNat / 2 ^ (-e).toNat : Nat)
    some (if negative then -n else n)
  | _ => none

def isInteger : Binary64 → Bool
  | .finite _ m e _ => m % 2 ^ (-e).toNat == 0
  | _ => false

/-- The greatest integer that is not above the number. -/
def floor? (x : Binary64) : Option Int :=
  x.ratio?.map fun (n, d) => n.fdiv d

/-! ### Order -/

/-- A number's place in the order: an exact fraction, or beyond all of them. -/
inductive Place where
  | below
  | point (num : Int) (den : Nat)
  | above

def Place.compare : Place → Place → Ordering
  | .below, .below => .eq
  | .below, _ => .lt
  | .above, .above => .eq
  | .above, _ => .gt
  | .point _ _, .below => .gt
  | .point _ _, .above => .lt
  | .point n d, .point n' d' => Ord.compare (n * d') (n' * d)

def place? : Binary64 → Option Place
  | .nan => none
  | .infinity negative => some (if negative then .below else .above)
  | x => x.ratio?.map fun (n, d) => .point n d

/-- The order of numbers; a NaN stands in none. -/
def compare? (x y : Binary64) : Option Ordering := do
  return (← x.place?).compare (← y.place?)

def less (x y : Binary64) : Bool := x.compare? y == some .lt

def atMost (x y : Binary64) : Bool := x.less y || x.compare? y == some .eq

/-- Equal as numbers: zeros agree, a NaN differs from everything. -/
def same (x y : Binary64) : Bool := x.compare? y == some .eq

/-! ### Arithmetic -/

def neg : Binary64 → Binary64
  | .nan => .nan
  | .infinity s => .infinity (!s)
  | .finite s m e h => .finite (!s) m e h

def abs : Binary64 → Binary64
  | .nan => .nan
  | .infinity _ => .infinity false
  | .finite _ m e h => .finite false m e h

/-- The number with the sign given. -/
def withSign (negative : Bool) (x : Binary64) : Binary64 :=
  if negative then x.abs.neg else x.abs

def ofFraction (num : Int) (den : Nat) (zeroSign : Bool) : Binary64 :=
  if num = 0 then zero zeroSign else ofRatio (decide (num < 0)) num.natAbs den

def add (x y : Binary64) : Binary64 :=
  match x, y with
  | .nan, _ => .nan
  | _, .nan => .nan
  | .infinity s, .infinity t => if s = t then .infinity s else .nan
  | .infinity s, _ => .infinity s
  | _, .infinity t => .infinity t
  | .finite s .., .finite t .. =>
    match x.ratio?, y.ratio? with
    | some (n, d), some (n', d') => ofFraction (n * d' + n' * d) (d * d') (s && t)
    | _, _ => .nan

def sub (x y : Binary64) : Binary64 := x.add y.neg

def mul (x y : Binary64) : Binary64 :=
  let sign := x.signed != y.signed
  match x, y with
  | .nan, _ => .nan
  | _, .nan => .nan
  | .infinity _, z => if z.isZero then .nan else .infinity sign
  | z, .infinity _ => if z.isZero then .nan else .infinity sign
  | .finite .., .finite .. =>
    match x.ratio?, y.ratio? with
    | some (n, d), some (n', d') => ofRatio sign (n * n').natAbs (d * d')
    | _, _ => .nan

/-- The quotient; a zero divisor is for the caller to refuse and gives a NaN here. -/
def div (x y : Binary64) : Binary64 :=
  let sign := x.signed != y.signed
  match x, y with
  | .nan, _ => .nan
  | _, .nan => .nan
  | .infinity _, .infinity _ => .nan
  | .infinity _, _ => .infinity sign
  | _, .infinity _ => zero sign
  | .finite .., .finite .. =>
    match x.ratio?, y.ratio? with
    | some (n, d), some (n', d') =>
      if n' = 0 then .nan else ofRatio sign (n.natAbs * d') (d * n'.natAbs)
    | _, _ => .nan

/-- The remainder of truncated division, which is exact and has the sign of the dividend. -/
def remainder (x y : Binary64) : Binary64 :=
  match x, y with
  | .nan, _ => .nan
  | _, .nan => .nan
  | .infinity _, _ => .nan
  | z, .infinity _ => z
  | .finite s .., .finite .. =>
    match x.ratio?, y.ratio? with
    | some (n, d), some (n', d') =>
      if n' = 0 then .nan else ofRatio s ((n.natAbs * d') % (n'.natAbs * d)) (d * d')
    | _, _ => .nan

/-- The greatest integral number that is not above, with the sign of a zero kept. -/
def floor (x : Binary64) : Binary64 :=
  match x with
  | .finite s .. => ofFraction (x.floor?.getD 0) 1 s
  | z => z

/-- Quotient and remainder of floored division: the remainder has the sign of the divisor. -/
def floorDivMod (x y : Binary64) : Binary64 × Binary64 :=
  let r := x.remainder y
  let q := (x.sub r).div y
  let (q, r) :=
    if r.isZero then (q, withSign y.signed r)
    else if y.less (zero false) != r.less (zero false) then (q.sub (ofInt 1), r.add y)
    else (q, r)
  if q.isZero then (withSign (x.signed != y.signed) q, r)
  else
    let below := q.floor
    let half := ofRatio false 1 2
    (if half.less (q.sub below) then below.add (ofInt 1) else below, r)

end Binary64

end LiveSvg.Number
