import LiveSvg.Number.Shortest
import LiveSvg.Text.Blank
/-!
Reading numbers from text: decimal numerals with point and exponent, and the integers and
floating-point numbers that they spell.
-/

namespace LiveSvg.Number

open Text

/-- The decimal number `coefficient * 10 ^ exponent` with a sign. -/
structure Numeral where
  negative : Bool
  coefficient : Nat
  exponent : Int
  deriving DecidableEq

def Numeral.toBinary64 (n : Numeral) : Binary64 :=
  Binary64.ofDecimal n.negative n.coefficient n.exponent

def natOfDigits (ds : List Char) : Nat := ds.foldl (fun n c => n * 10 + (c.toNat - 48)) 0

/-- The digits that a text starts with, and the rest. -/
def takeDigits (cs : List Char) : List Char × List Char :=
  (cs.takeWhile isAsciiDigit, cs.dropWhile isAsciiDigit)

/-- A sign, if there is one, and the rest. -/
def takeSign : List Char → Bool × List Char
  | '-' :: rest => (true, rest)
  | '+' :: rest => (false, rest)
  | cs => (false, cs)

/-- An exponent mark with digits after it, and the rest; the text is left whole without one. -/
def takeExponent (cs : List Char) : Option Int × List Char :=
  match cs with
  | c :: rest =>
    if c = 'e' ∨ c = 'E' then
      let (negative, unsigned) := takeSign rest
      match takeDigits unsigned with
      | ([], _) => (none, cs)
      | (ds, rest) => (some (if negative then -(natOfDigits ds : Int) else natOfDigits ds), rest)
    else (none, cs)
  | [] => (none, [])

/-- An unsigned numeral that fills the text: digits with or without a point, and an exponent. -/
def unsignedNumeral? (negative : Bool) (cs : List Char) : Option Numeral :=
  let (whole, rest) := takeDigits cs
  let (fraction, rest) :=
    match rest with
    | '.' :: rest => takeDigits rest
    | _ => ([], rest)
  let digits := whole ++ fraction
  if digits.isEmpty then none
  else
    match takeExponent rest with
    | (e?, []) => some ⟨negative, natOfDigits digits, e?.getD 0 - fraction.length⟩
    | _ => none

/-- A numeral with a sign or none. -/
def Numeral.ofChars? (cs : List Char) : Option Numeral :=
  let (negative, rest) := takeSign cs
  unsignedNumeral? negative rest

/-- The digits without underscores, if each underscore stands between two digits. -/
def dropUnderscores? (previous : Char) : List Char → Option (List Char)
  | [] => some []
  | '_' :: rest =>
    match rest with
    | next :: _ =>
      if isAsciiDigit previous && isAsciiDigit next then dropUnderscores? '_' rest else none
    | [] => none
  | c :: rest => (dropUnderscores? c rest).map (c :: ·)

/-- The text in ASCII where its characters are digits or blanks of any script. -/
def plainDigits (cs : List Char) : List Char :=
  cs.map fun c =>
    match digit? c with
    | some d => Char.ofNat (48 + d)
    | none => if isBlank c then ' ' else c

def lowercase (cs : List Char) : List Char := cs.map Char.toLower

/-- The floating-point number that a text spells, between blanks. -/
def Binary64.ofText? (s : String) : Option Binary64 := do
  let cs ← dropUnderscores? ' ' (plainDigits (trim s.toList))
  let (negative, rest) := takeSign cs
  let word := String.ofList (lowercase rest)
  if word = "inf" ∨ word = "infinity" then some (.infinity negative)
  else if word = "nan" then some .nan
  else (unsignedNumeral? negative rest).map Numeral.toBinary64

/-- The integer that a text spells, between blanks. -/
def intOfText? (s : String) : Option Int := do
  let cs ← dropUnderscores? ' ' (plainDigits (trim s.toList))
  let (negative, rest) := takeSign cs
  match takeDigits rest with
  | ([], _) => none
  | (ds, []) => some (if negative then -(natOfDigits ds : Int) else natOfDigits ds)
  | _ => none

/-- The most digits that an integer may have in text. -/
def maxIntDigits : Nat := 4300

def tooLong (n : Int) : Bool := 10 ^ maxIntDigits ≤ n.natAbs

def intText (n : Int) : String :=
  String.ofList (if n < 0 then '-' :: digitsOf n.natAbs else digitsOf n.natAbs)

/-- A number as attributes show it: without a fraction where it is integral. -/
def Binary64.plainText (x : Binary64) : String :=
  if x.isInteger then intText (x.truncate?.getD 0) else x.text

end LiveSvg.Number
