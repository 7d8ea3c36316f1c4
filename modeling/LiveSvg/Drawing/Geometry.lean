import LiveSvg.Failure
import LiveSvg.Value.Basic
import LiveSvg.Number.Numeral
/-!
Lengths, boxes and sizes as drawings write them.
-/

namespace LiveSvg.Drawing

open Number Text

/-- A rectangle along the axes. -/
structure Box where
  x : Binary64
  y : Binary64
  width : Binary64
  height : Binary64
  deriving DecidableEq

def Box.zero : Box :=
  let o := Binary64.zero false
  ⟨o, o, o, o⟩

def Box.isEmpty (b : Box) : Bool :=
  b.width.atMost (Binary64.zero false) || b.height.atMost (Binary64.zero false)

/-- An optional minus and digits, with a fraction after a point or only that, and the rest. -/
def takeLength (cs : List Char) : Option (Numeral × List Char) :=
  let (negative, cs) :=
    match cs with
    | '-' :: rest => (true, rest)
    | _ => (false, cs)
  match takeDigits cs with
  | ([], '.' :: rest) =>
    match takeDigits rest with
    | ([], _) => none
    | (ds, rest) => some (⟨negative, natOfDigits ds, -(ds.length : Int)⟩, rest)
  | ([], _) => none
  | (whole, '.' :: rest) =>
    match takeDigits rest with
    | ([], _) => none
    | (ds, rest) => some (⟨negative, natOfDigits (whole ++ ds), -(ds.length : Int)⟩, rest)
  | (whole, rest) => some (⟨negative, natOfDigits whole, 0⟩, rest)

/-- An absolute length: a number, alone or in pixels. -/
def length? (s : String) : Option Binary64 := do
  let (n, rest) ← takeLength (plainDigits (trim s.toList))
  let unit := trim rest
  if unit = [] ∨ unit = ['p', 'x'] then some n.toBinary64 else none

/-- Four numbers between blanks or commas. -/
def viewBox? (s : String) : Option Box :=
  match words (s.toList.map fun c => if c = ',' then ' ' else c) with
  | [x, y, width, height] => do
    return ⟨← Binary64.ofText? (String.ofList x), ← Binary64.ofText? (String.ofList y),
      ← Binary64.ofText? (String.ofList width), ← Binary64.ofText? (String.ofList height)⟩
  | _ => none

/-- A width and a height around an `x`; neither may be zero or less. -/
def size? (s : String) : Option (Binary64 × Binary64) :=
  match splitAt 'x' (lowercase s.toList) with
  | [width, height] => do
    let width ← Binary64.ofText? (String.ofList width)
    let height ← Binary64.ofText? (String.ofList height)
    let zero := Binary64.zero false
    if width.atMost zero || height.atMost zero then none else some (width, height)
  | _ => none

/-- A number as an attribute shows it; a text counts if it spells one. -/
def numberText : Value → Except Failure String
  | .bool b => .ok (if b then "1" else "0")
  | .int n =>
    if (Binary64.ofInt n).isInfinite then
      .error ⟨.overflow, "int too large to convert to float"⟩
    else .ok (intText n)
  | .float x => .ok x.plainText
  | .text s =>
    match Binary64.ofText? s with
    | none => .error (Failure.wrongValue ("could not convert string to float: " ++ s))
    | some x =>
      if x.isInteger then
        match intOfText? s with
        | some n => .ok (intText n)
        | none => .error (Failure.wrongValue ("invalid literal for int() with base 10: " ++ s))
      else .ok x.text
  | _ => .error (Failure.wrongType "float() argument must be a string or a real number")

end LiveSvg.Drawing
