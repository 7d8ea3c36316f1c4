import LiveSvg.Failure
import LiveSvg.Value.Shown
import LiveSvg.Number.Decimal
/-!
Numbers formatted for display: rounded to a number of decimals, without superfluous zeros unless
they are asked for, and with their unit.
-/

namespace LiveSvg.Display

open Number

/-- Whether a value is a number or a text that spells one; truth values and NaN are not. -/
def isNumeric : Value → Bool
  | .int _ => true
  | .float x => !x.isNaN
  | .text s => (Binary64.ofText? s).isSome
  | _ => false

/-- The text that spells a number. -/
def numberText : Value → Except Failure String
  | .int n => if tooLong n then .error Failure.hugeInteger else .ok (intText n)
  | .float x => .ok x.text
  | .text s => .ok s
  | _ => .ok ""

def roundFailure : Decimal.RoundError → Failure
  | .tooManyDigits => ⟨.undefinedDecimal, "[<class 'decimal.InvalidOperation'>]"⟩
  | .exponentTooLarge => ⟨.decimalOverflow, "[<class 'decimal.Overflow'>]"⟩

/-- How a number is to be shown. -/
structure Options where
  places : Option Int := none
  unit : String := ""
  showZeros : Bool := false

/-- The digits of a number under the options. -/
def digits (options : Options) (d : Decimal) : Except Decimal.RoundError String := do
  match options.places with
  | none => return String.ofList d.stripped
  | some places =>
    let rounded ← d.round places
    return String.ofList (if options.showZeros then rounded.plain else rounded.stripped)

def withUnit (options : Options) (digits : String) : String :=
  if options.unit.isEmpty then digits else digits ++ " " ++ options.unit

/-- The number in a text formatted; none where the text spells no decimal number. -/
def formatText (options : Options) (s : String) : Except Failure (Option String) :=
  match Decimal.ofText? s with
  | none => .ok none
  | some d =>
    match digits options d with
    | .ok ds => .ok (some (withUnit options ds))
    | .error e => .error (roundFailure e)

/-- A number of decimals: an integer, or nothing. -/
def placesOf : Value → Except Failure (Option Int)
  | .null => .ok none
  | .bool b => .ok (some (if b then 1 else 0))
  | .int n => .ok (some n)
  | _ => .error (Failure.wrongType "decimals must be an integer")

/-- The options that values give. -/
def optionsOf (places unit showZeros : Value) : Except Failure Options := do
  return ⟨← placesOf places, if unit.truthy then unit.shown else "", showZeros.truthy⟩

/-- A numeric value formatted; every other value is kept. -/
def format (value places unit showZeros : Value) : Except Failure Value := do
  if isNumeric value then
    let s ← numberText value
    if (Decimal.ofText? s).isNone then return value
    let options ← optionsOf places unit showZeros
    match ← formatText options s with
    | some shown => return .text shown
    | none => return value
  else return value

end LiveSvg.Display
