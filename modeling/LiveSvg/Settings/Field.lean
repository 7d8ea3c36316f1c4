import LiveSvg.Value.Basic
import LiveSvg.Number.Numeral
/-!
Fields of settings: which values are taken for one, leniently, and under which keys it is found.
-/

namespace LiveSvg.Settings

open Number Text

/-- Blanks that may surround a number. -/
def isPadding (c : Char) : Bool := isBlank c && !(28 ≤ c.toNat && c.toNat ≤ 31)

def unpadded (s : String) : List Char :=
  ((s.toList.dropWhile isPadding).reverse.dropWhile isPadding).reverse

/-- The characters without underscores, unless one stands at an end or beside another. -/
def dropSingleUnderscores? (cs : List Char) : Option (List Char) :=
  let rec paired : List Char → Bool
    | '_' :: '_' :: _ => true
    | _ :: rest => paired rest
    | [] => false
  if cs.head? == some '_' || cs.getLast? == some '_' || paired cs then none
  else some (cs.filter (· ≠ '_'))

/-- The text without a point and zeros at its end. -/
def dropZeroFraction (cs : List Char) : List Char :=
  match splitFirst '.' cs with
  | some (whole, zeros) => if !zeros.isEmpty && zeros.all (· == '0') then whole else cs
  | none => cs

/-- An integer in text, with a sign, single underscores and a fraction of zeros allowed; after a
minus no zero stands before other digits. -/
def intOfText? (s : String) : Option Int := do
  let (negative, cs) := takeSign (unpadded s)
  match negative, takeDigits (← dropSingleUnderscores? (dropZeroFraction cs)) with
  | _, ([], _) => none
  | true, ('0' :: _ :: _, []) => none
  | true, (ds, []) => some (-(natOfDigits ds : Int))
  | false, (ds, []) => some (natOfDigits ds)
  | _, _ => none

def floatOfText? (s : String) : Option Binary64 := do
  let cs ← dropSingleUnderscores? (unpadded s)
  let (negative, rest) := takeSign cs
  let word := String.ofList (lowercase rest)
  if word = "inf" ∨ word = "infinity" then some (.infinity negative)
  else if word = "nan" then some .nan
  else (unsignedNumeral? negative rest).map Numeral.toBinary64

def int? : Value → Option Int
  | .int n => some n
  | .bool b => some (if b then 1 else 0)
  | .float x =>
    if x.isInteger then
      match x.truncate? with
      | some n => if n.natAbs < 2 ^ (63 : Nat) then some n else none
      | none => none
    else none
  | .text s => intOfText? s
  | _ => none

/-- The words for truth values, in any case. -/
def boolWord? (s : String) : Option Bool :=
  let word := String.ofList (lowercase s.toList)
  if ["true", "t", "yes", "y", "on", "1"].contains word then some true
  else if ["false", "f", "no", "n", "off", "0"].contains word then some false
  else none

def bool? : Value → Option Bool
  | .bool b => some b
  | .text s => boolWord? s
  | .int n => if n = 0 then some false else if n = 1 then some true else none
  | .float x =>
    if x.same (Binary64.ofInt 0) then some false
    else if x.same (Binary64.ofInt 1) then some true
    else none
  | _ => none

def float? : Value → Option Binary64
  | .float x => some x
  | .int n =>
    let x := Binary64.ofInt n
    if x.isInfinite then none else some x
  | .bool b => some (Binary64.ofInt (if b then 1 else 0))
  | .text s => floatOfText? s
  | _ => none

def text? : Value → Option String
  | .text s => some s
  | _ => none

/-- Nothing, or what the reader takes. -/
def optional? (read : Value → Option α) : Value → Option (Option α)
  | .null => some none
  | v => (read v).map some

def oneOf? (words : List String) : Value → Option String
  | .text s => if words.contains s then some s else none
  | _ => none

def any? (v : Value) : Option Value := some v

/-- A field under its key, or under its other name where the key is absent. -/
def field? (ms : List (String × Value)) (key name : String) (read : Value → Option α) (default : α) :
    Option α :=
  match Value.Members.get? ms key with
  | some v => read v
  | none =>
    match Value.Members.get? ms name with
    | some v => read v
    | none => some default

def required? (ms : List (String × Value)) (key name : String) (read : Value → Option α) : Option α :=
  match Value.Members.get? ms key with
  | some v => read v
  | none => (Value.Members.get? ms name).bind read

def hasKey (ms : List (String × Value)) (key : String) : Bool := ms.any (·.1 == key)

/-- The members that no field took. -/
def extras (ms : List (String × Value)) (keys : List (String × String)) : List (String × Value) :=
  ms.filter fun (k, _) =>
    !keys.any fun (key, name) => k == key || (k == name && !hasKey ms key)

def members? : Value → Option (List (String × Value))
  | .object ms => some ms
  | _ => none

end LiveSvg.Settings
