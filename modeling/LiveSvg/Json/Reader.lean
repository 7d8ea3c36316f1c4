import LiveSvg.Value.Basic
import LiveSvg.Number.Numeral
import LiveSvg.Text.Ranges
import LiveSvg.Text.Utf8
/-!
Reading JSON text. Of a repeated member the last value counts, at the place of the first. The words
`NaN`, `Infinity` and `-Infinity` are numbers too.
-/

namespace LiveSvg.Json

open Number Text

/-- Why a text is not read. -/
inductive ReadError where
  | malformed
  | tooDeep
  | hugeInteger
  deriving DecidableEq

def isSpace (c : Char) : Bool := c == ' ' || c == '\n' || c == '\r' || c == '\t'

def skipSpace (cs : List Char) : List Char := cs.dropWhile isSpace

/-- Levels of lists and objects that are read. -/
def maxDepth : Nat := 1000

/-- The number of four hexadecimal digits, and the rest. -/
def unit? : List Char → Option (Nat × List Char)
  | a :: b :: c :: d :: rest => do
    let a ← hexDigit? a
    let b ← hexDigit? b
    let c ← hexDigit? c
    let d ← hexDigit? d
    return (((a * 16 + b) * 16 + c) * 16 + d, rest)
  | _ => none

/-- The characters that a backslash and a letter stand for. -/
def simpleEscape? : Char → Option Char
  | '\x22' => some '\x22'
  | '\x5c' => some '\x5c'
  | '/' => some '/'
  | 'b' => some '\x08'
  | 'f' => some '\x0c'
  | 'n' => some '\n'
  | 'r' => some '\r'
  | 't' => some '\t'
  | _ => none

/-- A second half of a surrogate pair, and the rest. -/
def lowUnit? : List Char → Option (Nat × List Char)
  | '\x5c' :: 'u' :: rest => do
    let (n, rest) ← unit? rest
    if 0xdc00 ≤ n ∧ n ≤ 0xdfff then some (n, rest) else none
  | _ => none

/-- The rest of a text after its opening quotation mark, with its characters in reverse. -/
def readText (fuel : Nat) (done : List Char) (cs : List Char) : Except ReadError (String × List Char) :=
  match fuel with
  | 0 => .error .malformed
  | fuel + 1 =>
    match cs with
    | [] => .error .malformed
    | '\x22' :: rest => .ok (String.ofList done.reverse, rest)
    | '\x5c' :: 'u' :: rest =>
      match unit? rest with
      | none => .error .malformed
      | some (n, rest) =>
        if 0xd800 ≤ n ∧ n ≤ 0xdbff then
          match lowUnit? rest with
          | some (low, rest) =>
            readText fuel (Char.ofNat (0x10000 + (n - 0xd800) * 0x400 + (low - 0xdc00)) :: done) rest
          | none => readText fuel ('\ufffd' :: done) rest
        else if 0xdc00 ≤ n ∧ n ≤ 0xdfff then readText fuel ('\ufffd' :: done) rest
        else readText fuel (Char.ofNat n :: done) rest
    | '\x5c' :: c :: rest =>
      match simpleEscape? c with
      | some d => readText fuel (d :: done) rest
      | none => .error .malformed
    | c :: rest => if c.toNat < 32 ∨ c = '\x5c' then .error .malformed else readText fuel (c :: done) rest

/-- The fraction of a number: a point and at least one digit. -/
def takeFraction (cs : List Char) : List Char × List Char :=
  match cs with
  | '.' :: rest =>
    match takeDigits rest with
    | ([], _) => ([], cs)
    | found => found
  | _ => ([], cs)

/-- A minus sign, if there is one, and the rest. -/
def takeMinus : List Char → Bool × List Char
  | '-' :: rest => (true, rest)
  | cs => (false, cs)

/-- The digits before the point, of which only a zero alone begins with one. -/
def takeWhole : List Char → List Char × List Char
  | '0' :: rest => (['0'], rest)
  | cs => takeDigits cs

/-- A number: an integer, or a floating-point number when a fraction or an exponent follows. -/
def readNumber (cs : List Char) : Except ReadError (Value × List Char) :=
  let (negative, unsigned) := takeMinus cs
  let (whole, rest) := takeWhole unsigned
  if whole.isEmpty then .error .malformed
  else
    let (fraction, afterFraction) := takeFraction rest
    let (e?, after) := takeExponent afterFraction
    if fraction.isEmpty && e?.isNone then
      if maxIntDigits < whole.length then .error .hugeInteger
      else
        let n : Int := natOfDigits whole
        .ok (.int (if negative then -n else n), rest)
    else
      let n : Numeral := ⟨negative, natOfDigits (whole ++ fraction), e?.getD 0 - fraction.length⟩
      .ok (.float n.toBinary64, after)

/-- The words that are values. -/
def wordValues : List (List Char × Value) :=
  [("null".toList, .null), ("true".toList, .bool true), ("false".toList, .bool false),
    ("NaN".toList, .float .nan), ("Infinity".toList, .float (.infinity false)),
    ("-Infinity".toList, .float (.infinity true))]

def readWord? (cs : List Char) : Option (Value × List Char) :=
  wordValues.findSome? fun (word, v) =>
    if word.isPrefixOf cs then some (v, cs.drop word.length) else none

mutual

/-- A value that starts with the first character. -/
def readValue (fuel depth : Nat) (cs : List Char) : Except ReadError (Value × List Char) :=
  match fuel with
  | 0 => .error .malformed
  | fuel + 1 =>
    match cs with
    | '\x22' :: rest => do
      let (s, rest) ← readText (rest.length + 1) [] rest
      return (.text s, rest)
    | '[' :: rest =>
      match depth with
      | 0 => .error .tooDeep
      | depth + 1 =>
        match skipSpace rest with
        | ']' :: rest => .ok (.list [], rest)
        | rest => do
          let (items, rest) ← readItems fuel depth rest
          return (.list items, rest)
    | '\x7b' :: rest =>
      match depth with
      | 0 => .error .tooDeep
      | depth + 1 =>
        match skipSpace rest with
        | '\x7d' :: rest => .ok (.object [], rest)
        | rest => do
          let (members, rest) ← readMembers fuel depth rest
          return (.object (members.foldl (fun ms (k, v) => Value.Members.set ms k v) []), rest)
    | cs =>
      match readWord? cs with
      | some found => .ok found
      | none => readNumber cs

/-- The items of a list from the first on, and its closing bracket. -/
def readItems (fuel depth : Nat) (cs : List Char) : Except ReadError (List Value × List Char) :=
  match fuel with
  | 0 => .error .malformed
  | fuel + 1 => do
    let (v, rest) ← readValue fuel depth cs
    match skipSpace rest with
    | ',' :: rest =>
      let (vs, rest) ← readItems fuel depth (skipSpace rest)
      return (v :: vs, rest)
    | ']' :: rest => return ([v], rest)
    | _ => throw .malformed

/-- The members of an object from the first on, and its closing brace. -/
def readMembers (fuel depth : Nat) (cs : List Char) : Except ReadError (List (String × Value) × List Char) :=
  match fuel with
  | 0 => .error .malformed
  | fuel + 1 =>
    match cs with
    | '\x22' :: rest => do
      let (k, rest) ← readText (rest.length + 1) [] rest
      match skipSpace rest with
      | ':' :: rest =>
        let (v, rest) ← readValue fuel depth (skipSpace rest)
        match skipSpace rest with
        | ',' :: rest =>
          let (ms, rest) ← readMembers fuel depth (skipSpace rest)
          return ((k, v) :: ms, rest)
        | '\x7d' :: rest => return ([(k, v)], rest)
        | _ => throw .malformed
      | _ => throw .malformed
    | _ => throw .malformed

end

/-- The value that fills the text. -/
def read (s : String) : Except ReadError Value := do
  let cs := chars s
  let (v, rest) ← readValue (2 * cs.length + 2) maxDepth (skipSpace cs)
  if (skipSpace rest).isEmpty then return v else throw .malformed

end LiveSvg.Json
