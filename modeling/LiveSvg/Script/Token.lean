import LiveSvg.Number.Numeral
import LiveSvg.Text.Identifier
import LiveSvg.Text.Ranges
/-!
Tokens of scripts. Line ends and the depth of lines are tokens too; inside brackets there are none
of them.
-/

namespace LiveSvg.Script

open Number Text

inductive Token where
  | name (s : String)
  | int (n : Nat)
  | float (x : Binary64)
  | text (s : String)
  | sign (s : String)
  | newline
  | indent
  | dedent
  deriving DecidableEq

namespace Token

/-- A numeral with underscores between digits taken out, and the rest. -/
def takeNumber (cs : List Char) : Option (Token × List Char) := do
  let digits := fun (cs : List Char) =>
    (cs.takeWhile (fun c => isAsciiDigit c || c == '_'), cs.dropWhile (fun c => isAsciiDigit c || c == '_'))
  let clean := fun (ds : List Char) => dropUnderscores? ' ' ds
  let (whole, rest) := digits cs
  let whole ← clean whole
  let (fraction, rest, hasPoint) :=
    match rest with
    | '.' :: rest =>
      let (ds, rest) := digits rest
      (ds, rest, true)
    | _ => ([], rest, false)
  let fraction ← clean fraction
  let (e?, rest) :=
    match rest with
    | c :: after =>
      if c = 'e' ∨ c = 'E' then
        let (negative, unsigned) := takeSign after
        match digits unsigned with
        | ([], _) => (none, rest)
        | (ds, rest) => (some (negative, ds), rest)
      else (none, rest)
    | [] => (none, [])
  let more := match rest with
    | c :: _ => isIdentifierPart c
    | [] => false
  if more then none
  else if hasPoint || e?.isSome then
    let e ← match e? with
      | some (negative, ds) => do
        let n : Int := natOfDigits (← clean ds)
        pure (if negative then -n else n)
      | none => pure 0
    let n : Numeral := ⟨false, natOfDigits (whole ++ fraction), e - fraction.length⟩
    return (.float n.toBinary64, rest)
  else if whole.head? == some '0' && whole.any (· ≠ '0') then none
  else if maxIntDigits < whole.length then none
  else return (.int (natOfDigits whole), rest)

/-- The characters that a backslash and a letter stand for. -/
def simpleEscape? : Char → Option Char
  | 'n' => some '\n'
  | 't' => some '\t'
  | 'r' => some '\r'
  | 'a' => some '\x07'
  | 'b' => some '\x08'
  | 'f' => some '\x0c'
  | 'v' => some '\x0b'
  | '\x5c' => some '\x5c'
  | '\x27' => some '\x27'
  | '\x22' => some '\x22'
  | _ => none

/-- A fixed number of hexadecimal digits, and the rest. -/
def takeHex (count : Nat) (cs : List Char) : Option (Nat × List Char) := do
  let ds := cs.take count
  if ds.length = count then
    return (← ds.foldlM (fun n c => do return n * 16 + (← hexDigit? c)) 0, cs.drop count)
  else none

def isOctal (c : Char) : Bool := '0' ≤ c && c ≤ '7'

/-- What a backslash before the text given stands for, and the rest. -/
def takeEscape (cs : List Char) : Option (List Char × List Char) :=
  match cs with
  | [] => none
  | '\n' :: rest => some ([], rest)
  | 'x' :: rest => (takeHex 2 rest).map fun (n, rest) => ([Char.ofNat n], rest)
  | 'u' :: rest => (takeHex 4 rest).map fun (n, rest) => ([Char.ofNat n], rest)
  | 'U' :: rest => do
    let (n, rest) ← takeHex 8 rest
    if n < 0x110000 then some ([Char.ofNat n], rest) else none
  | 'N' :: _ => none
  | c :: rest =>
    match simpleEscape? c with
    | some d => some ([d], rest)
    | none =>
      if isOctal c then
        let ds := (c :: rest).take 3 |>.takeWhile isOctal
        some ([Char.ofNat (ds.foldl (fun n c => n * 8 + (c.toNat - 48)) 0)],
          (c :: rest).drop ds.length)
      else some (['\x5c', c], rest)

/-- The characters of a text up to its closing quotation, in reverse, and the rest. -/
def takeText (fuel : Nat) (closing : List Char) (done : List Char) (cs : List Char) :
    Option (String × List Char) :=
  match fuel with
  | 0 => none
  | fuel + 1 =>
    match cs with
    | [] => none
    | '\x5c' :: rest => do
      let (found, rest) ← takeEscape rest
      takeText fuel closing (found.reverse ++ done) rest
    | c :: rest =>
      if closing.isPrefixOf cs then some (String.ofList done.reverse, cs.drop closing.length)
      else if c = '\n' ∧ closing.length = 1 then none
      else takeText fuel closing (c :: done) rest

/-- A text after its opening quotation mark: three marks open one that may span lines. -/
def takeQuoted (mark : Char) (cs : List Char) : Option (Token × List Char) := do
  let (s, rest) ←
    if [mark, mark].isPrefixOf cs then takeText (cs.length + 1) [mark, mark, mark] [] (cs.drop 2)
    else takeText (cs.length + 1) [mark] [] cs
  return (.text s, rest)

/-- The signs of more than one character, longest first. -/
def longSigns : List String :=
  ["**=", "//=", ">>=", "<<=", "...", "==", "!=", "<=", ">=", "->", ":=", "+=", "-=", "*=", "/=", "%=",
    "&=", "|=", "^=", "@=", "**", "//", "<<", ">>"]

def shortSigns : List Char :=
  ['+', '-', '*', '/', '%', '(', ')', '[', ']', '\x7b', '\x7d', ',', ':', '.', '=', '<', '>', ';',
    '@', '&', '|', '^', '~']

def takeSigns (cs : List Char) : Option (String × List Char) :=
  match longSigns.find? fun s => s.toList.isPrefixOf cs with
  | some s => some (s, cs.drop s.length)
  | none =>
    match cs with
    | c :: rest => if shortSigns.contains c then some (c.toString, rest) else none
    | [] => none

/-- How deep a line stands: with tabs as wide as eight columns, and as one. -/
structure Depth where
  wide : Nat
  narrow : Nat
  deriving DecidableEq

/-- The depth of a line, and its text. -/
def takeDepth (d : Depth) : List Char → Depth × List Char
  | ' ' :: rest => takeDepth ⟨d.wide + 1, d.narrow + 1⟩ rest
  | '\t' :: rest => takeDepth ⟨(d.wide / 8 + 1) * 8, d.narrow + 1⟩ rest
  | '\x0c' :: rest => takeDepth ⟨0, 0⟩ rest
  | cs => (d, cs)

/-- The tokens for a line at a depth, and the depths then open. -/
def enter (d : Depth) : List Depth → Option (List Token × List Depth)
  | [] => none
  | top :: below =>
    if d.wide = top.wide then if d.narrow = top.narrow then some ([], top :: below) else none
    else if top.wide < d.wide then
      if top.narrow < d.narrow then some ([.indent], d :: top :: below) else none
    else (enter d below).bind fun (tokens, depths) =>
      if tokens = [.indent] then none else some (.dedent :: tokens, depths)

/-- Brackets that may be open at once. -/
def maxBrackets : Nat := 200

/-- Where the reading of tokens stands: brackets open, depths open, and at the start of a line. -/
structure State where
  brackets : Nat := 0
  depths : List Depth := [⟨0, 0⟩]
  fresh : Bool := true

/-- Whether a line holds nothing but a comment. -/
def isIdle (cs : List Char) : Bool :=
  match cs with
  | [] => true
  | '\n' :: _ => true
  | '#' :: _ => true
  | _ => false

def isOpening (s : String) : Bool := s == "(" || s == "[" || s == "\x7b"

def isClosing (s : String) : Bool := s == ")" || s == "]" || s == "\x7d"

/-- The tokens of a text. -/
def read (fuel : Nat) (st : State) (cs : List Char) : Option (List Token) :=
  match fuel with
  | 0 => none
  | fuel + 1 =>
    if st.fresh && st.brackets == 0 then
      let (d, rest) := takeDepth ⟨0, 0⟩ cs
      if isIdle rest then
        match rest.dropWhile (· ≠ '\n') with
        | _ :: rest => read fuel st rest
        | [] => some (List.replicate (st.depths.length - 1) .dedent)
      else do
        let (tokens, depths) ← enter d st.depths
        return tokens ++ (← read fuel { st with depths, fresh := false } rest)
    else
      match cs with
      | [] => if st.brackets = 0 then read fuel { st with fresh := true } [] else none
      | '\n' :: rest =>
        if st.brackets = 0 then do
          return .newline :: (← read fuel { st with fresh := true } rest)
        else read fuel st rest
      | '#' :: rest => read fuel st (rest.dropWhile (· ≠ '\n'))
      | '\x5c' :: '\n' :: rest => if rest.isEmpty then none else read fuel st rest
      | c :: rest =>
        if c = ' ' ∨ c = '\t' ∨ c = '\x0c' then read fuel st rest
        else if c = '\x22' ∨ c = '\x27' then do
          let (t, rest) ← takeQuoted c rest
          return t :: (← read fuel st rest)
        else if isIdentifierStart c then do
          let word := cs.takeWhile isIdentifierPart
          return .name (String.ofList word) :: (← read fuel st (cs.dropWhile isIdentifierPart))
        else if isAsciiDigit c || (c == '.' && (rest.head?.map isAsciiDigit).getD false) then do
          let (t, rest) ← takeNumber cs
          return t :: (← read fuel st rest)
        else do
          let (s, rest) ← takeSigns cs
          if isOpening s then
            if st.brackets ≥ maxBrackets then none
            else return .sign s :: (← read fuel { st with brackets := st.brackets + 1 } rest)
          else if isClosing s then
            if st.brackets = 0 then none
            else return .sign s :: (← read fuel { st with brackets := st.brackets - 1 } rest)
          else return .sign s :: (← read fuel st rest)

end Token

end LiveSvg.Script
