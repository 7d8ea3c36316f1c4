import LiveSvg.Value.Basic
import LiveSvg.Number.Numeral
import LiveSvg.Text.Quoted
/-!
Values as JSON text in ASCII: on one line, or with a member or item to the line.
-/

namespace LiveSvg.Json

open Number Text

/-- The `\u` escape of one UTF-16 unit. -/
def unitEscape (n : Nat) : List Char := '\x5c' :: 'u' :: hexChars 4 n

/-- One character inside the quotation marks. -/
def escapeChar (c : Char) : List Char :=
  if c = '\x22' ∨ c = '\x5c' then ['\x5c', c]
  else if c = '\n' then ['\x5c', 'n']
  else if c = '\r' then ['\x5c', 'r']
  else if c = '\t' then ['\x5c', 't']
  else if c.toNat = 8 then ['\x5c', 'b']
  else if c.toNat = 12 then ['\x5c', 'f']
  else if 32 ≤ c.toNat ∧ c.toNat < 128 then [c]
  else if c.toNat < 0x10000 then unitEscape c.toNat
  else
    let n := c.toNat - 0x10000
    unitEscape (0xd800 + n / 0x400) ++ unitEscape (0xdc00 + n % 0x400)

def textChars (s : String) : List Char := '\x22' :: s.toList.flatMap escapeChar ++ ['\x22']

def floatText : Binary64 → String
  | .nan => "NaN"
  | .infinity negative => if negative then "-Infinity" else "Infinity"
  | x => x.text

/-- How items are set: on one line, or each on a line of its own by depth. -/
inductive Layout where
  | line
  | tree

/-- What stands before an item at the depth given. -/
def Layout.lead : Layout → Nat → List Char
  | .line, _ => []
  | .tree, depth => '\n' :: List.replicate (2 * depth) ' '

/-- What stands before the items after the first. -/
def Layout.comma : Layout → Nat → List Char
  | .line, _ => [',', ' ']
  | .tree, depth => ',' :: Layout.lead .tree depth

mutual

def chars (layout : Layout) (depth : Nat) : Value → List Char
  | .null => "null".toList
  | .bool b => (if b then "true" else "false").toList
  | .int n => (intText n).toList
  | .float x => (floatText x).toList
  | .text s => textChars s
  | .list [] => ['[', ']']
  | .list (x :: xs) =>
    '[' :: (layout.lead (depth + 1) ++ (chars layout (depth + 1) x ++
      (itemChars layout (depth + 1) xs ++ (layout.lead depth ++ [']']))))
  | .object [] => ['\x7b', '\x7d']
  | .object ((k, v) :: ms) =>
    '\x7b' :: (layout.lead (depth + 1) ++ (textChars k ++ (':' :: ' ' ::
      (chars layout (depth + 1) v ++
        (memberChars layout (depth + 1) ms ++ (layout.lead depth ++ ['\x7d']))))))

def itemChars (layout : Layout) (depth : Nat) : List Value → List Char
  | [] => []
  | x :: xs => layout.comma depth ++ (chars layout depth x ++ itemChars layout depth xs)

def memberChars (layout : Layout) (depth : Nat) : List (String × Value) → List Char
  | [] => []
  | (k, v) :: ms =>
    layout.comma depth ++ (textChars k ++ (':' :: ' ' ::
      (chars layout depth v ++ memberChars layout depth ms)))

end

/-- The value on one line. -/
def line (v : Value) : String := String.ofList (chars .line 0 v)

/-- The value with two blanks of indentation to the depth. -/
def tree (v : Value) : String := String.ofList (chars .tree 0 v)

end LiveSvg.Json
