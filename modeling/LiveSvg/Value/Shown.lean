import LiveSvg.Value.Basic
import LiveSvg.Number.Numeral
import LiveSvg.Text.Quoted
/-!
Values as texts: a text as it is, everything else in the notation of scripts.
-/

namespace LiveSvg.Value

open Number Text

mutual

/-- The notation of a value, with texts in quotation marks. -/
def notated : Value → String
  | .null => "None"
  | .bool b => if b then "True" else "False"
  | .int n => intText n
  | .float x => x.text
  | .text s => quoted s
  | .list xs => "[" ++ ", ".intercalate (notatedItems xs) ++ "]"
  | .object ms => "\x7b" ++ ", ".intercalate (notatedMembers ms) ++ "\x7d"

def notatedItems : List Value → List String
  | [] => []
  | x :: xs => notated x :: notatedItems xs

def notatedMembers : List (String × Value) → List String
  | [] => []
  | (k, v) :: ms => (quoted k ++ ": " ++ notated v) :: notatedMembers ms

end

/-- The text of a value. -/
def shown : Value → String
  | .text s => s
  | v => v.notated

end LiveSvg.Value
