import LiveSvg.Value.Basic
import LiveSvg.Text.Blank
/-!
Style attributes: declarations of a name and a value, of which the last of each name counts.
-/

namespace LiveSvg.Drawing

open Text

/-- Declarations in the order of their first mention, each name once. -/
abbrev Style := List (String × String)

namespace Style

/-- A name, a colon and a value; nothing else declares. -/
def declaration? (cs : List Char) : Option (String × String) := do
  let (name, value) ← splitFirst ':' cs
  let name := trim name
  if name.isEmpty then none else some (String.ofList name, String.ofList (trim value))

def parse (s : String) : Style :=
  (splitAt ';' s.toList).foldl (fun style part =>
    match declaration? part with
    | some (name, value) => Value.Members.set style name value
    | none => style) []

def text (style : Style) : String :=
  "; ".intercalate (style.map fun (name, value) => name ++ ": " ++ value)

def get? (style : Style) (name : String) : Option String := Value.Members.get? style name

/-- The style with a declaration set, or removed when no value is given. -/
def put (style : Style) (name : String) (value : Option String) : Style :=
  match value with
  | some v => Value.Members.set style name v
  | none => Value.Members.erase style name

end Style

end LiveSvg.Drawing
