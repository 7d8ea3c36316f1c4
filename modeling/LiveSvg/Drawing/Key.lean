import LiveSvg.Document
import LiveSvg.Failure
import LiveSvg.Markup.Chars
/-!
Names of attributes as scripts give them: plain, with a prefix, or with the address of a namespace
in braces before them.
-/

namespace LiveSvg.Drawing

open Markup

/-- The namespace of drawings. -/
def drawingUri : String := "http://www.w3.org/2000/svg"

/-- Prefixes that scripts may use whether or not the document declares them. -/
def knownPrefixes : List (String × String) :=
  [("tb", Document.space.uri), ("xlink", "http://www.w3.org/1999/xlink"), ("svg", drawingUri)]

/-- A name with the address of its namespace, if it is in one. -/
structure Key where
  uri : Option String
  base : String
  deriving DecidableEq

/-- The key of the names of tags. -/
def tagKey : Key := ⟨some Document.space.uri, "tag"⟩

/-- Whether markup can carry a text. -/
def isCarried (s : String) : Bool := s.toList.all isMarkupChar

def notCarried : Failure :=
  Failure.wrongValue "All strings must be XML compatible: Unicode or ASCII, no NULL bytes or control characters"

namespace Key

/-- What a name with braces or without them says. -/
def ofText (s : String) : Except Failure Key :=
  if !isCarried s then .error notCarried
  else
    match s.toList with
    | [] => .error (Failure.wrongValue "Empty tag name")
    | '\x7b' :: rest =>
      match Text.splitFirst '\x7d' rest with
      | none => .error (Failure.wrongValue "Invalid tag name")
      | some (_, []) => .error (Failure.wrongValue "Empty tag name")
      | some ([], base) => .ok ⟨none, String.ofList base⟩
      | some (uri, base) => .ok ⟨some (String.ofList uri), String.ofList base⟩
    | cs => .ok ⟨none, String.ofList cs⟩

/-- A name with its prefix made out, where the scope or the known prefixes tell what it stands for. -/
def qualify (scope : Scope) (name : String) : String :=
  match Text.splitFirst ':' name.toList with
  | none => name
  | some (short, base) =>
    let short := String.ofList short
    let found := ((scope.uri? short).filter (!·.isEmpty)).or (Value.Members.get? knownPrefixes short)
    match found with
    | some uri => "\x7b" ++ uri ++ "\x7d" ++ String.ofList base
    | none => name

/-- The key that a script means by a name. -/
def ofName (scope : Scope) (name : String) : Except Failure Key := ofText (qualify scope name)

def names (k : Key) (n : Name) : Bool := n.uri == k.uri && n.base == k.base

end Key

end LiveSvg.Drawing
