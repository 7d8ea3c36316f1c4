import LiveSvg.Markup.Basic
/-!
Namespaces in scope: the declarations of an element and of those around it, nearest first.
-/

namespace LiveSvg.Markup

/-- Where the addresses of the standard namespaces begin. -/
def standardBase : String := "http://www.w3.org/"

def xmlUri : String := standardBase ++ "XML/1998/namespace"

def xmlnsUri : String := standardBase ++ "2000/xmlns/"

/-- Standard namespaces that go by one prefix wherever they need one. -/
def customaryPrefixes : List (String × String) :=
  [("1999/xhtml", "html"), ("1999/XSL/Transform", "xsl"), ("1999/02/22-rdf-syntax-ns#", "rdf"),
    ("2001/XMLSchema", "xs"), ("2001/XMLSchema-instance", "xsi")]

def customaryPrefix? (uri : String) : Option String :=
  (customaryPrefixes.find? fun (name, _) => standardBase ++ name == uri).map (·.2)

/-- What an element contributes to a scope: its declarations and its own namespace. -/
structure Frame where
  declarations : List Declaration
  space : Option Declaration

/-- The elements around a place, nearest first. -/
abbrev Scope := List Frame

def Head.frame (h : Head) : Frame := ⟨h.declarations, h.name.space⟩

def Frame.declares (f : Frame) (short : Option String) : Bool :=
  f.declarations.any (·.short == short)

namespace Scope

/-- The declaration that a prefix, or its absence, stands for. -/
def find? (scope : Scope) (short : Option String) : Option Declaration :=
  scope.findSome? fun f => f.declarations.find? (·.short == short)

/-- The address that a prefix stands for. -/
def uri? (scope : Scope) (short : String) : Option String :=
  (scope.find? (some short)).map (·.uri)

/-- Whether a declaration is in force under the frames that are nearer than its own. -/
def visible (nearer : Scope) (d : Declaration) : Bool := !nearer.any (·.declares d.short)

/-- The first declaration of an address in force: nearest first, and in an element in the order of
writing, the element's own namespace last. -/
def byUri? (nearer : Scope) (uri : String) (accept : Declaration → Bool) :
    Scope → Option Declaration
  | [] => none
  | f :: outer =>
    let own := if nearer.isEmpty then [] else f.space.toList
    match (f.declarations ++ own).find? fun d => d.uri == uri && accept d && visible nearer d with
    | some d => some d
    | none => byUri? (nearer ++ [f]) uri accept outer

/-- The declaration in force for an address, default ones included. -/
def declarationOf? (scope : Scope) (uri : String) : Option Declaration :=
  byUri? [] uri (fun _ => true) scope

/-- The declaration with a prefix in force for an address. -/
def prefixedFor? (scope : Scope) (uri : String) : Option Declaration :=
  if uri = xmlUri then some ⟨some "xml", xmlUri⟩
  else byUri? [] uri (·.short.isSome) scope

end Scope

end LiveSvg.Markup
