/-!
Documents of markup: elements with namespaces and attributes, and what stands between them. Names
keep the declaration that they are bound to.
-/

namespace LiveSvg.Markup

/-- A namespace declaration: the default one has no prefix. -/
structure Declaration where
  short : Option String
  uri : String
  deriving DecidableEq

/-- A name, and the declaration of its namespace if it is in one. -/
structure Name where
  space : Option Declaration
  base : String
  deriving DecidableEq

namespace Name

def plain (base : String) : Name := ⟨none, base⟩

def uri (n : Name) : Option String := n.space.map (·.uri)

/-- Whether two names are the same one, however their namespace is abbreviated. -/
def agrees (n m : Name) : Bool := n.uri == m.uri && n.base == m.base

/-- The name as it is written. -/
def written (n : Name) : String :=
  match n.space with
  | some ⟨some short, _⟩ => short ++ ":" ++ n.base
  | _ => n.base

/-- The name with its namespace in full. -/
def expanded (n : Name) : String :=
  match n.space with
  | some d => "\x7b" ++ d.uri ++ "\x7d" ++ n.base
  | none => n.base

end Name

structure Attr where
  name : Name
  value : String
  deriving DecidableEq

/-- What a start tag says. -/
structure Head where
  name : Name
  declarations : List Declaration
  attrs : List Attr
  deriving DecidableEq

/-- What stands in an element beside elements. -/
inductive Leaf where
  | text (s : String)
  | cdata (s : String)
  | comment (s : String)
  | instruction (target body : String)
  deriving DecidableEq

/-- The text of a leaf, where it is character data. -/
def Leaf.data? : Leaf → Option String
  | .text s => some s
  | .cdata s => some s
  | _ => none

def Leaf.isData (l : Leaf) : Bool := l.data?.isSome

/-- The content of an element, in order; elements carry a label. -/
inductive Content (ι : Type) where
  | nil
  | leaf (l : Leaf) (rest : Content ι)
  | element (id : ι) (head : Head) (inner rest : Content ι)

/-- An element by itself. -/
structure Element (ι : Type) where
  id : ι
  head : Head
  inner : Content ι

namespace Content

def append : Content ι → Content ι → Content ι
  | .nil, c => c
  | .leaf l rest, c => .leaf l (append rest c)
  | .element id head inner rest, c => .element id head inner (append rest c)

/-- All character data, in order. -/
def data : Content ι → String
  | .nil => ""
  | .leaf l rest => l.data?.getD "" ++ data rest
  | .element _ _ inner rest => data inner ++ data rest

/-- The character data that the content starts with. -/
def leadingData : Content ι → String
  | .leaf l rest =>
    match l.data? with
    | some s => s ++ leadingData rest
    | none => ""
  | _ => ""

/-- The elements of the content and of what is inside them, in document order. -/
def elements : Content ι → List (Element ι)
  | .nil => []
  | .leaf _ rest => elements rest
  | .element id head inner rest => ⟨id, head, inner⟩ :: (elements inner ++ elements rest)

/-- The elements of the content itself. -/
def children : Content ι → List (Element ι)
  | .nil => []
  | .leaf _ rest => children rest
  | .element id head inner rest => ⟨id, head, inner⟩ :: children rest

/-- The content with elements labelled in document order, and the next free label. -/
def label (next : Nat) : Content ι → Content Nat × Nat
  | .nil => (.nil, next)
  | .leaf l rest =>
    let (rest, next) := label next rest
    (.leaf l rest, next)
  | .element _ head inner rest =>
    let (inner, after) := label (next + 1) inner
    let (rest, after) := label after rest
    (.element next head inner rest, after)

end Content

namespace Element

/-- The element and all elements inside it, in document order. -/
def all (e : Element ι) : List (Element ι) := e :: e.inner.elements

end Element

end LiveSvg.Markup
