import LiveSvg.Drawing.Geometry
import LiveSvg.Drawing.Key
import LiveSvg.Drawing.Style
import LiveSvg.Markup.Relocate
import LiveSvg.Markup.Tree
import LiveSvg.Markup.Writer
/-!
Drawings: trees of elements that are looked up by tag and changed in place. What is taken out of the
tree lives on by itself.
-/

namespace LiveSvg

open Markup

/-- A drawing: its tree, elements taken out of it, the next free label and generated prefix. -/
structure Drawing where
  root : Element Nat
  loose : List (Element Nat) := []
  next : Nat
  generated : Nat := 0

namespace Drawing

/-- The drawing of an element, with labels from a number on and generated prefixes from another. -/
def ofElement (e : Element ι) (first generated : Nat) : Drawing :=
  let (inner, next) := e.inner.label (first + 1)
  { root := ⟨first, e.head, inner⟩, next, generated }

/-- The element of a drawing without anything in it. -/
def blank : Element Unit :=
  let space : Declaration := ⟨none, drawingUri⟩
  ⟨(), ⟨⟨some space, "svg"⟩, [space], []⟩, .nil⟩

def find? (d : Drawing) (id : Nat) : Option (Scope × Element Nat) :=
  match d.root.find? id with
  | some found => some found
  | none => d.loose.findSome? (·.find? id)

def element? (d : Drawing) (id : Nat) : Option (Element Nat) := (d.find? id).map (·.2)

def parent? (d : Drawing) (id : Nat) : Option (Element Nat) :=
  match d.root.parent? id with
  | some found => some found
  | none => d.loose.findSome? (·.parent? id)

def update (d : Drawing) (id : Nat) (f : Head → Content Nat → Head × Content Nat) : Drawing :=
  { d with root := d.root.update id f, loose := d.loose.map (·.update id f) }

/-- The scope in which the names of an element are read. -/
def scope (d : Drawing) (id : Nat) : Scope :=
  match d.find? id with
  | some (around, e) => e.head.frame :: around
  | none => []

/-! ### Attributes -/

def attrs (d : Drawing) (id : Nat) : List Attr :=
  match d.element? id with
  | some e => e.head.attrs
  | none => []

/-- The value of an attribute in a start tag. -/
def attrOf? (h : Head) (key : Key) : Option String :=
  (h.attrs.find? fun a => key.names a.name).map (·.value)

def valueOf? (d : Drawing) (id : Nat) (key : Key) : Option String :=
  (d.element? id).bind fun e => attrOf? e.head key

/-- The value of an attribute by the name that a script gives. -/
def attr? (d : Drawing) (id : Nat) (name : String) : Except Failure (Option String) := do
  return d.valueOf? id (← Key.ofName (d.scope id) name)

/-- The attributes with one set, in its old place if it has one. -/
def setIn (key : Key) (new : Attr) : List Attr → List Attr
  | [] => [new]
  | a :: rest => if key.names a.name then new :: rest else a :: setIn key new rest

/-- Sets an attribute; a namespace without a prefix in force gets one on the element. -/
def put (d : Drawing) (id : Nat) (key : Key) (value : String) : Except Failure Drawing :=
  if !isName key.base.toList then .error (Failure.wrongValue "Invalid attribute name")
  else if !isCarried value then .error notCarried
  else
    match key.uri with
    | none =>
      .ok (d.update id fun h inner =>
        (⟨h.name, h.declarations, setIn key ⟨Name.plain key.base, value⟩ h.attrs⟩, inner))
    | some uri =>
      let (space, isNew, generated) := Scope.bindingFor (d.scope id) true uri none d.generated
      .ok { d.update id (fun h inner =>
          (⟨h.name, if isNew then h.declarations ++ [space] else h.declarations,
            setIn key ⟨⟨some space, key.base⟩, value⟩ h.attrs⟩, inner)) with generated }

def erase (d : Drawing) (id : Nat) (key : Key) : Drawing :=
  d.update id fun h inner => ({ h with attrs := h.attrs.filter fun a => !key.names a.name }, inner)

/-- Sets or removes the attribute that a script names. -/
def setAttr (d : Drawing) (id : Nat) (name : String) (value : Option String) :
    Except Failure Drawing := do
  let key ← Key.ofName (d.scope id) name
  match value with
  | some v => d.put id key v
  | none => return d.erase id key

/-! ### The tree -/

def children (d : Drawing) (id : Nat) : List Nat :=
  match d.element? id with
  | some e => e.inner.children.map (·.id)
  | none => []

/-- The kind of an element: its name without a namespace. -/
def typeOf (d : Drawing) (id : Nat) : String :=
  match d.element? id with
  | some e => e.head.name.base
  | none => ""

def text (d : Drawing) (id : Nat) : String :=
  match d.element? id with
  | some e => e.inner.data
  | none => ""

/-- Elements by themselves, one after another, each with the namespaces that it uses. -/
def release (generated : Nat) : List (Element Nat) → List (Element Nat) × Nat
  | [] => ([], generated)
  | e :: rest =>
    let (e, generated) := e.relocate generated
    let (rest, generated) := release generated rest
    (e :: rest, generated)

/-- The data that content starts with. -/
def leading : Content ι → Content ι
  | .leaf l rest => if l.isData then .leaf l (leading rest) else .nil
  | _ => .nil

/-- The drawing with an element that keeps only the data it starts with; the elements that were in
it live on by themselves. -/
def clearChildren (d : Drawing) (id : Nat) : Drawing :=
  let inside := match d.element? id with
    | some e => e.inner.children
    | none => []
  let (loose, generated) := release d.generated inside
  let d := d.update id fun h inner => (h, leading inner)
  { d with loose := d.loose ++ loose, generated }

/-- Replaces all that is in an element by a text. -/
def setText (d : Drawing) (id : Nat) (value : String) : Drawing × Except Failure Unit :=
  let d := d.clearChildren id
  if isCarried value then (d.update id fun h _ => (h, .leaf (.text value) .nil), .ok ())
  else (d.update id fun h _ => (h, .nil), .error notCarried)

/-- Adds a new element at the end of another one, in the namespace of drawings. -/
def addChild (d : Drawing) (id : Nat) (base : String) : Drawing × Nat :=
  let (space, isNew, generated) :=
    Scope.bindingFor (d.scope id) false drawingUri none d.generated
  let head : Head := ⟨⟨some space, base⟩, if isNew then [space] else [], []⟩
  let d' := d.update id fun h inner => (h, inner.append (.element d.next head .nil .nil))
  ({ d' with next := d.next + 1, generated }, d.next)

/-! ### Tags -/

/-- The elements below the root, in document order. -/
def below (d : Drawing) : List (Element Nat) := d.root.inner.elements

/-- The elements that carry a tag, with the tag. -/
def tagged (d : Drawing) : List (String × Nat) :=
  d.below.filterMap fun e => (attrOf? e.head tagKey).map fun tag => (tag, e.id)

/-- The elements that carry the tag, in document order. -/
def findByTag (d : Drawing) (tag : String) : List Nat :=
  (d.tagged.filter (·.1 == tag)).map (·.2)

/-- The number that a tag spells when it is compared with one. -/
def tagNumber? (tag : String) : Option Number.Binary64 :=
  let cs := (tag.toList.dropWhile isSpace).reverse.dropWhile isSpace |>.reverse
  let (negative, rest) := match cs with
    | '-' :: rest => (true, rest)
    | _ => (false, cs)
  (Number.unsignedNumeral? negative rest).map (·.toBinary64)

/-- The elements that a script finds by a tag of any type: numbers by what a tag spells, and truth
values by whether there is a tag. -/
def findByValue (d : Drawing) (tag : Value) : Except Failure (List Nat) :=
  match tag with
  | .text s => if isCarried s then .ok (d.findByTag s) else .error notCarried
  | .bool b =>
    .ok ((d.below.filter fun e => (attrOf? e.head tagKey).isSome == b).map (·.id))
  | .int n =>
    let x := Number.Binary64.ofInt n
    if x.isInfinite then .error ⟨.overflow, "int too large to convert to float"⟩
    else .ok (matching x)
  | .float x => .ok (matching x)
  | .null => .ok []
  | .list _ => .ok []
  | .object _ => .error ⟨.general, "Unknown return type: dict"⟩
where
  matching (x : Number.Binary64) : List Nat :=
    (d.tagged.filter fun (tag, _) => ((tagNumber? tag).map (·.same x)).getD false).map (·.2)

/-! ### The whole -/

def rootAttr? (d : Drawing) (base : String) : Option String :=
  attrOf? d.root.head ⟨none, base⟩

/-- The natural box: that of the view box, else of the width and the height. -/
def box (d : Drawing) : Box :=
  match (d.rootAttr? "viewBox").bind viewBox? with
  | some b => b
  | none =>
    match (d.rootAttr? "width").bind length?, (d.rootAttr? "height").bind length? with
    | some width, some height => { Box.zero with width, height }
    | _, _ => Box.zero

def putRoot (d : Drawing) (base value : String) : Except Failure Drawing :=
  d.put d.root.id ⟨none, base⟩ value

def style (d : Drawing) : Style :=
  match d.rootAttr? "style" with
  | some s => Style.parse s
  | none => []

/-- Writes a style to the root; an empty one is no attribute at all. -/
def putStyle (d : Drawing) (s : Style) : Except Failure Drawing :=
  if s.isEmpty then .ok (d.erase d.root.id ⟨none, "style"⟩)
  else d.putRoot "style" s.text

/-- Sets or removes one declaration of the style. -/
def setStyle (d : Drawing) (name : String) (value : Option String) : Except Failure Drawing :=
  d.putStyle (d.style.put name value)

def scaleText (factor : String) : String := "scale(" ++ factor ++ ")"

def markup (d : Drawing) : String := d.root.markup

end Drawing

end LiveSvg
