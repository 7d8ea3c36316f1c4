import LiveSvg.Descriptor.Reader
import LiveSvg.Markup.Reader
import LiveSvg.Markup.Relocate
import LiveSvg.Markup.Writer
import LiveSvg.Log
/-!
Descriptors in documents. A document carries its descriptor as JSON in an element of its own; what
cannot be read counts as no descriptor.
-/

namespace LiveSvg.Document

open Markup

/-- The namespace of descriptors and tags. -/
def space : Declaration := ⟨some "tb", "https://thingsboard.io/svg"⟩

def isDescriptor (h : Head) : Bool :=
  h.name.uri == some space.uri && h.name.base == "metadata"

def unreadable : Log.Entry := Log.warning "metadata: failed to parse SVG document"

/-- The element of a document; a document that is not well-formed is logged. -/
def read (source : Source) : Log × Option (Element Unit) :=
  match Markup.read source with
  | some e => ([], some e)
  | none => ([unreadable], none)

def descriptors (e : Element ι) : List (Element ι) := e.all.filter (isDescriptor ·.head)

/-- The first descriptor of an element; two problems are not recovered from. -/
def descriptor (e : Element ι) : Log × Except Failure Descriptor :=
  match descriptors e with
  | [] => ([], .ok Descriptor.empty)
  | d :: _ =>
    match Descriptor.parse d.inner.leadingData with
    | .ok descriptor => ([], .ok descriptor)
    | .error problem =>
      let failure := problem.failure
      if failure.cause = .descriptor then
        ([Log.warning ("metadata: " ++ failure.message)], .ok Descriptor.empty)
      else ([], .error failure)

/-- The descriptor of a document. -/
def descriptorOf (source : Source) : Log × Except Failure Descriptor :=
  match read source with
  | (log, none) => (log, .ok Descriptor.empty)
  | (log, some e) =>
    let (more, result) := descriptor e
    (log ++ more, result)

/-- The content without descriptors; the data after one goes with it. -/
def dropDescriptors (removing : Bool) : Content ι → Content ι
  | .nil => .nil
  | .leaf l rest =>
    if removing && l.isData then dropDescriptors true rest else .leaf l (dropDescriptors false rest)
  | .element id head inner rest =>
    if isDescriptor head then dropDescriptors true rest
    else .element id head (dropDescriptors false inner) (dropDescriptors false rest)

/-- The outermost descriptors of the content. -/
def outermost : Content ι → List (Element ι)
  | .nil => []
  | .leaf _ rest => outermost rest
  | .element id head inner rest =>
    if isDescriptor head then ⟨id, head, inner⟩ :: outermost rest
    else outermost inner ++ outermost rest

/-- The element without the descriptors inside it. -/
def strip (e : Element ι) : Element ι := { e with inner := dropDescriptors false e.inner }

/-- The next free generated prefix once the descriptors inside an element stand alone. -/
def stripCounter (e : Element ι) : Nat :=
  (outermost e.inner).foldl (fun counter d => (d.relocate counter).2) 0

/-- Puts an element before all but the data that the content starts with. -/
def insertFirst (id : ι) (head : Head) (inner : Content ι) : Content ι → Content ι
  | .leaf l rest =>
    if l.isData then .leaf l (insertFirst id head inner rest)
    else .element id head inner (.leaf l rest)
  | rest => .element id head inner rest

/-- JSON text without the end of a section: the last sign of one is escaped. -/
def sectionSafe : List Char → List Char
  | ']' :: ']' :: '>' :: rest => [']', ']', '\x5c', 'u', '0', '0', '3', 'e'] ++ sectionSafe rest
  | c :: rest => c :: sectionSafe rest
  | [] => []

/-- The start tag of a descriptor below an element: in a namespace declared there if possible. -/
def descriptorHead (parent : Head) : Head :=
  match Scope.declarationOf? [parent.frame] space.uri with
  | some d => ⟨⟨some d, "metadata"⟩, [], []⟩
  | none => ⟨⟨some space, "metadata"⟩, [space], []⟩

/-- The prefixes that an element declares. -/
def shorts (h : Head) : List String :=
  (h.declarations.filterMap (·.short)).filter (!·.isEmpty)

/-- The element with the namespace of descriptors declared. -/
def withSpace (counter : Nat) (e : Element ι) : Element ι :=
  if Scope.uri? [e.head.frame] "tb" = some space.uri then e
  else e.declare space (shorts e.head ++ ["tb"]) counter

/-- The element with the descriptor as its only one. -/
def embed (d : Descriptor) (e : Element Unit) : Element Unit :=
  let e := withSpace (stripCounter e) (strip e)
  let body := Leaf.cdata (String.ofList (sectionSafe d.toJson.toList))
  { e with inner := insertFirst () (descriptorHead e.head) (.leaf body .nil) e.inner }

def illFormed : Failure := ⟨.illFormed, "SVG content is not well-formed XML"⟩

/-- The markup of a document with the descriptor embedded. -/
def update (content : String) (d : Descriptor) : Log × Except Failure String :=
  match read (.text content) with
  | (log, some e) => (log, .ok (embed d e).markup)
  | (log, none) => (log, .error illFormed)

end LiveSvg.Document
