import LiveSvg.Markup.Scope
import LiveSvg.Number.Numeral
/-!
Declarations that a document does not need: those of an address that is in force already, whose
names move to the outer declaration, and those that no name uses.
-/

namespace LiveSvg.Markup

/-- Each declaration around a place with the one that stands for it now, nearest first. -/
abbrev Replacements := List (Declaration × Declaration)

/-- What is declared on the outermost element along the way, and the next free generated prefix. -/
structure Supply where
  added : List Declaration := []
  counter : Nat := 0

def generated (n : Nat) : String := "ns" ++ Number.intText n

/-- A prefix not in use in the scope, tried from the counter on. -/
def freshShort (scope : Scope) (counter : Nat) : Nat → String × Nat
  | 0 => (generated counter, counter + 1)
  | fuel + 1 =>
    if (scope.find? (some (generated counter))).isSome then freshShort scope (counter + 1) fuel
    else (generated counter, counter + 1)

def Scope.size (scope : Scope) : Nat :=
  scope.foldl (fun n f => n + f.declarations.length) 0

/-- The declaration in force for an address; attributes need one with a prefix. -/
def Scope.inForce? (scope : Scope) (isAttr : Bool) (uri : String) : Option Declaration :=
  if isAttr || uri == xmlUri then scope.prefixedFor? uri else scope.declarationOf? uri

/-- The declaration for names of an address, whether it is a new one, and the next free generated
prefix: one in force, or one with the prefix wanted or customary, or else with a generated one. -/
def Scope.bindingFor (scope : Scope) (isAttr : Bool) (uri : String) (wanted : Option String)
    (counter : Nat) : Declaration × Bool × Nat :=
  match scope.inForce? isAttr uri with
  | some d => (d, false, counter)
  | none =>
    match (wanted.or (customaryPrefix? uri)).filter fun short =>
        (scope.find? (some short)).isNone && short ≠ "xml" with
    | some short => (⟨some short, uri⟩, true, counter)
    | none =>
      let (short, counter) := freshShort scope counter scope.size
      (⟨some short, uri⟩, true, counter)

/-- The outermost frame with what has been added to it. -/
def Supply.extend (s : Supply) (root : Frame) : Frame :=
  { root with declarations := root.declarations ++ s.added }

/-- What stands for a declaration; for attributes with a prefix only what has one. -/
def replacement? (table : Replacements) (isAttr : Bool) (d : Declaration) : Option Declaration :=
  (table.find? fun (old, new) =>
    old == d && !(isAttr && old.short.isSome && new.short.isNone)).map (·.2)

/-- A name under replacements; one whose declaration is out of reach gets one on the outermost
element. -/
def relocateName (root : Frame) (table : Replacements) (s : Supply) (isAttr : Bool) (n : Name) :
    Name × Supply :=
  match n.space with
  | none => (n, s)
  | some old =>
    match replacement? table isAttr old with
    | some new => (⟨some new, n.base⟩, s)
    | none =>
      let (d, isNew, counter) := Scope.bindingFor [s.extend root] isAttr old.uri old.short s.counter
      (⟨some d, n.base⟩, ⟨if isNew then s.added ++ [d] else s.added, counter⟩)

def relocateAttrs (root : Frame) (table : Replacements) (s : Supply) : List Attr → List Attr × Supply
  | [] => ([], s)
  | a :: rest =>
    let (name, s) := relocateName root table s true a.name
    let (rest, s) := relocateAttrs root table s rest
    (⟨name, a.value⟩ :: rest, s)

/-- A start tag without the declarations that the scope around it makes needless. -/
def relocateHead (root : Frame) (around : Scope) (table : Replacements) (s : Supply) (h : Head) :
    Head × Replacements × Supply :=
  let outer := around ++ [s.extend root]
  let pairs := h.declarations.map fun d => (d, (outer.declarationOf? d.uri).getD d)
  let kept := h.declarations.filter fun d => (outer.declarationOf? d.uri).isNone
  let table := pairs ++ table
  let (name, s) := relocateName root table s false h.name
  let (attrs, s) := relocateAttrs root table s h.attrs
  (⟨name, kept, attrs⟩, table, s)

/-- The content with needless declarations gone and names moved to those in force. -/
def Content.relocate (root : Frame) (around : Scope) (table : Replacements) (s : Supply) :
    Content ι → Content ι × Supply
  | .nil => (.nil, s)
  | .leaf l rest =>
    let (rest, s) := relocate root around table s rest
    (.leaf l rest, s)
  | .element id head inner rest =>
    let (head, table', s) := relocateHead root around table s head
    let (inner, s) := relocate root (head.frame :: around) table' s inner
    let (rest, s) := relocate root around table s rest
    (.element id head inner rest, s)

/-- Whether a start tag has a name in the namespace as declared there. -/
def Head.uses (h : Head) (d : Declaration) : Bool :=
  h.name.space == some d || h.attrs.any (·.name.space == some d)

/-- Whether the content has a name bound to a declaration made around it. -/
def Content.uses (d : Declaration) : Content ι → Bool
  | .nil => false
  | .leaf _ rest => uses d rest
  | .element _ head inner rest =>
    (!head.declarations.contains d && (head.uses d || uses d inner)) || uses d rest

/-- A start tag without declarations that nothing uses, but for the prefixes to keep. -/
def Head.prune (keep : List String) (inner : Content ι) (h : Head) : Head :=
  { h with declarations := h.declarations.filter fun d =>
      (match d.short with
        | some short => keep.contains short
        | none => false) || h.uses d || inner.uses d }

def Content.prune (keep : List String) : Content ι → Content ι
  | .nil => .nil
  | .leaf l rest => .leaf l (prune keep rest)
  | .element id head inner rest =>
    .element id (head.prune keep inner) (prune keep inner) (prune keep rest)

namespace Element

/-- The element as one that nothing stands around: it declares what it uses, and what is needless
inside it is gone. Also gives the next free generated prefix. -/
def relocate (counter : Nat) (e : Element ι) : Element ι × Nat :=
  let table := e.head.declarations.map fun d => (d, d)
  let (name, s) := relocateName e.head.frame table ⟨[], counter⟩ false e.head.name
  let (attrs, s) := relocateAttrs e.head.frame table s e.head.attrs
  let (inner, s) := e.inner.relocate ⟨e.head.declarations, name.space⟩ [] table s
  (⟨e.id, ⟨name, e.head.declarations ++ s.added, attrs⟩, inner⟩, s.counter)

def prune (keep : List String) (e : Element ι) : Element ι :=
  ⟨e.id, e.head.prune keep e.inner, e.inner.prune keep⟩

/-- Declares a namespace on an element, unless it declares the prefix already, and clears the
declarations that are then needless. -/
def declare (d : Declaration) (keep : List String) (counter : Nat) (e : Element ι) : Element ι :=
  let declarations :=
    if e.head.declarations.any (·.short == d.short) then e.head.declarations
    else e.head.declarations ++ [d]
  let (e, _) := relocate counter { e with head := { e.head with declarations } }
  e.prune keep

end Element

end LiveSvg.Markup
