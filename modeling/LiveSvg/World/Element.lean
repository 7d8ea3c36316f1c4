import LiveSvg.Script.Evaluate
import LiveSvg.World.Basic
/-!
What scripts can do with elements: read and write attributes and text, listen for events and send
them.
-/

namespace LiveSvg

open Script (Datum Act View Operation.textOf)

/-- How acts are run; a script that is called runs one level further down. -/
abbrev Player := Act Datum → Run Datum

/-- Calls whatever can be called. -/
def Player.call (play : Player) (f : Datum) (args : List Datum) : Run Datum :=
  play (Script.callDatum f args)

namespace World

/-- The text of an attribute: none removes it. -/
def attrText (v : View) (d : Datum) : Except Failure (Option String) :=
  match d with
  | .null => .ok none
  | .text s => .ok (some s)
  | .bool b => .ok (some (if b then "true" else "false"))
  | .float x => .ok (some x.plainText)
  | d => (Operation.textOf v d).map some

/-- The name of an attribute, which is a text. -/
def nameText (d : Datum) : Except Failure String :=
  match d with
  | .text s => .ok s
  | d => .error (Failure.wrongType ("argument of type '" ++ d.typeName ++ "' is not iterable"))

def optionalText : Option String → Datum
  | some s => .text s
  | none => .null

def element (id : Nat) : Datum := .entity (.element id)

end World

namespace Run

open World (attrText nameText optionalText element)

def getAttr (id : Nat) (name : Datum) : Run Datum := do
  let d ← drawing "node"
  return optionalText (← ofExcept (d.attr? id (← ofExcept (nameText name))))

def setAttr (id : Nat) (name value : Datum) : Run Unit := do
  let d ← drawing "node"
  let name ← ofExcept (nameText name)
  let text ← ofExcept (attrText (← view) value)
  setDrawing (← ofExcept (d.setAttr id name text))

/-- All attributes of an element. -/
def allAttrs (id : Nat) : Run Datum := do
  let d ← drawing "node"
  create (.object ((d.attrs id).map fun a => (.text a.name.expanded, .text a.value)))

/-- Reads all attributes or one, or sets one or several. -/
def attr (id : Nat) (args : List Datum) : Run Datum := do
  match args with
  | [] => allAttrs id
  | name :: more =>
    match name, (← view).members? name, more with
    | .null, _, _ => allAttrs id
    | _, some members, _ =>
      members.forM fun (k, d) => setAttr id k d
      return element id
    | _, none, [] => getAttr id name
    | _, none, [value] =>
      setAttr id name value
      return element id
    | _, _, _ => wrong "attr() takes from 1 to 3 positional arguments"

def children (id : Nat) : Run Datum := do
  newList (((← drawing "node").children id).map element)

def parent (id : Nat) : Run Datum := do
  match (← drawing "node").parent? id with
  | some e => return element e.id
  | none => return .null

/-- Replaces what is in an element by a text; where there is none to put, it is gone all the same. -/
def putText (id : Nat) (text : Except Failure String) : Run Unit := do
  let d ← drawing "node"
  match text with
  | .ok s =>
    let (d, result) := d.setText id s
    setDrawing d
    ofExcept result
  | .error f =>
    setDrawing (d.clearChildren id)
    throw f

/-- Replaces what is in an element by the text of a value. -/
def setText (id : Nat) (value : Datum) : Run Unit := do
  match value with
  | .null => putText id (.ok "")
  | d => putText id (Operation.textOf (← view) d)

def text (id : Nat) (args : List Datum) : Run Datum := do
  match args with
  | [] => return .text ((← drawing "node").text id)
  | [value] =>
    setText id value
    return element id
  | _ => wrong "text() takes from 1 to 2 positional arguments"

/-- The parts of a font, each maybe absent. -/
structure Font where
  family : Datum := .null
  size : Datum := .null
  weight : Datum := .null
  style : Datum := .null

/-- A font from named parts. -/
def Font.ofMembers (font : Font) : List (Datum × Datum) → Except Failure Font
  | [] => .ok font
  | (.text "family", family) :: rest => ofMembers { font with family } rest
  | (.text "size", size) :: rest => ofMembers { font with size } rest
  | (.text "weight", weight) :: rest => ofMembers { font with weight } rest
  | (.text "style", style) :: rest => ofMembers { font with style } rest
  | _ => .error (Failure.wrongType "font() got an unexpected keyword argument")

/-- Fonts in the families of fonts that are followed. -/
def maxFonts : Nat := 500

/-- Sets the parts of a font that are there; a family may be a font itself. -/
def setFont (fuel : Nat) (id : Nat) (font : Font) : Run Unit :=
  match fuel with
  | 0 => throw View.stackExhausted
  | fuel + 1 => do
    match (← view).members? font.family with
    | some members => setFont fuel id (← ofExcept (Font.ofMembers {} members))
    | none =>
      [("font-family", font.family), ("font-size", font.size), ("font-weight", font.weight),
        ("font-style", font.style)].forM fun (name, value) =>
          match value with
          | .null => pure ()
          | d => setAttr id (.text name) d

def font (id : Nat) (args : List Datum) : Run Datum := do
  if args.length > 4 then wrong "font() takes from 1 to 5 positional arguments"
  setFont maxFonts id
    ⟨args.getD 0 .null, args.getD 1 .null, args.getD 2 .null, args.getD 3 .null⟩
  return element id

def fill (id : Nat) (args : List Datum) : Run Datum := do
  match args with
  | [] => getAttr id (.text "fill")
  | [.null] => getAttr id (.text "fill")
  | [color] =>
    setAttr id (.text "fill") color
    return element id
  | _ => wrong "fill() takes from 1 to 2 positional arguments"

/-! ### Events -/

def needKey (d : Datum) : Run Unit := do
  if !d.isKey then wrong "unhashable type"

/-- What listens on an element, by triggers. -/
def listenersOf (id : Nat) : Run (List (Datum × List Datum)) := do
  return (((← get).listeners.find? (·.1 == id)).map (·.2)).getD []

def setListeners (id : Nat) (all : List (Datum × List Datum)) : Run Unit :=
  modify fun w => { w with listeners := (id, all) :: w.listeners.filter (·.1 != id) }

def listeners (id : Nat) (trigger : Datum) : Run (List Datum) := do
  needKey trigger
  return (Script.Members.get? (← listenersOf id) trigger).getD []

def listen (id : Nat) (trigger handler : Datum) : Run Unit := do
  needKey trigger
  let all ← listenersOf id
  let old := (Script.Members.get? all trigger).getD []
  record (.listen id trigger handler)
  setListeners id (Script.Members.set all trigger (old ++ [handler]))

def ignore (id : Nat) (trigger : Datum) : Run Unit := do
  needKey trigger
  let all ← listenersOf id
  record (.ignore id trigger)
  setListeners id (all.filter fun (k, _) => !k.sameKey trigger)

/-- Tells an event to what listens for its trigger now. -/
def fire (play : Player) (id : Nat) (trigger event : Datum) : Run Unit := do
  (← listeners id trigger).forM fun handler => discard (play.call handler [event])

end Run

end LiveSvg
