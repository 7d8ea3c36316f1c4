import LiveSvg.Display
import LiveSvg.World.Actions
import LiveSvg.World.Animation
/-!
What the context offers to scripts: texts and fonts of elements, formatted numbers, animations,
values and actions.
-/

namespace LiveSvg.Run

open Script (Datum Entity)
open World (element)

def needElement (d : Datum) (wanted : String) : Run Nat :=
  match d with
  | .entity (.element id) => return id
  | d => throw (Failure.noAttribute d.typeName wanted)

/-- The elements that an argument stands for: those in a list, or one. -/
def elementsOf (d : Datum) : Run (List Datum) := do
  return ((← view).items? d).getD [d]

/-- A number formatted; every other value is given back. -/
def formatted (value : Datum) (options : List Datum) : Run Datum := do
  let v ← view
  let option := fun (i : Nat) => v.valueOf (options.getD i .null)
  match value.plain? with
  | none => return value
  | some plain =>
    match ← ofExcept (Display.format plain (option 0) (option 1) (option 2)) with
    | .text s => return .text s
    | _ => return value

def formatValue (args : List Datum) : Run Datum :=
  match args with
  | [] => wrong "format_value() missing 1 required positional argument: 'value'"
  | value :: options =>
    if options.length > 3 then wrong "format_value() takes from 1 to 4 positional arguments"
    else formatted value options

/-- Where the text of an element is: in the first span of a text, else in itself. -/
def textTarget? (id : Nat) : Run (Option Nat) := do
  let d ← drawing "type"
  if d.typeOf id = "text" then
    match d.children id with
    | first :: _ => return some (if d.typeOf first = "tspan" then first else id)
    | [] => return some id
  else if d.typeOf id = "tspan" then return some id
  else return none

def setTexts (elements value : Datum) : Run Unit := do
  (← elementsOf elements).forM fun e => do
    match ← textTarget? (← needElement e "type") with
    | some target => setText target value
    | none => pure ()

/-- The font that a description with a size and its unit asks for. -/
def fontOf (description : Datum) : Run Font := do
  let v ← view
  match v.members? description with
  | none => throw (Failure.noAttribute description.typeName "get")
  | some members =>
    let part := fun (name : String) => (Script.Members.get? members (.text name)).getD .null
    let size ← match part "size", part "sizeUnit" with
      | .null, _ => pure Datum.null
      | _, .null => pure Datum.null
      | size, unit => do
        pure (Datum.text ((← ofExcept (Script.Operation.textOf v size)) ++
          (← ofExcept (Script.Operation.textOf v unit))))
    return ⟨part "family", size, part "weight", part "style"⟩

def setFonts (elements description color : Datum) : Run Unit := do
  (← elementsOf elements).forM fun e => do
    let id ← needElement e "type"
    if (← drawing "type").typeOf id = "text" then
      if (← view).truthy description then setFont maxFonts id (← fontOf description)
      if (← view).truthy color then discard (fill id [color])

/-- Lets elements take part in pointer events, or not. -/
def setEnabled (elements : Datum) (isEnabled : Bool) : Run Unit := do
  (← elementsOf elements).forM fun e => do
    let id ← needElement e "attr"
    setAttr id (.text "pointer-events") (if isEnabled then .null else .text "none")

/-- Asks for a value id to be given a new value. -/
def propose (play : Player) (id value : Datum) : Run Unit := do
  record (.propose id value)
  setValue play id value

/-- Finishes what is under way on an element, then starts an animation. -/
def animateNext (play : Player) (e duration : Datum) : Run Datum := do
  let id ← needElement e "timeline"
  finishAll play id
  return .entity (.animation (← animate id duration (.int 0)))

end LiveSvg.Run
