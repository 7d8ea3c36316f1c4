import LiveSvg.World.Element
/-!
What scripts can do with the drawing as a whole: find elements by tag, size it, style it, put it
into its container.
-/

namespace LiveSvg.Run

open Number (Binary64)
open Script (Datum)
open World (element)

/-- A value to look a tag up by. -/
def tagValue (d : Datum) : Run Value := do
  match d.plain?, (← view).items? d with
  | some v, _ => return v
  | none, some _ => return .list []
  | none, none => return .object []

def findByTag (tag : Value) : Run (List Nat) := do
  ofExcept ((← drawing "xpath").findByValue tag)

def tagOf (d : Datum) : Run Datum := do
  match d with
  | .entity (.element id) => return World.optionalText ((← drawing "node").valueOf? id Drawing.tagKey)
  | d => throw (Failure.noAttribute d.typeName "node")

/-- The text of a number in an attribute. -/
def numberText (d : Datum) : Except Failure String :=
  Drawing.numberText (d.plain?.getD .null)

def setRoot (base : String) (value : Datum) : Run Unit := do
  let text ← ofExcept (numberText value)
  setDrawing (← ofExcept ((← drawing "node").putRoot base text))

/-- Writes a size to the root: the width, then the height. -/
def size (width height : Datum) : Run Unit := do
  setRoot "width" width
  setRoot "height" height

def styleOf (name : Datum) : Run Datum := do
  needKey name
  match name with
  | .text s => return World.optionalText ((← drawing "node").style.get? s)
  | _ => return .null

/-- Sets or removes a declaration of the root's style. A name that is no text declares something of
its own. -/
def setStyle (name value : Datum) : Run Unit := do
  let d ← drawing "node"
  needKey name
  match name, value with
  | .text s, .null => setDrawing (← ofExcept (d.setStyle s none))
  | .text s, value =>
    let text ← ofExcept (Script.Operation.textOf (← view) value)
    setDrawing (← ofExcept (d.setStyle s (some text)))
  | _, .null => setDrawing (← ofExcept (d.putStyle d.style))
  | name, value =>
    let v ← view
    let added := (← ofExcept (Script.Operation.textOf v name), ← ofExcept (Script.Operation.textOf v value))
    setDrawing (← ofExcept (d.putStyle (d.style ++ [added])))

def scale (factor : Datum) : Run Unit := do
  let text ← ofExcept (numberText factor)
  setStyle (.text "transform") (.text (Drawing.scaleText text))

/-- Puts the drawing into its container. -/
def mount : Run Unit := modify fun w => { w with mounts := w.mounts + 1, isMounted := true }

def taggedElements : Run Datum := do
  newList ((← drawing "node").tagged.map fun (_, id) => element id)

end LiveSvg.Run
