import LiveSvg.World.Basic
/-!
Properties as scripts see them: what the settings say, colors ready to follow values, and texts as
the host shows them.
-/

namespace LiveSvg.Run

open Script (Datum)

/-- Keeps a color, and gives the scripts' hold of it. -/
def addColor (c : Color) : Run Datum := do
  let n := (← get).colors.size
  modify fun w => { w with colors := w.colors.push c }
  return .entity (.color n)

def isType (p : Property) (type : String) : Bool :=
  match p.type with
  | .text s => s == type
  | _ => false

/-- What a property is when nothing is said about it. -/
def defaultProperty (p : Property) : Run Datum := do
  if isType p "string" then return .text ""
  else if isType p "number" then return .int 0
  else if isType p "color" then return .text defaultColor
  else if isType p "color-settings" then addColor (Color.constant defaultColor)
  else return .null

/-- The color that a property asks for; settings that do not fit are logged. -/
def colorProperty (p : Property) (value : Datum) : Run Datum := do
  match Color.ofValue? ((← view).valueOf value) with
  | some found => addColor (← withLog found)
  | none =>
    logEntry (Log.warning ("runtime: invalid color settings for " ++ p.id.shown))
    addColor (Color.constant defaultColor)

/-- A text as the host shows it. -/
def textProperty (value : Datum) : Run Datum := do
  let naming := (← get).host.naming
  if naming.isTranslated then
    match ← ofExcept (naming.label (value.plain?.getD .null)) with
    | .text s => return .text s
    | _ => return value
  else return value

/-- The value of the property with an id; of one that is not there it is an empty text. -/
def propertyValue (id : Datum) : Run Datum := do
  let visual := (← get).visual
  match visual.descriptor.properties.find? fun p => (Datum.ofName p.id).sameKey id with
  | none => return .text ""
  | some p =>
    match (visual.literals.get? p.id).getD .null with
    | .null => defaultProperty p
    | value =>
      if isType p "color-settings" then colorProperty p value
      else if isType p "string" then textProperty value
      else return value

end LiveSvg.Run
