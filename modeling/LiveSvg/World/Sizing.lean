import LiveSvg.World.Scene
/-!
Fitting the drawing into the place that the host has for it. Which side decides depends on the shape
of that place alone.
-/

namespace LiveSvg.Run

open Number (Binary64)

/-- A side of the target over the side of the box. -/
def sideRatio (target : Value.Numeric) (side : Binary64) : Except Failure Binary64 := do
  let x ← Script.Operation.toFloat target
  if side.isZero then throw ⟨.zeroDivision, "float division by zero"⟩
  return x.div side

/-- The scale for a target size: by the widths where the target is higher than wide, else by the
heights. -/
def scaleFor (box : Drawing.Box) (width height : Value) : Except Failure Binary64 :=
  match width.numeric?, height.numeric? with
  | some w, some h =>
    if w.compare? h = some .lt then sideRatio w box.width else sideRatio h box.height
  | _, _ => .error (Failure.wrongType "unsupported operand type(s) for /")

/-- Scales the drawing to the target, if there is one and the drawing has a size of its own. -/
def resize : Run Unit := do
  let visual := (← get).visual
  let (width, height) := visual.target
  if !(width.truthy && height.truthy) || visual.box.isEmpty then return
  let factor ← ofExcept (scaleFor visual.box width height)
  modifyVisual fun v => { v with scale := some factor }
  scale (.float factor)

def setSize (width height : Value) : Run Unit := do
  modifyVisual fun v => { v with target := (width, height) }
  if (← get).drawing.isSome then resize

/-- Gives the visual a container, now or once it is loaded. -/
def addTo : Run Unit := do
  modifyVisual fun v => { v with hasContainer := true }
  if (← get).drawing.isSome then mount

end LiveSvg.Run
