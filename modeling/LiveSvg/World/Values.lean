import LiveSvg.World.Scene
/-!
Values and rendering. Every value lives in a cell; a change that counts is told to the visual, which
shows it to the scripts and renders once: the script of the whole, then those of the tags in their
order, on each element that carries the tag.
-/

namespace LiveSvg.Run

open Script (Act Datum Program)
open Settings (Table)

/-- The value that a key is; a list or an object is no key. -/
def keyOf (d : Datum) : Run (Option Value) := do
  needKey d
  return d.plain?

/-- The key under which scripts see a value. -/
def keyDatum (v : Value) : Except Failure Datum :=
  match v with
  | .list _ => .error (Failure.wrongType "unhashable type: 'list'")
  | .object _ => .error (Failure.wrongType "unhashable type: 'dict'")
  | v => .ok (Datum.ofName v)

/-! ### Reports -/

/-- Tells a failure to whoever looks after the visual. -/
def report (f : Failure) : Run Unit := do
  let message := Host.failureMessage f
  let visual := (← get).visual
  logEntry (Log.warning ("runtime: " ++ visual.path ++ ": " ++ message))
  if visual.hasSink then modifyVisual fun v => { v with errors := v.errors ++ [message] }

/-- Sets whether the visual is busy, and tells who asked to know. -/
def setBusy (busy : Bool) : Run Unit :=
  modifyVisual fun v =>
    let (loading, told) := v.loading.next busy
    { v with loading, busy := v.busy ++ told.map fun _ => busy }

/-! ### Rendering -/

/-- Runs a script to its end, which may be a failure. -/
def script (play : Player) (l : Launch) (act : Act Datum) : Run (Except Failure Datum) := do
  record (.start l)
  let result ← attempt (play act)
  record (.finish l result)
  return result

/-- Runs a render script on its target; what fails in it is only logged. -/
def renderOne (play : Player) (l : Launch) (p : Program) (target : Datum) (label : String) :
    Run Unit := do
  match ← script play l (p.call [target, .entity .context]) with
  | .ok _ => return
  | .error _ => logEntry (Log.error ("runtime: render script " ++ label ++ " failed"))

/-- Runs the render script of a tag on each element that carries it now. -/
def renderTag (play : Player) (ps : Script.Programs) (t : Tag) : Run Unit := do
  match ps.renders.get? t.name with
  | none => throw ⟨.noKey, t.name.notated⟩
  | some p =>
    (← findByTag t.name).forM fun id =>
      renderOne play (.tag t.name id) p (World.element id) t.name.shown

/-- One pass over the whole visual, unless it is not loaded or destroyed. -/
def render (play : Player) : Run Unit := do
  let w ← get
  match w.drawing, w.visual.programs with
  | some _, some ps =>
    if !w.visual.isReady || w.visual.isDestroyed then return
    modifyVisual fun v => { v with renders := v.renders + 1 }
    renderOne play .root ps.root (.entity .scene) "state_render"
    w.visual.descriptor.tags.forM (renderTag play ps)
  | _, _ => return

/-! ### Values -/

/-- Takes a value that a cell tells: shows it to the scripts and renders, if it is a change. -/
def takeValue (play : Player) (id : Value) (value : Datum) : Run Unit := do
  let w ← get
  let key ← ofExcept (keyDatum id)
  let changed ← match Script.Members.get? w.values key with
    | some old => ofExcept (w.view.differ old value)
    | none => pure true
  if changed then
    record (.change id value)
    modify fun w => { w with values := Script.Members.set w.values key value }
    render play

/-- Puts a value into a cell and tells it to the subscribers. -/
def pushValue (play : Player) (id : Value) (cell : Cell Datum Value) (value : Datum) : Run Unit := do
  record (.take id value)
  let (cell, told) := cell.next value
  modifyVisual fun v => { v with cells := v.cells.set id cell }
  told.forM fun subscriber => takeValue play subscriber value

/-- Gives a value id a new value, if it is one of this visual and the value differs. -/
def setValue (play : Player) (id value : Datum) : Run Unit := do
  let w ← get
  if w.visual.isDestroyed then return
  match ← keyOf id with
  | none => return
  | some id =>
    match w.visual.cells.get? id with
    | none => return
    | some cell =>
      if !cell.isClosed then
        if ← ofExcept (w.view.differ cell.value value) then pushValue play id cell value

/-- A value with what stands for nothing in its type. -/
def normalize (value : Datum) (type : Value) : Run Datum := do
  match value with
  | .null =>
    match type with
    | .text type => load (Value.normalize .null type)
    | .list _ => wrong "unhashable type: 'list'"
    | .object _ => wrong "unhashable type: 'dict'"
    | _ => return .null
  | d => return d

end LiveSvg.Run
