import LiveSvg.Script.Operation
import LiveSvg.World.Element
/-!
Animations: changes that are held back until the time of the animation has passed or it is finished,
then applied together and in order. Without a clock changes apply at once.
-/

namespace LiveSvg.Run

open Number (Binary64)
open Script (Datum Entity)

def animation (n : Nat) : Run Animation := do
  match (← get).animations[n]? with
  | some a => return a
  | none => throw (Failure.absent "animation")

def setAnimation (n : Nat) (a : Animation) : Run Unit :=
  modify fun w => { w with animations := w.animations.setIfInBounds n a }

/-- The seconds that an animation waits. -/
def waiting (duration delay : Datum) : Run Binary64 := do
  let v ← view
  match ← ofExcept (Script.Operation.binary v .add duration delay) with
  | .fresh _ => wrong "'>' not supported between instances of 'int' and 'list'"
  | .plain sum =>
    let longest ← ofExcept (Script.Operation.extreme v "max" .greater [sum, .int 0])
    match ← ofExcept (Script.Operation.binary v .div longest (.int 1000)) with
    | .plain (.float seconds) => return seconds
    | _ => wrong "unsupported operand type(s) for /"

/-- Adds an animation of an element; where there is a time to wait for, a timer ends it. -/
def addAnimation (id : Nat) (duration delay : Datum) (seconds : Option Binary64) : Run Nat := do
  let w ← get
  record (.animate w.animations.size id (seconds.map w.clock.now.add))
  modifyGet fun w =>
    let n := w.animations.size
    let (clock, timer) := match seconds with
      | some seconds =>
        let (clock, timer) := w.clock.after seconds (.finishAnimation n)
        (clock, some timer)
      | none => (w.clock, none)
    (n, { w with
      clock, animations := w.animations.push { element := id, duration, delay, timer } })

/-- Starts an animation of an element; without a clock, nothing ends it. -/
def animate (id : Nat) (duration delay : Datum) : Run Nat := do
  let seconds ← if (← get).hasLoop then some <$> waiting duration delay else pure none
  addAnimation id duration delay seconds

def applyChange (id : Nat) : Change → Run Unit
  | .attr args => discard (attr id args)
  | .fill color => discard (fill id [color])

/-- Brings about what an animation is for. -/
def effect (n : Nat) (e : Effect) (x : Run Unit) : Run Unit := do
  record (.effect n e)
  let result ← attempt x
  record (.effected n e result)
  ofExcept result

def change (n id : Nat) (c : Change) : Run Unit := effect n (.change c) (applyChange id c)

def callBack (play : Player) (n : Nat) (callback : Datum) : Run Unit :=
  effect n (.call callback) (discard (play.call callback []))

/-- Holds a change back, or applies it at once when nothing is waited for. -/
def queue (n : Nat) (c : Change) : Run Unit := do
  let a ← animation n
  record (.queue n c)
  if a.isFinished || a.timer.isNone then change n a.element c
  else setAnimation n { a with changes := a.changes ++ [c] }

/-- Applies all changes held back, then calls what waits for the end. -/
def finish (play : Player) (n : Nat) : Run Unit := do
  let a ← animation n
  if a.isFinished then return
  record (.cease n)
  modify fun w =>
    { w with clock := match a.timer with
        | some timer => w.clock.cancel timer
        | none => w.clock }
  setAnimation n { a with isFinished := true, timer := none }
  a.changes.forM (change n a.element)
  modify fun w => { w with animations := w.animations.modify n fun a => { a with changes := [] } }
  a.callbacks.forM (callBack play n)
  modify fun w =>
    { w with animations := w.animations.modify n fun a =>
        { a with callbacks := [], isRunning := false } }

/-- Calls back when an animation ends, at once if it has. -/
def afterwards (play : Player) (n : Nat) (callback : Datum) : Run Unit := do
  let a ← animation n
  record (.await n callback)
  if a.isFinished then callBack play n callback
  else setAnimation n { a with callbacks := a.callbacks ++ [callback] }

/-- The animations of an element that are under way. -/
def running (id : Nat) : Run (List Nat) := do
  let all := (← get).animations.toList.zipIdx
  return (all.filter fun (a, _) => a.element == id && a.isRunning).map (·.2)

/-- Finishes an animation when it is asked for. -/
def stop (play : Player) (n : Nat) : Run Unit := do
  record (.stop n)
  finish play n

/-- Finishes all animations of an element. -/
def finishAll (play : Player) (id : Nat) : Run Unit := do
  (← running id).forM (stop play)

/-- The change that the arguments of an animation's `attr` ask for. -/
def changeOf (args : List Datum) : Run Change := do
  match args with
  | [name] =>
    match (← view).members? name with
    | some _ => return .attr [name]
    | none => return .attr [name, .null]
  | [name, value] =>
    match (← view).members? name with
    | some _ => return .attr [name]
    | none => return .attr [name, value]
  | _ => wrong "attr() takes from 2 to 3 positional arguments"

end LiveSvg.Run
