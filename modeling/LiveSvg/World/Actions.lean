import LiveSvg.World.Values
/-!
Actions: the scripts that tags run on events, the values that behaviors send, and what the host is
asked to do. A dispatch is under way until the host has answered.
-/

namespace LiveSvg.Run

open Script (Datum)

/-- Runs the action of a tag; what fails in it is logged and reported. -/
def runAction (play : Player) (n : Nat) (event : Datum) : Run Unit := do
  let w ← get
  if w.visual.isDestroyed then return
  match w.handlers[n]? with
  | none => return
  | some handler =>
    match ← script play (.action n) (handler.program.call [event, .entity .context]) with
    | .ok _ => return
    | .error f =>
      logEntry (Log.error ("runtime: action script " ++ handler.label ++ " failed"))
      report f

/-- The behavior with an id. -/
def behavior? (id : Datum) : Run (Option Behavior) := do
  return (← get).visual.descriptor.behaviors.find? fun b => (Datum.ofName b.id).sameKey id

/-- Starts what the behavior with an id does: gives a task where a value is sent. -/
def callAction (event id value : Datum) (observer : Observer) : Run Datum := do
  if (← get).visual.isDestroyed then return .null
  record (.call id value observer)
  match ← behavior? id with
  | none => return .null
  | some b =>
    let visual := (← get).visual
    match b.kind with
    | .action .. =>
      match visual.setterOf.get? b.id with
      | none => return .null
      | some setter =>
        setBusy true
        soon (.send setter value observer)
        return .task
    | .widget =>
      match visual.settings.get? b.id with
      | some settings => modifyHost fun h => { h with actions := h.actions ++ [(event, settings)] }
      | none => throw ⟨.noKey, b.id.notated⟩
      return .null
    | .value .. => return .null

/-- Calls an observer back; one that fails is only logged. -/
def notify (observer : Observer) (n : Note) : Run Unit := do
  note n
  if observer.raises then logEntry (Log.error "runtime: action observer failed")

/-- Tells whoever is to know how a dispatch has ended, unless the visual is destroyed. -/
def tellOutcome (observer : Observer) (result : Except Failure Unit) : Run Unit := do
  let isDestroyed := (← get).visual.isDestroyed
  match result with
  | .error f =>
    if isDestroyed then
      logEntry (Log.debug ("runtime: dropping dispatch error after destroy: " ++ f.message))
    else
      if observer.onError then notify observer (.error f)
      report f
  | .ok _ => if !isDestroyed && observer.onNext then notify observer .next

/-- What follows once a dispatch has settled. -/
def concludeDispatch (setter : Nat) (value : Datum) (observer : Observer)
    (result : Except Failure Unit) : Run Unit := do
  record (.conclude setter value observer result)
  setBusy false
  tellOutcome observer result

end LiveSvg.Run
