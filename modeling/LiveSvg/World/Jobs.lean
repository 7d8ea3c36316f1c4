import LiveSvg.World.Load
/-!
Work that waits for its turn: acquiring values, sending them, ending animations. It goes on as long
as anything is ready or due.
-/

namespace LiveSvg.Run

open Number (Binary64)
open Script (Datum)

/-- The seconds that a host takes for a label; none where it answers at once. -/
def pause? (delays : Host.Delays) (label : Value) : Except Failure (Option Binary64) :=
  match label with
  | .text name =>
    match (Value.Members.get? delays name).bind Value.numeric? with
    | none => .ok none
    | some ms => (Script.Operation.toFloat ms).map fun x => some (x.div (Binary64.ofInt 1000))
  | _ => .ok none

/-- Leaves a job to the time when so many seconds have passed. -/
def postpone (seconds : Binary64) (j : Job) : Run Unit := do
  record (.delay ((← get).clock.now.add seconds))
  modify fun w => { w with clock := (w.clock.after seconds (.wake j)).1 }

/-- Does something now, or leaves it to a job once the host has taken its time; a time that is no
number of seconds is a failure. -/
def delayed (delays : Host.Delays) (label : Value) (now : Run Unit) (later : Job)
    (lost : Failure → Run Unit) : Run Unit :=
  match pause? delays label with
  | .error f => lost f
  | .ok none => now
  | .ok (some seconds) =>
    if seconds.atMost (Binary64.zero false) then soon later
    else postpone seconds later

/-- What is kept under a label, which may not be a list or an object. -/
def labelled (table : List (String × α)) (label : Value) : Except Failure (Option α) :=
  match label with
  | .text name => .ok (Value.Members.get? table name)
  | .list _ => .error (Failure.wrongType "unhashable type: 'list'")
  | .object _ => .error (Failure.wrongType "unhashable type: 'dict'")
  | _ => .ok none

/-! ### Acquisition -/

/-- What the host has for a label. -/
def hostValue (label : Value) : Run Datum := do
  modifyHost fun h => { h with requests := h.requests ++ [label] }
  let host := (← get).host
  match ← ofExcept (labelled host.getErrors label) with
  | some message => throw ⟨.acquisition, message.shown⟩
  | none => return (← ofExcept (labelled host.values label)).getD .null

/-- Takes a value acquired for a behavior. -/
def onValue (play : Player) (behavior : Value) (value : Datum) : Run Unit := do
  if (← get).visual.isDestroyed then
    logEntry (Log.debug ("runtime: dropping value for " ++ behavior.shown ++ " after destroy"))
  else
    match ← behavior? (Datum.ofName behavior) with
    | some b =>
      match b.kind with
      | .value valueType _ valueId _ _ _ =>
        setValue play (← ofExcept (keyDatum valueId)) (← normalize value valueType)
      | _ => return
    | none => return

def onAcquisitionError (f : Failure) : Run Unit := do
  if (← get).visual.isDestroyed then
    logEntry (Log.debug ("runtime: dropping acquisition error after destroy: " ++ f.message))
  else report f

/-- What follows once a getter has its value, or has failed to get one. -/
def concludeAcquisition (play : Player) (batch getter : Nat) (behavior : Value)
    (result : Except Failure Datum) : Run Unit := do
  record (.acquire batch getter result)
  match result with
  | .ok value => discard (attempt (onValue play behavior value))
  | .error f => onAcquisitionError f
  soon (.settled batch)

/-- Acquires one value now. -/
def fetchValue (play : Player) (batch getter : Nat) : Run Unit := do
  match (← get).visual.getters[getter]? with
  | none => return
  | some g => concludeAcquisition play batch getter g.behavior (← attempt (hostValue g.settings.label))

def modifyBatch (n : Nat) (f : Batch → Batch) : Run Unit :=
  modifyVisual fun v => { v with batches := v.batches.modify n f }

/-- Starts the acquisition of all values there are. -/
def acquireAll (batch : Nat) : Run Unit := do
  let count := (← get).visual.getters.size
  modifyBatch batch fun b => { b with outstanding := count }
  (List.range count).forM fun i => soon (.collect batch i)

/-- Counts a value that is no longer out; the batch ends with the last one. -/
def settleOne (batch : Nat) : Run Unit := do
  modifyBatch batch fun b => { b with outstanding := b.outstanding - 1 }
  match (← get).visual.batches[batch]? with
  | some b => if b.outstanding = 0 then soon (.finishBatch batch)
  | none => return

/-! ### Dispatch -/

/-- Gives a value to the host under a label. -/
def sendValue (label : Value) (value : Datum) : Run Unit := do
  match ← ofExcept (labelled (← get).host.setErrors label) with
  | some message => throw ⟨.dispatch, message.shown⟩
  | none => modifyHost fun h => { h with sent := h.sent ++ [(label, value)] }

def deliver (setter : Nat) (value : Datum) (observer : Observer) : Run Unit := do
  match (← get).visual.setters[setter]? with
  | none => return
  | some s =>
    concludeDispatch setter value observer (← attempt (sendValue s.settings.label value))

/-! ### Turns -/

/-- Does a job. -/
def work (play : Player) : Job → Run Unit
  | .acquire batch => acquireAll batch
  | .collect batch getter => do
    match (← get).visual.getters[getter]? with
    | none => return
    | some g =>
      delayed (← get).host.getDelays g.settings.label (fetchValue play batch getter)
        (.fetch batch getter) fun f => concludeAcquisition play batch getter g.behavior (.error f)
  | .fetch batch getter => fetchValue play batch getter
  | .settled batch => settleOne batch
  | .finishBatch batch => do
    record (.endBatch batch)
    setBusy false
    modifyBatch batch fun b => { b with isDone := true }
  | .send setter value observer => do
    record (.hand setter value)
    match (← get).visual.setters[setter]? with
    | none => return
    | some s =>
      delayed (← get).host.setDelays s.settings.label (deliver setter value observer)
        (.deliver setter value observer) fun f => concludeDispatch setter value observer (.error f)
  | .deliver setter value observer => deliver setter value observer
  | .finishAnimation n => do
    record (.expire n)
    finish play n
  | .wake j => soon j

/-- Takes the jobs of one turn from the clock. -/
def takeJobs : Run (List Job) :=
  modifyGet fun w => (w.clock.turn.1, { w with clock := w.clock.turn.2 })

/-- Takes one turn; gives whether there was anything to do. -/
def turn (play : Player) : Run Bool := do
  let jobs ← takeJobs
  jobs.forM fun j => do
    discard (attempt (work play j))
    record (.work j)
  return !jobs.isEmpty

def settleWithin (play : Player) : Nat → Run Unit
  | 0 => return
  | turns + 1 => do if ← turn play then settleWithin play turns

/-- Turns taken before what never comes to rest is left. -/
def maxTurns : Nat := 100000

/-- Takes turns until nothing is ready or due. -/
def settle (play : Player) : Run Unit := settleWithin play maxTurns

/-- Comes to rest, moves the clock by milliseconds, and comes to rest again. -/
def advance (play : Player) (ms : Value) : Run Unit := do
  settle play
  match ms.numeric? with
  | some ms =>
    let seconds := (← ofExcept (Script.Operation.toFloat ms)).div (Binary64.ofInt 1000)
    modify fun w => { w with clock := w.clock.advance seconds }
  | none => wrong "a time is a number"
  settle play

/-- Whether the acquisition under way last has ended; none if there never was one. -/
def acquisitionDone : Run (Option Bool) := do
  let v := (← get).visual
  return v.acquisition.map fun n => ((v.batches[n]?).map (·.isDone)).getD false

end LiveSvg.Run
