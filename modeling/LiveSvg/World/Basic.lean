import LiveSvg.Cell.Basic
import LiveSvg.Clock.Basic
import LiveSvg.Color
import LiveSvg.Drawing.Basic
import LiveSvg.Host
import LiveSvg.Script.Memory
import LiveSvg.Script.Set
/-!
The world of one visual: its drawing with listeners and animations, the memory of its scripts, its
values and cells, what its host has been asked, and the clock that moves it all.
-/

namespace LiveSvg

open Number (Binary64)
open Script (Datum Memory Program Programs View Ref Contents Entity)
open Settings (Table)

/-- A change of an element that an animation applies. -/
inductive Change where
  | attr (args : List Datum)
  | fill (color : Datum)

/-- What an animation brings about. -/
inductive Effect where
  | change (c : Change)
  | call (callback : Datum)

structure Animation where
  element : Nat
  duration : Datum
  delay : Datum
  isFinished : Bool := false
  isRunning : Bool := true
  changes : List Change := []
  callbacks : List Datum := []
  timer : Option Nat := none

/-- The action of a tag, with the name that reports give it. -/
structure Handler where
  program : Program
  label : String

/-- What is called back when a dispatch has settled. -/
structure Observer where
  onNext : Bool := false
  onError : Bool := false
  raises : Bool := false

/-- What listeners, callbacks and observers were told. -/
inductive Note where
  | event (label : String) (event : Datum)
  | label (label : String)
  | next
  | error (f : Failure)

/-- One source of values, for the behavior with an id. -/
structure Getter where
  settings : Settings.Acquisition
  valueType : Value
  behavior : Value
  isDestroyed : Bool := false

structure Setter where
  settings : Settings.Dispatch
  isDestroyed : Bool := false

/-- The acquisition of one batch of values: how many are still out, and whether it has ended. -/
structure Batch where
  outstanding : Nat := 0
  isDone : Bool := false

/-- Work that waits for its turn. -/
inductive Job where
  | acquire (batch : Nat)
  | collect (batch getter : Nat)
  | fetch (batch getter : Nat)
  | settled (batch : Nat)
  | finishBatch (batch : Nat)
  | send (setter : Nat) (value : Datum) (observer : Observer)
  | deliver (setter : Nat) (value : Datum) (observer : Observer)
  | finishAnimation (n : Nat)
  | wake (j : Job)

/-- What the host of a visual has and what it has been asked. -/
structure HostState where
  documents : List (String × String) := []
  values : List (String × Datum) := []
  getErrors : List (String × Value) := []
  setErrors : List (String × Value) := []
  getDelays : Host.Delays := []
  setDelays : Host.Delays := []
  naming : Host.Naming := {}
  fetched : List String := []
  requests : List Value := []
  sent : List (Value × Datum) := []
  actions : List (Datum × Settings.Entry) := []

/-- The visual itself, from before it is loaded to after it is destroyed. -/
structure Visual where
  path : String := ""
  overrides : Value := .null
  descriptor : Descriptor := .empty
  settings : Table Settings.Entry := []
  literals : Table Datum := []
  programs : Option Programs := none
  isReady : Bool := false
  box : Drawing.Box := Drawing.Box.zero
  scale : Option Binary64 := none
  target : Value × Value := (.null, .null)
  hasContainer : Bool := false
  loading : Cell Bool Unit := { value := false }
  busy : List Bool := []
  acquisition : Option Nat := none
  batches : Array Batch := #[]
  renders : Nat := 0
  getters : Array Getter := #[]
  setters : Array Setter := #[]
  setterOf : Table Nat := []
  cells : Table (Cell Datum Value) := []
  isDestroyed : Bool := false
  errors : List String := []
  hasSink : Bool := true

/-- How things stand at one moment. -/
structure Situation where
  memory : Memory := {}
  values : Script.Members := []
  tags : Script.Members := []
  properties : Script.Members := []
  drawing : Option Drawing := none
  listeners : List (Nat × List (Datum × List Datum)) := []
  animations : Array Animation := #[]
  colors : Array Color := #[]
  handlers : Array Handler := #[]
  hasLoop : Bool := true
  clock : Clock Job := {}
  mounts : Nat := 0
  isMounted : Bool := false
  notes : List Note := []
  log : Log := []
  host : HostState := {}
  visual : Visual := {}

/-- A script of the visual that is run, with what it is run on. -/
inductive Launch where
  | root
  | tag (name : Value) (element : Nat)
  | action (handler : Nat)
  | color (n : Nat)

/-- What a visual goes through. A timer that is set comes with the time when it is due. -/
inductive Deed where
  | start (l : Launch)
  | finish (l : Launch) (result : Except Failure Datum)
  | invoke (e : Entity) (name : String) (args : List Datum)
  | listen (id : Nat) (trigger handler : Datum)
  | ignore (id : Nat) (trigger : Datum)
  | store (r : Ref) (c : Contents)
  | draw (d : Drawing)
  | seed (id : Value) (value : Datum)
  | take (id : Value) (value : Datum)
  | propose (id value : Datum)
  | change (id : Value) (value : Datum)
  | call (id value : Datum) (observer : Observer)
  | hand (setter : Nat) (value : Datum)
  | conclude (setter : Nat) (value : Datum) (observer : Observer) (result : Except Failure Unit)
  | beginBatch (batch : Nat)
  | acquire (batch getter : Nat) (result : Except Failure Datum)
  | endBatch (batch : Nat)
  | delay (due : Binary64)
  | work (j : Job)
  | animate (n element : Nat) (due : Option Binary64)
  | queue (n : Nat) (c : Change)
  | await (n : Nat) (callback : Datum)
  | stop (n : Nat)
  | expire (n : Nat)
  | cease (n : Nat)
  | effect (n : Nat) (e : Effect)
  | effected (n : Nat) (e : Effect) (result : Except Failure Unit)

/-- A deed, and how things stood right before it. -/
structure Event where
  deed : Deed
  before : Situation

/-- How things stand, and how it has come to that, the latest first. The past decides nothing; it is
what can be said of a whole run. -/
structure World extends Situation where
  past : List Event := []

/-- What happens in a world: it may fail, and what it has changed by then stays. -/
abbrev Run := EStateM Failure World

namespace Situation

def contents (s : Situation) : Ref → Contents
  | .cell n => s.memory.read n
  | .values => .object s.values
  | .tags => .object s.tags
  | .properties => .object s.properties

def elementText (d : Drawing) (id : Nat) : String :=
  let shown := match d.valueOf? id ⟨none, "id"⟩ with
    | some s => Text.quoted s
    | none => "None"
  "SvgElement(" ++ Text.quoted (d.typeOf id) ++ ", id=" ++ shown ++ ")"

def describe (s : Situation) (e : Entity) : String :=
  match e, s.drawing with
  | .element id, some d => elementText d id
  | .box b, _ =>
    "Box(x=" ++ b.x.text ++ ", y=" ++ b.y.text ++ ", width=" ++ b.width.text ++ ", height=" ++
      b.height.text ++ ")"
  | e, _ => "<" ++ (Datum.entity e).typeName ++ " object>"

def view (s : Situation) : View where
  contents := s.contents
  describe := s.describe
  size := s.memory.cells.size + 3

end Situation

namespace Run

def ofExcept : Except Failure α → Run α
  | .ok a => pure a
  | .error f => throw f

/-- Remembers a deed that is about to be done. -/
def record (deed : Deed) : Run Unit :=
  modify fun w => { w with past := ⟨deed, w.toSituation⟩ :: w.past }

def logEntry (e : Log.Entry) : Run Unit := modify fun w => { w with log := w.log ++ [e] }

/-- Adds to the log what a computation logs, then goes on with its result. -/
def logged (r : Log × Except Failure α) : Run α := do
  modify fun w => { w with log := w.log ++ r.1 }
  ofExcept r.2

/-- Adds to the log what comes with a result. -/
def withLog (r : Log × α) : Run α := logged (r.1, .ok r.2)

/-- Runs, and gives the failure if there is one. -/
def attempt (x : Run α) : Run (Except Failure α) :=
  tryCatch (do return .ok (← x)) fun f => return .error f

def view : Run View := return (← get).view

/-- Makes a list or an object. -/
def make (c : Contents) : Run Ref :=
  modifyGet fun w => ((w.memory.add c).1, { w with memory := (w.memory.add c).2 })

def create (c : Contents) : Run Datum := do return .ref (← make c)

def newList (items : List Datum) : Run Datum := create (.list items)

def load (v : Value) : Run Datum :=
  modifyGet fun w => ((w.memory.load v).1, { w with memory := (w.memory.load v).2 })

def store (r : Ref) (c : Contents) : Run Unit := do
  record (.store r c)
  modify fun w =>
    match r, c with
    | .cell n, c => { w with memory := w.memory.write n c }
    | .values, .object ms => { w with values := ms }
    | .tags, .object ms => { w with tags := ms }
    | .properties, .object ms => { w with properties := ms }
    | _, .list _ => w

def note (n : Note) : Run Unit := modify fun w => { w with notes := w.notes ++ [n] }

def soon (j : Job) : Run Unit := modify fun w => { w with clock := w.clock.soon j }

/-- The drawing, or a failure about something that is not there. -/
def drawing (wanted : String) : Run Drawing := do
  match (← get).drawing with
  | some d => return d
  | none => throw (Failure.absent wanted)

def setDrawing (d : Drawing) : Run Unit := do
  record (.draw d)
  modify fun w => { w with drawing := some d }

def modifyVisual (f : Visual → Visual) : Run Unit := modify fun w => { w with visual := f w.visual }

def modifyHost (f : HostState → HostState) : Run Unit := modify fun w => { w with host := f w.host }

def wrong (message : String) : Run α := throw (Failure.wrongType message)

end Run

end LiveSvg
