import LiveSvg.World.Jobs
/-!
Worlds to begin with: a visual that is still to be loaded, or a drawing by itself.
-/

namespace LiveSvg.World

open Script (Memory)

/-- What a host is set up with. -/
structure Setup where
  path : String
  overrides : Value := .null
  documents : List (String × String) := []
  values : List (String × Value) := []
  getErrors : List (String × Value) := []
  setErrors : List (String × Value) := []
  getDelays : Host.Delays := []
  setDelays : Host.Delays := []
  isTranslated : Bool := false
  hasSink : Bool := true

/-- The world of a visual that is not loaded yet; it is told when the visual is busy. -/
def ofSetup (s : Setup) : World :=
  let (values, memory) := Memory.loadMembers {} s.values
  let named := s.values.zip values |>.map fun ((name, _), (_, d)) => (name, d)
  { memory
    host := {
      documents := s.documents, values := named, getErrors := s.getErrors, setErrors := s.setErrors,
      getDelays := s.getDelays, setDelays := s.setDelays, naming := ⟨s.isTranslated⟩ }
    visual := {
      path := s.path, overrides := s.overrides, hasSink := s.hasSink
      loading := ({ value := false } : Cell Bool Unit).subscribe () } }

/-- The world of a drawing by itself, with a clock or without one. -/
def ofDrawing (root : Option (Markup.Element ι)) (hasLoop : Bool) : World :=
  let drawing := match root with
    | some e => Drawing.ofElement e 0 0
    | none => Drawing.ofElement Drawing.blank 0 0
  { drawing := some drawing, hasLoop }

end LiveSvg.World

namespace LiveSvg.Run

open Script (Datum)

/-- Goes from an element to one inside it, by the places of children. -/
def descend (id : Nat) : List Int → Run Nat
  | [] => return id
  | i :: rest => do
    let children := (← drawing "node").children id
    match (Script.Operation.place? children.length i).bind (children[·]?) with
    | some child => descend child rest
    | none => throw ⟨.noIndex, "list index out of range"⟩

/-- One of the elements that carry a tag, by its place among them. -/
def taggedAt (tag : Datum) (i : Int) : Run Nat := do
  let found ← findByTag (← tagValue tag)
  match (Script.Operation.place? found.length i).bind (found[·]?) with
  | some id => return id
  | none => throw ⟨.noIndex, "list index out of range"⟩

/-- The element that one stands in. -/
def placeOf (id : Nat) : Run Nat := do
  match (← drawing "node").parent? id with
  | some e => return e.id
  | none => throw (Failure.absent "node")

/-- Adds an element beside another one, with attributes. -/
def addBeside (id : Nat) (base : String) (attrs : List (Drawing.Key × String)) : Run Unit := do
  let place ← placeOf id
  let (d, new) := (← drawing "node").addChild place base
  setDrawing d
  attrs.forM fun (key, value) => do
    setDrawing (← ofExcept ((← drawing "node").put new key value))

/-- Fails unless the visual has been loaded. -/
def needContext (wanted : String) : Run Unit := do
  if !(← get).visual.isReady then throw (Failure.absent wanted)

end LiveSvg.Run
