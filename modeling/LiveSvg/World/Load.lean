import LiveSvg.World.Answer
import LiveSvg.World.Properties
import LiveSvg.World.Sizing
/-!
Loading: the document is fetched, its descriptor read and its scripts compiled; the drawing is put in
place, values and listeners are set up, everything is shown once, and values begin to be acquired.
-/

namespace LiveSvg.Run

open Number (Binary64)
open Script (Datum Programs)
open Settings (Table)

/-- Asks the host for the document. -/
def fetchDocument : Run String := do
  let path := (← get).visual.path
  modifyHost fun h => { h with fetched := h.fetched ++ [path] }
  match Value.Members.get? (← get).host.documents path with
  | some content => return content
  | none => throw ⟨.transport, "Document not found: " ++ path⟩

/-- Makes what the settings say of properties known to scripts. -/
def loadLiterals : List (Value × Settings.Entry) → Run (Table Datum)
  | [] => return []
  | (id, .literal v) :: rest => do
    let d ← load v
    return (id, d) :: (← loadLiterals rest)
  | _ :: rest => loadLiterals rest

/-- The drawing of a document without its descriptors, or an empty one. -/
def drawingOf (first : Nat) : Option (Markup.Element Unit) → Drawing
  | some e => Drawing.ofElement (Document.strip e) first (Document.stripCounter e)
  | none => Drawing.ofElement Drawing.blank first 0

/-- The style that every drawing gets. -/
def prepared (d : Drawing) : Except Failure Drawing := do
  (← d.setStyle "overflow" (some "visible")).setStyle "user-select" (some "none")

/-- Writes the natural size to the root. -/
def naturallySized (d : Drawing) (box : Drawing.Box) : Except Failure Drawing := do
  if box.isEmpty then return d
  (← d.putRoot "width" box.width.plainText).putRoot "height" box.height.plainText

/-- Puts the drawing in place. -/
def prepareScene (root : Option (Markup.Element Unit)) : Run Unit := do
  let old := (← get).drawing
  let first := (old.map (·.next)).getD 0
  let d ← ofExcept (prepared (drawingOf first root))
  let box := d.box
  modifyVisual fun v => { v with box }
  let d ← ofExcept (naturallySized d box)
  let kept := match old with
    | some old => old.root :: old.loose
    | none => []
  setDrawing { d with loose := kept }
  modify fun w => { w with isMounted := false }
  if (← get).visual.hasContainer then mount
  resize

/-! ### The first state -/

/-- Elements by their tags, in the order of first mention. -/
def grouped (all : List (String × Nat)) : List (String × List Datum) :=
  all.foldl (fun groups (tag, id) =>
    Value.Members.set groups tag
      ((Value.Members.get? groups tag).getD [] ++ [World.element id])) []

def setTags : Run Unit := do
  let tags ← (grouped (← drawing "tagged").tagged).mapM fun (tag, elements) => do
    return (Datum.text tag, ← newList elements)
  modify fun w => { w with tags }

def setProperty (p : Property) : Run Unit := do
  let value ← propertyValue (Datum.ofName p.id)
  let key ← ofExcept (keyDatum p.id)
  modify fun w => { w with properties := Script.Members.set w.properties key value }

/-- Lets the elements of a tag run an action on its trigger. -/
def wire (tag : Value) (elements : List Nat) (trigger : String) (program : Script.Program) :
    Run Unit := do
  let n := (← get).handlers.size
  modify fun w =>
    { w with handlers := w.handlers.push ⟨program, tag.shown ++ "." ++ trigger⟩ }
  elements.forM fun id => do
    setAttr id (.text "cursor") (.text "pointer")
    listen id (.text trigger) (.entity (.handler n))

def wireTag (t : Tag) : Run Unit := do
  match t.actions with
  | none => return
  | some [] => return
  | some _ =>
    let programs := (← get).visual.programs
    let actions := (programs.bind (·.actions.get? t.name)).getD []
    let elements ← findByTag t.name
    actions.forM fun (trigger, program) => wire t.name elements trigger program

/-- Gives a value its cell, or a new first value to the cell that it has already. -/
def seed (id : Value) (initial : Datum) : Run Unit := do
  let key ← ofExcept (keyDatum id)
  record (.seed id initial)
  modifyVisual fun v =>
    let cell := match v.cells.get? id with
      | some cell => cell.reset initial
      | none => ({ value := initial } : Cell Datum Value).subscribe id
    { v with cells := v.cells.set id cell }
  modify fun w => { w with values := Script.Members.set w.values key initial }

/-- Sets up what a behavior needs. -/
def setUp (b : Behavior) : Run Unit := do
  let settings := (← get).visual.settings.get? b.id
  match b.kind, settings with
  | .value valueType _ valueId _ _ _, some (.acquisition s) =>
    seed valueId (← normalize (← load s.default) valueType)
    let getter : Getter := { settings := { s with label := b.name }, valueType, behavior := b.id }
    modifyVisual fun v => { v with getters := v.getters.push getter }
  | .action .., some (.dispatch s) =>
    modifyVisual fun v =>
      { v with
        setters := v.setters.push { settings := { s with label := b.name } }
        setterOf := v.setterOf.set b.id v.setters.size }
  | .widget, _ => return
  | _, _ => throw (Failure.noAttribute "value" "model_copy")

/-- Begins to acquire the values. -/
def startAcquisition : Run Unit := do
  if (← get).visual.getters.isEmpty then return
  let n := (← get).visual.batches.size
  record (.beginBatch n)
  setBusy true
  modifyVisual fun v => { v with batches := v.batches.push {}, acquisition := some n }
  soon (.acquire n)

/-- Sets up the first state, which no script has seen yet. -/
def firstState : Run Unit := do
  modify fun w => { w with values := [], tags := [], properties := [] }
  modifyVisual fun v => { v with isReady := true }
  setTags
  let d := (← get).visual.descriptor
  d.properties.forM setProperty
  d.tags.forM wireTag
  d.behaviors.forM setUp

def loadedText (v : Visual) : String :=
  let count := fun (n : Nat) => Number.intText n
  "runtime: loaded " ++ v.path ++ " (" ++ count v.descriptor.tags.length ++ " tags, " ++
    count v.descriptor.behaviors.length ++ " behaviors, " ++
    count v.descriptor.properties.length ++ " properties)"

/-- The descriptor in a document; an empty document carries none. -/
def descriptorOf : Option (Markup.Element Unit) → Run Descriptor
  | some e => logged (Document.descriptor e)
  | none => return Descriptor.empty

/-- Makes a descriptor that of the visual, with its settings and its scripts. -/
def adopt (descriptor : Descriptor) : Run Unit := do
  modifyVisual fun v => { v with descriptor }
  let settings ← logged (Settings.resolve descriptor (← get).visual.overrides)
  let literals ← loadLiterals settings
  modifyVisual fun v => { v with settings, literals }
  let programs ← logged (Programs.ofDescriptor descriptor).start
  modifyVisual fun v => { v with programs := some programs }

/-- Puts the visual in place from the text of its document. -/
def loadContent (content : String) : Run Unit := do
  let root ← withLog (Document.read (.text content))
  adopt (← descriptorOf root)
  prepareScene root
  firstState

/-- Fetches the document and puts the visual in place. -/
def place : Run Unit := do loadContent (← fetchDocument)

/-- Shows what has been put in place, and begins to acquire values. -/
def present (play : Player) : Run Unit := do
  render play
  startAcquisition
  logEntry (Log.info (loadedText (← get).visual))

/-- Loads the visual. -/
def start (play : Player) : Run Unit := do
  place
  present play

/-- Lets everything go. -/
def destroy : Run Unit := do
  if (← get).visual.isDestroyed then return
  modifyVisual fun v =>
    { v with
      isDestroyed := true
      cells := v.cells.map fun (id, cell) => (id, cell.complete)
      getters := v.getters.map fun g => { g with isDestroyed := true }
      setters := v.setters.map fun s => { s with isDestroyed := true }
      loading := v.loading.complete }
  logEntry (Log.debug ("runtime: destroyed " ++ (← get).visual.path))

end LiveSvg.Run
