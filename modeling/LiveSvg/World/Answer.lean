import LiveSvg.World.Api
/-!
How the world answers its scripts. A script that is called by an answer runs one level further down;
there is a deepest level.
-/

namespace LiveSvg.Run

open Script (Datum Entity Act Ask)
open World (element optionalText)

def noMember (e : Entity) (name : String) : Run α :=
  throw (Failure.noAttribute (Datum.entity e).typeName name)

/-- The methods of a part of the visual. -/
def methods : Entity → List String
  | .scene =>
    ["tagged", "find_by_tag", "tag_of", "bbox", "size", "style", "set_style", "scale", "add_to",
      "markup"]
  | .element _ =>
    ["attr", "children", "parent", "text", "font", "fill", "on", "off", "listeners", "fire",
      "timeline", "animate"]
  | .api =>
    ["format_value", "text", "font", "animate", "disable", "enable", "call_action", "set_value"]
  | .animation _ => ["attr", "fill", "after", "finish"]
  | .timeline _ => ["finish"]
  | .color _ => ["update"]
  | .container => ["mount"]
  | _ => []

def colorOf (n : Nat) : Run Color := do
  match (← get).colors[n]? with
  | some c => return c
  | none => throw (Failure.absent "color")

def bound (x : Option Number.Binary64) : Datum :=
  match x with
  | some x => .float x
  | none => .null

/-- A member of a part of the visual that is no method. -/
def field (e : Entity) (name : String) : Run Datum := do
  match e, name with
  | .scene, "root" => return element (← drawing "root").root.id
  | .scene, "container" => return if (← get).isMounted then .entity .container else .null
  | .element _, "scene" => return .entity .scene
  | .element id, "type" => return .text ((← drawing "type").typeOf id)
  | .context, "api" => return .entity .api
  | .context, "tags" => return .ref .tags
  | .context, "values" => return .ref .values
  | .context, "properties" => return .ref .properties
  | .animation n, "element" => return element (← animation n).element
  | .animation n, "duration" => return (← animation n).duration
  | .animation n, "delay" => return (← animation n).delay
  | .animation n, "finished" => return .bool (← animation n).isFinished
  | .timeline id, "element" => return element id
  | .color n, "color" => return (← colorOf n).current
  | .color n, "settings" => return .entity (.colorSettings n)
  | .colorSettings n, "type" => return .text (← colorOf n).settings.kind.name
  | .colorSettings n, "color" => return .text (← colorOf n).settings.color
  | .colorSettings n, "color_function" => return optionalText (← colorOf n).settings.function
  | .colorSettings n, "range_list" =>
    let count := (← colorOf n).settings.ranges.length
    newList ((List.range count).map fun i => .entity (.colorRange n i))
  | .colorRange n i, name =>
    match (← colorOf n).settings.ranges[i]?, name with
    | some r, "from_" => return bound r.low
    | some r, "to" => return bound r.high
    | some r, "color" => return .text r.color
    | _, _ => noMember e name
  | .box b, "x" => return .float b.x
  | .box b, "y" => return .float b.y
  | .box b, "width" => return .float b.width
  | .box b, "height" => return .float b.height
  | .box b, "empty" => return .bool b.isEmpty
  | e, name => noMember e name

def member (e : Entity) (name : String) : Run Datum :=
  if (methods e).contains name then return .method (.entity e) name else field e name

def wrongCount (name : String) : Run Datum :=
  wrong (name ++ "() got a wrong number of arguments")

def invokeElement (play : Player) (id : Nat) (name : String) (args : List Datum) : Run Datum := do
  match name, args with
  | "attr", args => attr id args
  | "children", [] => children id
  | "parent", [] => parent id
  | "text", args => text id args
  | "font", args => font id args
  | "fill", args => fill id args
  | "on", [trigger, handler] =>
    listen id trigger handler
    return element id
  | "off", [trigger] =>
    ignore id trigger
    return element id
  | "listeners", [trigger] => newList (← listeners id trigger)
  | "fire", [trigger] =>
    fire play id trigger .null
    return .null
  | "fire", [trigger, event] =>
    fire play id trigger event
    return .null
  | "timeline", [] => return .entity (.timeline id)
  | "animate", [] => return .entity (.animation (← animate id (.int 400) (.int 0)))
  | "animate", [duration] => return .entity (.animation (← animate id duration (.int 0)))
  | "animate", [duration, delay] => return .entity (.animation (← animate id duration delay))
  | name, _ => wrongCount name

def invokeScene (name : String) (args : List Datum) : Run Datum := do
  match name, args with
  | "tagged", [] => taggedElements
  | "find_by_tag", [tag] => newList ((← findByTag (← tagValue tag)).map element)
  | "tag_of", [e] => tagOf e
  | "bbox", [] => return .entity (.box (← drawing "node").box)
  | "size", [width, height] =>
    size width height
    return .entity .scene
  | "style", [name] => styleOf name
  | "set_style", [name, value] =>
    setStyle name value
    return .entity .scene
  | "scale", [factor] =>
    scale factor
    return .entity .scene
  | "add_to", [.entity .container] =>
    mount
    return .entity .scene
  | "add_to", [d] => throw (Failure.noAttribute d.typeName "mount")
  | "markup", [] => return .text (← drawing "node").markup
  | name, _ => wrongCount name

def invokeApi (play : Player) (name : String) (args : List Datum) : Run Datum := do
  match name, args with
  | "format_value", args => formatValue args
  | "text", [e, value] =>
    setTexts e value
    return .null
  | "font", [e, description] =>
    setFonts e description .null
    return .null
  | "font", [e, description, color] =>
    setFonts e description color
    return .null
  | "animate", [e, duration] => animateNext play e duration
  | "disable", [e] =>
    setEnabled e false
    return .null
  | "enable", [e] =>
    setEnabled e true
    return .null
  | "call_action", [event, id] => callAction event id .null {}
  | "call_action", [event, id, value] => callAction event id value {}
  | "call_action", [event, id, value, _] => callAction event id value {}
  | "set_value", [id, value] =>
    propose play id value
    return .null
  | name, _ => wrongCount name

def invokeAnimation (play : Player) (n : Nat) (name : String) (args : List Datum) : Run Datum := do
  let self := Datum.entity (.animation n)
  match name, args with
  | "attr", args =>
    queue n (← changeOf args)
    return self
  | "fill", [color] =>
    queue n (.fill color)
    return self
  | "after", [callback] =>
    afterwards play n callback
    return self
  | "finish", [] =>
    stop play n
    return .null
  | name, _ => wrongCount name

/-- Follows a new value with a color. -/
def updateColor (play : Player) (n : Nat) (value : Datum) : Run Datum := do
  let result ← script play (.color n) ((← colorOf n).colorFor value)
  let current ← ofExcept result
  modify fun w => { w with colors := w.colors.modify n fun c => { c with current } }
  return current

def invoke (play : Player) (e : Entity) (name : String) (args : List Datum) : Run Datum :=
  match e, name, args with
  | .element id, name, args => invokeElement play id name args
  | .scene, name, args => invokeScene name args
  | .api, name, args => invokeApi play name args
  | .animation n, name, args => invokeAnimation play n name args
  | .timeline id, "finish", [] => do
    finishAll play id
    return .null
  | .color n, "update", [value] => updateColor play n value
  | .container, "mount", [_] => do
    modify fun w => { w with mounts := w.mounts + 1 }
    return .null
  | _, name, _ => wrongCount name

/-- Calls a part of the visual itself: an action, or what takes down what it is told. -/
def apply (play : Player) (e : Entity) (args : List Datum) : Run Datum := do
  match e, args with
  | .handler n, [event] =>
    runAction play n event
    return .null
  | .recorder label, [] =>
    note (.label label)
    return .null
  | .recorder label, [event] =>
    note (.event label event)
    return .null
  | e, _ => wrong ("'" ++ (Datum.entity e).typeName ++ "' object is not callable")

/-- Answers a question of a script. -/
def answer (play : Player) : (q : Ask) → Run q.Answer
  | .view => view
  | .create c => make c
  | .store r c => store r c
  | .get e name => attempt (member e name)
  | .invoke e name args => do
    record (.invoke e name args)
    attempt (invoke play e name args)
  | .apply e args => attempt (apply play e args)

/-- Runs acts with a number of levels below for the scripts that they lead to. -/
def playWithin : Nat → Player
  | 0 => fun _ => throw Script.View.stackExhausted
  | levels + 1 => fun act => act.run (answer (playWithin levels)) throw

/-- Levels of scripts that call one another. -/
def maxLevels : Nat := 140

def play : Player := playWithin maxLevels

end LiveSvg.Run
