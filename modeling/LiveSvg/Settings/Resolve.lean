import LiveSvg.Settings.Models
import LiveSvg.Value.Merge
import LiveSvg.Value.Shown
import LiveSvg.Descriptor.Reader
import LiveSvg.Log
import LiveSvg.Failure
/-!
The settings of one visual: defaults for every behavior and property of its descriptor, overrides
merged on top, and each behavior's entry read as the settings of its kind. An override that does
not fit leaves the defaults in force.
-/

namespace LiveSvg.Settings

/-- Values by the names of behaviors and properties. -/
abbrev Table (α : Type) := List (Value × α)

namespace Table

def get? (t : Table α) (name : Value) : Option α :=
  match t with
  | [] => none
  | (k, v) :: rest => if Descriptor.sameName k name then some v else get? rest name

def set (t : Table α) (name : Value) (value : α) : Table α :=
  match t with
  | [] => [(name, value)]
  | (k, v) :: rest =>
    if Descriptor.sameName k name then (k, value) :: rest else (k, v) :: set rest name value

end Table

/-- The settings in one entry. -/
inductive Entry where
  | acquisition (s : Acquisition)
  | dispatch (s : Dispatch)
  | widgetAction (s : WidgetAction)
  | literal (v : Value)

def Entry.toValue : Entry → Value
  | .acquisition s => s.toValue
  | .dispatch s => s.toValue
  | .widgetAction s => s.toValue
  | .literal v => v

def invalid : Failure := ⟨.invalidSettings, "validation error"⟩

/-- The text in a field of an action, or the default where there is none. -/
def textOr (default : String) (v : Value) : Except Failure String :=
  if v.truthy then
    match v with
    | .text s => .ok s
    | _ => .error invalid
  else .ok default

def defaultEntry : Behavior.Kind → Except Failure Value
  | .value _ default _ _ _ _ => .ok (Acquisition.toValue { default })
  | .action dataType constant function => do
    let d : Outbound := {}
    let outbound : Outbound :=
      { type := ← textOr d.type dataType, constant, function := ← textOr d.function function }
    return Dispatch.toValue { outbound }
  | .widget => .ok (WidgetAction.toValue {})

/-- The settings that a descriptor gives by itself. -/
def defaults (d : Descriptor) : Except Failure (Table Value) := do
  let behaviors ← d.behaviors.foldlM (fun t b => do
    return Table.set t b.id (← defaultEntry b.kind)) ([] : Table Value)
  return d.properties.foldl (fun t p => t.set p.id p.default) behaviors

/-- The overrides in a value: an object, or nothing at all. -/
def overridesOf (v : Value) : Except Failure (List (String × Value)) :=
  if v.truthy then
    match v with
    | .object ms => .ok ms
    | _ => .error (Failure.noAttribute "value" "items")
  else .ok []

/-- Any value with overrides merged in, which only an object can take. -/
def mergeInto (defaults overrides : Value) : Except Failure Value := do
  match ← overridesOf overrides, defaults with
  | [], v => return v
  | news, .object olds => return .object (Value.merge olds news)
  | _, _ => throw (Failure.noAttribute "value" "get")

def mergeTable (t : Table Value) (overrides : List (String × Value)) : Table Value :=
  overrides.foldl (fun t (k, v) =>
    match t.get? (.text k) with
    | some current => t.set (.text k) (current.override v)
    | none => t.set (.text k) v) t

/-- The settings of a kind in a value, if it fits. -/
def entryOf? : Behavior.Kind → Value → Option Entry
  | .value .., v => (Acquisition.ofValue? v).map .acquisition
  | .action .., v => (Dispatch.ofValue? v).map .dispatch
  | .widget, v => (WidgetAction.ofValue? v).map .widgetAction

def invalidOverride (id : Value) : Log.Entry :=
  Log.warning ("settings: invalid override for behavior " ++ id.shown)

/-- The entry of a behavior: as merged, or by the defaults when that does not fit. -/
def resolveBehavior (defaults merged : Table Value) (b : Behavior) : Log × Except Failure Entry :=
  match entryOf? b.kind ((merged.get? b.id).getD .null) with
  | some e => ([], .ok e)
  | none =>
    ([invalidOverride b.id],
      match entryOf? b.kind ((defaults.get? b.id).getD .null) with
      | some e => .ok e
      | none => .error invalid)

def resolveBehaviors (defaults merged : Table Value) (done : Table Entry) :
    List Behavior → Log × Except Failure (Table Entry)
  | [] => ([], .ok done)
  | b :: rest =>
    match resolveBehavior defaults merged b with
    | (log, .error e) => (log, .error e)
    | (log, .ok entry) =>
      let (more, result) := resolveBehaviors defaults merged (done.set b.id entry) rest
      (log ++ more, result)

/-- The settings for a descriptor under overrides, with what is logged on the way. -/
def resolve (d : Descriptor) (overrides : Value) : Log × Except Failure (Table Entry) :=
  match (do return (← defaults d, ← overridesOf overrides) :
      Except Failure (Table Value × List (String × Value))) with
  | .error e => ([], .error e)
  | .ok (defaults, overrides) =>
    let merged := mergeTable defaults overrides
    match resolveBehaviors defaults merged [] d.behaviors with
    | (log, .error e) => (log, .error e)
    | (log, .ok entries) =>
      (log, .ok (d.properties.foldl (fun t p =>
        t.set p.id (.literal ((merged.get? p.id).getD .null))) entries))

/-- The key of a name in JSON text. -/
def keyText : Value → String
  | .text s => s
  | v => Json.line v

/-- A table as an object, for JSON text. -/
def Table.toValue (t : Table Value) : Value := .object (t.map fun (k, v) => (keyText k, v))

end LiveSvg.Settings
