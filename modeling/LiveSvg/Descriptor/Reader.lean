import LiveSvg.Descriptor.Basic
import LiveSvg.Failure
import LiveSvg.Json.Reader
import LiveSvg.Json.Writer
import LiveSvg.Value.Shown
/-!
Descriptors from JSON text: which values describe one, and the one way in which the others fail.
-/

namespace LiveSvg.Descriptor

/-- What names are repeated in. -/
inductive Naming where
  | tag | behavior | property
  deriving DecidableEq

def Naming.label : Naming → String
  | .tag => "tag"
  | .behavior => "behavior id"
  | .property => "property id"

/-- Why a text is not a descriptor. -/
inductive Problem where
  | notJson
  | tooDeep
  | hugeInteger
  | notObject
  | missing (key : String)
  | notIterable
  | noMembers
  | repeated (naming : Naming) (name : Value)
  | noName

/-- Values that can be names: all but lists and objects. -/
def isName : Value → Bool
  | .list _ => false
  | .object _ => false
  | _ => true

/-- Whether two names are the same one. -/
def sameName (x y : Value) : Bool :=
  x.same y ||
    match x, y with
    | .float x, .float y => x.isNaN && y.isNaN
    | _, _ => false

def members? : Value → Except Problem (List (String × Value))
  | .object ms => .ok ms
  | _ => .error .noMembers

/-- The items of a member that should be a list; an absent one has none. -/
def items (ms : List (String × Value)) (key : String) : Except Problem (List Value) :=
  match Value.Members.get? ms key with
  | none => .ok []
  | some (.list xs) => .ok xs
  | some (.object ns) => .ok (ns.map fun (k, _) => .text k)
  | some (.text s) => .ok (s.toList.map fun c => .text c.toString)
  | some _ => .error .notIterable

def required (ms : List (String × Value)) (key : String) : Except Problem Value :=
  match Value.Members.get? ms key with
  | some v => .ok v
  | none => .error (.missing key)

def optional (ms : List (String × Value)) (key : String) (default : Value) : Value :=
  (Value.Members.get? ms key).getD default

def actionOf (v : Value) : Except Problem Value := do
  let ms ← members? (if v.truthy then v else .object [])
  return optional ms "actionFunction" .null

def actionsOf : Value → Except Problem (Option (List (String × Value)))
  | .null => .ok none
  | v => do
    let ms ← members? v
    let actions ← ms.mapM fun (k, a) => do return (k, ← actionOf a)
    return some actions

def tagOf (v : Value) : Except Problem Tag := do
  let ms ← members? v
  let name ← required ms "tag"
  return ⟨name, optional ms "stateRenderFunction" .null,
    ← actionsOf (optional ms "actions" .null)⟩

/-- A behavior of a known type; the others are passed over. -/
def behaviorOf (v : Value) : Except Problem (Option Behavior) := do
  let ms ← members? v
  let type := optional ms "type" (.text "")
  if !isName type then throw .notIterable
  let opt := fun key => optional ms key .null
  let name := optional ms "name" (.text "")
  match type with
  | .text "value" =>
    let id ← required ms "id"
    let valueId ← required ms "valueId"
    return some ⟨id, name, opt "hint", .value (optional ms "valueType" (.text "BOOLEAN"))
      (opt "defaultValue") valueId (opt "trueLabel") (opt "falseLabel") (opt "stateLabel")⟩
  | .text "action" =>
    let id ← required ms "id"
    return some ⟨id, name, opt "hint", .action (optional ms "valueToDataType" (.text "CONSTANT"))
      (opt "constantValue") (opt "valueToDataFunction")⟩
  | .text "widgetAction" =>
    let id ← required ms "id"
    return some ⟨id, name, opt "hint", .widget⟩
  | _ => return none

/-- The hints that a property may carry, in the order in which they are written. -/
def hintNames : List String :=
  ["required", "subLabel", "divider", "fieldSuffix", "disableOnProperty", "rowClass", "fieldClass",
    "min", "max", "step"]

def propertyOf (v : Value) : Except Problem Property := do
  let ms ← members? v
  let id ← required ms "id"
  let type ← required ms "type"
  return ⟨id, optional ms "name" (.text ""), type, optional ms "default" .null,
    present (hintNames.map fun key => (key, optional ms key .null))⟩

/-- Fails at the first name that has occurred before. -/
def checkUnique (naming : Naming) (seen : List Value) : List Value → Except Problem Unit
  | [] => .ok ()
  | name :: rest =>
    if !isName name then .error .noName
    else if seen.any (sameName name) then .error (.repeated naming name)
    else checkUnique naming (name :: seen) rest

/-- The descriptor that a value is, names not yet checked. -/
def ofValue : Value → Except Problem Descriptor
  | .object ms => do
    let behaviors ← (← items ms "behavior").mapM behaviorOf
    let tags ← (← items ms "tags").mapM tagOf
    let properties ← (← items ms "properties").mapM propertyOf
    return ⟨optional ms "title" (.text ""), optional ms "stateRenderFunction" .null, tags,
      behaviors.filterMap id, properties⟩
  | _ => .error .notObject

def readProblem : Json.ReadError → Problem
  | .malformed => .notJson
  | .tooDeep => .tooDeep
  | .hugeInteger => .hugeInteger

/-- The descriptor in a JSON text. -/
def parse (text : String) : Except Problem Descriptor := do
  let v ← (Json.read text).mapError readProblem
  let d ← ofValue v
  checkUnique .tag [] (d.tags.map (·.name))
  checkUnique .behavior [] (d.behaviors.map (·.id))
  checkUnique .property [] (d.properties.map (·.id))
  return d

def unusable (reason : String) : String := "descriptor has an unusable structure: " ++ reason

/-- The failure that a problem shows as; two of them are no failure of the descriptor. -/
def Problem.failure : Problem → Failure
  | .notJson => ⟨.descriptor, "descriptor is not valid JSON: <json>"⟩
  | .tooDeep => ⟨.descriptor, "descriptor is nested too deeply"⟩
  | .hugeInteger => Failure.hugeInteger
  | .notObject => ⟨.descriptor, "descriptor must be a JSON object"⟩
  | .missing key => ⟨.descriptor, unusable ("KeyError(" ++ Text.quoted key ++ ")")⟩
  | .notIterable => ⟨.descriptor, unusable "TypeError"⟩
  | .noMembers => ⟨.descriptor, unusable "AttributeError"⟩
  | .repeated naming name =>
    ⟨.descriptor, "duplicate " ++ naming.label ++ ": " ++ name.notated⟩
  | .noName => Failure.wrongType "unhashable type"

/-- The descriptor as the JSON text that documents carry. -/
def toJson (d : Descriptor) : String := Json.tree d.toValue

end LiveSvg.Descriptor
