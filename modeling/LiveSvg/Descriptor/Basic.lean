import LiveSvg.Value.Basic
/-!
The descriptor of a document: named groups of elements with their scripts, behaviors that bind
values and actions, and properties. Its fields hold what the document says, of whatever type.
-/

namespace LiveSvg

/-- A named group of elements, its render script and its action scripts by trigger. -/
structure Tag where
  name : Value
  render : Value
  actions : Option (List (String × Value))

/-- What a behavior does: take a value in, send one out, or ask the host for something. -/
inductive Behavior.Kind where
  | value (valueType default valueId trueLabel falseLabel stateLabel : Value)
  | action (dataType constant function : Value)
  | widget

structure Behavior where
  id : Value
  name : Value
  hint : Value
  kind : Behavior.Kind

/-- A parameter of the visual; the hints say how to ask for it. -/
structure Property where
  id : Value
  name : Value
  type : Value
  default : Value
  hints : List (String × Value)

structure Descriptor where
  title : Value
  render : Value
  tags : List Tag
  behaviors : List Behavior
  properties : List Property

namespace Descriptor

/-- The descriptor of a document that carries none. -/
def empty : Descriptor := ⟨.text "", .null, [], [], []⟩

/-- The members whose values are there. -/
def present (members : List (String × Value)) : List (String × Value) :=
  members.filter fun (_, v) => v.kind != .null

def actionValue (source : Value) : Value := .object (present [("actionFunction", source)])

def tagValue (t : Tag) : Value :=
  .object (("tag", t.name) :: present [("stateRenderFunction", t.render)] ++
    match t.actions with
    | none => []
    | some actions => [("actions", .object (actions.map fun (k, source) => (k, actionValue source)))])

def kindName : Behavior.Kind → String
  | .value .. => "value"
  | .action .. => "action"
  | .widget => "widgetAction"

def kindMembers : Behavior.Kind → List (String × Value)
  | .value valueType default valueId trueLabel falseLabel stateLabel =>
    [("valueType", valueType), ("defaultValue", default), ("valueId", valueId)] ++
      present [("trueLabel", trueLabel), ("falseLabel", falseLabel), ("stateLabel", stateLabel)]
  | .action dataType constant function =>
    [("valueToDataType", dataType), ("constantValue", constant)] ++
      present [("valueToDataFunction", function)]
  | .widget => []

def behaviorValue (b : Behavior) : Value :=
  .object ([("id", b.id), ("name", b.name), ("type", .text (kindName b.kind))] ++
    present [("hint", b.hint)] ++ kindMembers b.kind)

def propertyValue (p : Property) : Value :=
  .object ([("id", p.id), ("name", p.name), ("type", p.type), ("default", p.default)] ++ p.hints)

/-- The descriptor as it is written into documents. -/
def toValue (d : Descriptor) : Value :=
  .object (("title", d.title) :: present [("stateRenderFunction", d.render)] ++
    [("tags", .list (d.tags.map tagValue)), ("behavior", .list (d.behaviors.map behaviorValue)),
      ("properties", .list (d.properties.map propertyValue))])

def behavior? (d : Descriptor) (id : Value) : Option Behavior :=
  d.behaviors.find? (·.id.same id)

def property? (d : Descriptor) (id : Value) : Option Property :=
  d.properties.find? (·.id.same id)

end Descriptor

end LiveSvg
