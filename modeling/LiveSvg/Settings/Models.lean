import LiveSvg.Settings.Field
/-!
The settings of behaviors, each with the members that it does not know kept as they were given.
-/

namespace LiveSvg.Settings

/-- A remote call. -/
structure Rpc where
  method : String
  requestTimeout : Int := 5000
  requestPersistent : Bool := false
  pollingInterval : Int := 1000
  extra : List (String × Value) := []

namespace Rpc

def keys : List (String × String) :=
  [("method", "method"), ("requestTimeout", "request_timeout"),
    ("requestPersistent", "request_persistent"),
    ("persistentPollingInterval", "persistent_polling_interval")]

def ofValue? (v : Value) : Option Rpc := do
  let ms ← members? v
  return {
    method := ← required? ms "method" "method" text?
    requestTimeout := ← field? ms "requestTimeout" "request_timeout" int? 5000
    requestPersistent := ← field? ms "requestPersistent" "request_persistent" bool? false
    pollingInterval :=
      ← field? ms "persistentPollingInterval" "persistent_polling_interval" int? 1000
    extra := extras ms keys }

def toValue (s : Rpc) : Value :=
  .object ([("method", .text s.method), ("requestTimeout", .int s.requestTimeout),
    ("requestPersistent", .bool s.requestPersistent),
    ("persistentPollingInterval", .int s.pollingInterval)] ++ s.extra)

end Rpc

def optionalText : Option String → Value
  | some s => .text s
  | none => .null

/-- The key under which device state is kept. -/
def defaultKey : String := "state"

/-- An attribute of a device. -/
structure Attribute where
  key : String := defaultKey
  scope : Option String := none
  extra : List (String × Value) := []

namespace Attribute

def ofValue? (v : Value) : Option Attribute := do
  let ms ← members? v
  return {
    key := ← field? ms "key" "key" text? defaultKey
    scope := ← field? ms "scope" "scope" (optional? text?) none
    extra := extras ms [("key", "key"), ("scope", "scope")] }

def toValue (s : Attribute) : Value :=
  .object ([("key", .text s.key), ("scope", optionalText s.scope)] ++ s.extra)

end Attribute

/-- A time series of a device. -/
structure TimeSeries where
  key : String := defaultKey
  extra : List (String × Value) := []

namespace TimeSeries

def ofValue? (v : Value) : Option TimeSeries := do
  let ms ← members? v
  return { key := ← field? ms "key" "key" text? defaultKey, extra := extras ms [("key", "key")] }

def toValue (s : TimeSeries) : Value := .object (("key", .text s.key) :: s.extra)

end TimeSeries

/-- How acquired data becomes a value. -/
structure Inbound where
  type : String := "NONE"
  compareTo : Value := .bool true
  function : String := "# Should return boolean value\nreturn data"
  extra : List (String × Value) := []

namespace Inbound

def keys : List (String × String) :=
  [("type", "type"), ("compareToValue", "compare_to_value"),
    ("dataToValueFunction", "data_to_value_function")]

def ofValue? (v : Value) : Option Inbound := do
  let ms ← members? v
  let d : Inbound := {}
  return {
    type := ← field? ms "type" "type" text? d.type
    compareTo := ← field? ms "compareToValue" "compare_to_value" any? d.compareTo
    function := ← field? ms "dataToValueFunction" "data_to_value_function" text? d.function
    extra := extras ms keys }

def toValue (s : Inbound) : Value :=
  .object ([("type", .text s.type), ("compareToValue", s.compareTo),
    ("dataToValueFunction", .text s.function)] ++ s.extra)

end Inbound

/-- How a value becomes the data sent. -/
structure Outbound where
  type : String := "CONSTANT"
  constant : Value := .null
  function : String :=
    "# Convert input boolean value to RPC parameters or attribute/time-series value\nreturn value"
  extra : List (String × Value) := []

namespace Outbound

def keys : List (String × String) :=
  [("type", "type"), ("constantValue", "constant_value"),
    ("valueToDataFunction", "value_to_data_function")]

def ofValue? (v : Value) : Option Outbound := do
  let ms ← members? v
  let d : Outbound := {}
  return {
    type := ← field? ms "type" "type" text? d.type
    constant := ← field? ms "constantValue" "constant_value" any? d.constant
    function := ← field? ms "valueToDataFunction" "value_to_data_function" text? d.function
    extra := extras ms keys }

def toValue (s : Outbound) : Value :=
  .object ([("type", .text s.type), ("constantValue", s.constant),
    ("valueToDataFunction", .text s.function)] ++ s.extra)

end Outbound

/-- How a value behavior acquires its value. The label is whatever the behavior is named. -/
structure Acquisition where
  action : String := "DO_NOTHING"
  default : Value := .null
  rpc : Rpc := { method := "getState" }
  attr : Attribute := {}
  timeSeries : TimeSeries := {}
  inbound : Inbound := {}
  label : Value := .null
  extra : List (String × Value) := []

namespace Acquisition

def actions : List String := ["DO_NOTHING", "EXECUTE_RPC", "GET_ATTRIBUTE", "GET_TIME_SERIES"]

def keys : List (String × String) :=
  [("action", "action"), ("defaultValue", "default_value"), ("executeRpc", "execute_rpc"),
    ("getAttribute", "get_attribute"), ("getTimeSeries", "get_time_series"),
    ("dataToValue", "data_to_value"), ("actionLabel", "action_label")]

def ofValue? (v : Value) : Option Acquisition := do
  let ms ← members? v
  let d : Acquisition := {}
  return {
    action := ← field? ms "action" "action" (oneOf? actions) d.action
    default := ← field? ms "defaultValue" "default_value" any? d.default
    rpc := ← field? ms "executeRpc" "execute_rpc" Rpc.ofValue? d.rpc
    attr := ← field? ms "getAttribute" "get_attribute" Attribute.ofValue? d.attr
    timeSeries := ← field? ms "getTimeSeries" "get_time_series" TimeSeries.ofValue? d.timeSeries
    inbound := ← field? ms "dataToValue" "data_to_value" Inbound.ofValue? d.inbound
    label := optionalText (← field? ms "actionLabel" "action_label" (optional? text?) none)
    extra := extras ms keys }

def toValue (s : Acquisition) : Value :=
  .object ([("action", .text s.action), ("defaultValue", s.default), ("executeRpc", s.rpc.toValue),
    ("getAttribute", s.attr.toValue), ("getTimeSeries", s.timeSeries.toValue),
    ("dataToValue", s.inbound.toValue), ("actionLabel", s.label)] ++ s.extra)

end Acquisition

/-- How an action behavior sends its value. -/
structure Dispatch where
  action : String := "EXECUTE_RPC"
  rpc : Rpc := { method := "setState" }
  attr : Attribute := { scope := some "SERVER_SCOPE" }
  timeSeries : TimeSeries := {}
  outbound : Outbound := {}
  label : Value := .null
  extra : List (String × Value) := []

namespace Dispatch

def actions : List String := ["EXECUTE_RPC", "SET_ATTRIBUTE", "ADD_TIME_SERIES"]

def keys : List (String × String) :=
  [("action", "action"), ("executeRpc", "execute_rpc"), ("setAttribute", "set_attribute"),
    ("putTimeSeries", "put_time_series"), ("valueToData", "value_to_data"),
    ("actionLabel", "action_label")]

def ofValue? (v : Value) : Option Dispatch := do
  let ms ← members? v
  let d : Dispatch := {}
  return {
    action := ← field? ms "action" "action" (oneOf? actions) d.action
    rpc := ← field? ms "executeRpc" "execute_rpc" Rpc.ofValue? d.rpc
    attr := ← field? ms "setAttribute" "set_attribute" Attribute.ofValue? d.attr
    timeSeries := ← field? ms "putTimeSeries" "put_time_series" TimeSeries.ofValue? d.timeSeries
    outbound := ← field? ms "valueToData" "value_to_data" Outbound.ofValue? d.outbound
    label := optionalText (← field? ms "actionLabel" "action_label" (optional? text?) none)
    extra := extras ms keys }

def toValue (s : Dispatch) : Value :=
  .object ([("action", .text s.action), ("executeRpc", s.rpc.toValue),
    ("setAttribute", s.attr.toValue), ("putTimeSeries", s.timeSeries.toValue),
    ("valueToData", s.outbound.toValue), ("actionLabel", s.label)] ++ s.extra)

end Dispatch

/-- What the host is asked to do for a widget action. -/
structure WidgetAction where
  type : String := "updateDashboardState"
  targetState : Option String := none
  openRightLayout : Bool := false
  setEntityId : Bool := true
  entityParameter : Option String := none
  extra : List (String × Value) := []

namespace WidgetAction

def keys : List (String × String) :=
  [("type", "type"), ("targetDashboardStateId", "target_dashboard_state_id"),
    ("openRightLayout", "open_right_layout"), ("setEntityId", "set_entity_id"),
    ("stateEntityParamName", "state_entity_param_name")]

def ofValue? (v : Value) : Option WidgetAction := do
  let ms ← members? v
  let d : WidgetAction := {}
  return {
    type := ← field? ms "type" "type" text? d.type
    targetState := ← field? ms "targetDashboardStateId" "target_dashboard_state_id"
      (optional? text?) d.targetState
    openRightLayout := ← field? ms "openRightLayout" "open_right_layout" bool? d.openRightLayout
    setEntityId := ← field? ms "setEntityId" "set_entity_id" bool? d.setEntityId
    entityParameter := ← field? ms "stateEntityParamName" "state_entity_param_name"
      (optional? text?) d.entityParameter
    extra := extras ms keys }

def toValue (s : WidgetAction) : Value :=
  .object ([("type", .text s.type), ("targetDashboardStateId", optionalText s.targetState),
    ("openRightLayout", .bool s.openRightLayout), ("setEntityId", .bool s.setEntityId),
    ("stateEntityParamName", optionalText s.entityParameter)] ++ s.extra)

end WidgetAction

end LiveSvg.Settings
