import LiveSvg.Drawing.Geometry
import LiveSvg.Failure
import LiveSvg.Value.Shown
/-!
The values that scripts work with: plain ones, references to lists and objects that can change,
functions, and the parts of the visual that scripts may touch.
-/

namespace LiveSvg.Script

open Number (Binary64)

/-- Where a list or an object is kept: in memory, or as one of the tables that every script sees. -/
inductive Ref where
  | cell (n : Nat)
  | values
  | tags
  | properties
  deriving DecidableEq

/-- A part of the visual. -/
inductive Entity where
  | scene
  | container
  | element (id : Nat)
  | context
  | api
  | animation (n : Nat)
  | timeline (element : Nat)
  | color (n : Nat)
  | colorSettings (n : Nat)
  | colorRange (n i : Nat)
  | box (b : Drawing.Box)
  | handler (n : Nat)
  | recorder (label : String)
  deriving DecidableEq

/-- A function that every script can call. -/
inductive Function where
  | str | int | float | len | max | min | abs | range
  deriving DecidableEq

/-- A class of failures that scripts can raise. -/
inductive ErrorClass where
  | value | runtime | key
  deriving DecidableEq

def ErrorClass.cause : ErrorClass → Cause
  | .value => .wrongValue
  | .runtime => .general
  | .key => .noKey

inductive Datum where
  | null
  | bool (b : Bool)
  | int (n : Int)
  | float (x : Binary64)
  | text (s : String)
  | ref (r : Ref)
  | range (start stop step : Int)
  | function (f : Function)
  | errorClass (c : ErrorClass)
  | error (c : ErrorClass) (args : List Datum)
  | entity (e : Entity)
  | method (owner : Datum) (name : String)
  | task
  deriving Inhabited

/-- What a reference holds. -/
inductive Contents where
  | list (items : List Datum)
  | object (members : List (Datum × Datum))

namespace Datum

def numeric? : Datum → Option Value.Numeric
  | .bool b => some (.int (if b then 1 else 0))
  | .int n => some (.int n)
  | .float x => some (.float x)
  | _ => none

/-- The whole number that a number or a truth value is. -/
def index? : Datum → Option Int
  | .bool b => some (if b then 1 else 0)
  | .int n => some n
  | _ => none

/-- What the type of a value is called. -/
def typeName : Datum → String
  | .null => "NoneType"
  | .bool _ => "bool"
  | .int _ => "int"
  | .float _ => "float"
  | .text _ => "str"
  | .ref _ => "object"
  | .range .. => "range"
  | .function f =>
    match f with
    | .str | .int | .float | .range => "type"
    | _ => "builtin_function_or_method"
  | .errorClass _ => "type"
  | .error .. => "Exception"
  | .entity e =>
    match e with
    | .scene => "Scene"
    | .container => "Container"
    | .element _ => "SvgElement"
    | .context => "RuntimeContext"
    | .api => "RuntimeApi"
    | .animation _ => "Animation"
    | .timeline _ => "Timeline"
    | .color _ => "ColorProcessor"
    | .colorSettings _ => "ColorSettings"
    | .colorRange .. => "ColorRange"
    | .box _ => "Box"
    | .handler _ => "partial"
    | .recorder _ => "function"
  | .method (.ref _) _ => "builtin_function_or_method"
  | .method .. => "method"
  | .task => "Task"

/-- Whether a value can be the key of an object. -/
def isKey : Datum → Bool
  | .ref _ => false
  | _ => true

/-- The datum of a value that is neither a list nor an object. -/
def ofName : Value → Datum
  | .bool b => .bool b
  | .int n => .int n
  | .float x => .float x
  | .text s => .text s
  | _ => .null

/-- The value that a datum is, if it is a plain one. -/
def plain? : Datum → Option Value
  | .null => some .null
  | .bool b => some (.bool b)
  | .int n => some (.int n)
  | .float x => some (.float x)
  | .text s => some (.text s)
  | _ => none

/-- Whether two keys of objects are the same one. -/
def sameKey (x y : Datum) : Bool :=
  match x, y with
  | .null, .null => true
  | .text s, .text t => s == t
  | .entity e, .entity f => e == f
  | .function f, .function g => f == g
  | .errorClass c, .errorClass d => c == d
  | x, y =>
    match x.numeric?, y.numeric? with
    | some a, some b => a.same b
    | _, _ => false

end Datum

/-- Members of an object by their keys. -/
abbrev Members := List (Datum × Datum)

namespace Members

def get? (ms : List (Datum × α)) (key : Datum) : Option α :=
  match ms with
  | [] => none
  | (k, v) :: rest => if k.sameKey key then some v else get? rest key

def set (ms : List (Datum × α)) (key : Datum) (value : α) : List (Datum × α) :=
  match ms with
  | [] => [(key, value)]
  | (k, v) :: rest => if k.sameKey key then (k, value) :: rest else (k, v) :: set rest key value

end Members

/-- What a script can see of its world at one moment. -/
structure View where
  contents : Ref → Contents
  describe : Entity → String
  size : Nat

namespace View

/-- The notation of a value; a list or an object inside itself is only hinted at. -/
def notated (v : View) (fuel : Nat) (around : List Ref) (d : Datum) : String :=
  match fuel with
  | 0 => "..."
  | fuel + 1 =>
    match d with
    | .ref r =>
      match v.contents r with
      | .list items =>
        if around.contains r then "[...]"
        else "[" ++ ", ".intercalate (items.map (notated v fuel (r :: around))) ++ "]"
      | .object members =>
        if around.contains r then "\x7b...\x7d"
        else
          "\x7b" ++ ", ".intercalate (members.map fun (k, x) =>
            notated v fuel (r :: around) k ++ ": " ++ notated v fuel (r :: around) x) ++ "\x7d"
    | .range start stop step =>
      let ends := Number.intText start ++ ", " ++ Number.intText stop
      "range(" ++ (if step = 1 then ends else ends ++ ", " ++ Number.intText step) ++ ")"
    | .function f => "<" ++ (Datum.function f).typeName ++ ">"
    | .errorClass c =>
      match c with
      | .value => "<class 'ValueError'>"
      | .runtime => "<class 'RuntimeError'>"
      | .key => "<class 'KeyError'>"
    | .error c args =>
      (match c with
        | .value => "ValueError("
        | .runtime => "RuntimeError("
        | .key => "KeyError(") ++
        ", ".intercalate (args.map (notated v fuel around)) ++ ")"
    | .entity e => v.describe e
    | .method _ name => "<bound method " ++ name ++ ">"
    | .task => "<Task>"
    | d => (d.plain?.getD .null).notated

/-- The notation of a value, however deep it is. -/
def spelled (v : View) (d : Datum) : String := v.notated (2 * v.size + 8) [] d

mutual

/-- The text of a value. -/
def shown (v : View) : Datum → String
  | .text s => s
  | .error c args => v.message c args
  | d => v.spelled d

/-- The text of a failure raised with arguments. -/
def message (v : View) (c : ErrorClass) : List Datum → String
  | [] => ""
  | [d] => if c = .key then v.spelled d else v.shown d
  | args => "(" ++ ", ".intercalate (args.map v.spelled) ++ ")"

end

def items? (v : View) : Datum → Option (List Datum)
  | .ref r =>
    match v.contents r with
    | .list items => some items
    | .object _ => none
  | _ => none

def members? (v : View) : Datum → Option Members
  | .ref r =>
    match v.contents r with
    | .list _ => none
    | .object members => some members
  | _ => none

/-- The number of items of a range. -/
def rangeCount (start stop step : Int) : Nat :=
  if 0 < step then ((stop - start + step - 1).fdiv step).toNat
  else ((start - stop - step - 1).fdiv (-step)).toNat

/-- Whether a condition on the value holds. -/
def truthy (v : View) : Datum → Bool
  | .ref r =>
    match v.contents r with
    | .list items => !items.isEmpty
    | .object members => !members.isEmpty
  | .range start stop step => rangeCount start stop step != 0
  | .null => false
  | .bool b => b
  | .int n => n != 0
  | .float x => !x.isZero
  | .text s => !s.isEmpty
  | _ => true

/-- The value of a datum; what is no value stands there by its notation. -/
def value (v : View) (fuel : Nat) (d : Datum) : Value :=
  match fuel with
  | 0 => .null
  | fuel + 1 =>
    match d with
    | .ref r =>
      match v.contents r with
      | .list items => .list (items.map (value v fuel))
      | .object members => .object (members.map fun (k, x) => (v.shown k, value v fuel x))
    | d => d.plain?.getD (.text (v.spelled d))

/-- The value of a datum, however deep it is. -/
def valueOf (v : View) (d : Datum) : Value := v.value (v.size + 2) d

def stackExhausted : Failure := ⟨.stackExhausted, "maximum recursion depth exceeded"⟩

/-- Levels of lists and objects that a comparison goes down. -/
def maxDepth : Nat := 900

mutual

/-- Equality by content. -/
def equal (v : View) (fuel : Nat) (x y : Datum) : Except Failure Bool :=
  match fuel with
  | 0 => .error stackExhausted
  | fuel + 1 =>
    match x, y with
    | .ref r, .ref s =>
      if r = s then .ok true
      else
        match v.contents r, v.contents s with
        | .list xs, .list ys => if xs.length = ys.length then equalItems v fuel xs ys else .ok false
        | .object ms, .object ns =>
          if ms.length = ns.length then equalMembers v fuel ms ns else .ok false
        | _, _ => .ok false
    | .range a b c, .range d e f => .ok (a == d && b == e && c == f)
    | x, y => .ok (x.sameKey y)

def equalItems (v : View) (fuel : Nat) (xs ys : List Datum) : Except Failure Bool :=
  match fuel with
  | 0 => .error stackExhausted
  | fuel + 1 => (xs.zip ys).foldlM (fun same (x, y) => if same then equal v fuel x y else .ok false) true

def equalMembers (v : View) (fuel : Nat) (ms ns : Members) : Except Failure Bool :=
  match fuel with
  | 0 => .error stackExhausted
  | fuel + 1 =>
    ms.foldlM (fun same (k, x) =>
      if same then
        match Members.get? ns k with
        | some y => equal v fuel x y
        | none => .ok false
      else .ok false) true

end

def same (v : View) (x y : Datum) : Except Failure Bool := v.equal (2 * maxDepth) x y

/-- The kinds of values that are never equal to one another. -/
def kind (v : View) : Datum → Value.Kind × String
  | .null => (.null, "")
  | .bool _ => (.bool, "")
  | .int _ => (.number, "")
  | .float _ => (.number, "")
  | .text _ => (.text, "")
  | .ref r =>
    match v.contents r with
    | .list _ => (.list, "")
    | .object _ => (.object, "")
  | d => (.null, d.typeName)

/-- Whether a new value counts as a change. -/
def differ (v : View) (x y : Datum) : Except Failure Bool :=
  if v.kind x != v.kind y then .ok true else do return !(← v.same x y)

end View

end LiveSvg.Script
