import LiveSvg.Number.Binary64
/-!
Values as documents and hosts carry them, their equality, and the two rules the visual lives by:
what replaces a missing value, and when a value counts as changed.
-/

namespace LiveSvg

open Number (Binary64)

/-- A value of JSON; integers and floating-point numbers are apart, members keep their order. -/
inductive Value where
  | null
  | bool (b : Bool)
  | int (n : Int)
  | float (x : Binary64)
  | text (s : String)
  | list (items : List Value)
  | object (members : List (String × Value))
  deriving Inhabited

namespace Value

abbrev Members := List (String × Value)

def Members.get? (members : List (String × α)) (key : String) : Option α :=
  match members with
  | [] => none
  | (k, v) :: rest => if k = key then some v else get? rest key

def Members.set (members : List (String × α)) (key : String) (value : α) : List (String × α) :=
  match members with
  | [] => [(key, value)]
  | (k, v) :: rest => if k = key then (k, value) :: rest else (k, v) :: set rest key value

def Members.erase (members : List (String × α)) (key : String) : List (String × α) :=
  members.filter (·.1 ≠ key)

/-- The member of an object, if it is one and has it. -/
def get? : Value → String → Option Value
  | .object members, key => Members.get? members key
  | _, _ => none

/-- The number that a truth value or a number stands for. -/
inductive Numeric where
  | int (n : Int)
  | float (x : Binary64)

def Numeric.place? : Numeric → Option Binary64.Place
  | .int n => some (.point n 1)
  | .float x => x.place?

def numeric? : Value → Option Numeric
  | .bool b => some (.int (if b then 1 else 0))
  | .int n => some (.int n)
  | .float x => some (.float x)
  | _ => none

/-- The exact order of two numbers; none beside a NaN. -/
def Numeric.compare? (x y : Numeric) : Option Ordering := do
  return (← x.place?).compare (← y.place?)

def Numeric.same (x y : Numeric) : Bool := x.compare? y == some .eq

mutual

/-- Equality by content: numbers and truth values by size, objects without regard to order. -/
def same : Value → Value → Bool
  | .null, .null => true
  | .text s, .text t => s == t
  | .list xs, .list ys => sameItems xs ys
  | .object ms, .object ns => ms.length == ns.length && sameMembers ms ns
  | .bool b, y => sameNumber (.int (if b then 1 else 0)) y
  | .int n, y => sameNumber (.int n) y
  | .float x, y => sameNumber (.float x) y
  | _, _ => false

def sameItems : List Value → List Value → Bool
  | [], [] => true
  | x :: xs, y :: ys => same x y && sameItems xs ys
  | _, _ => false

def sameMembers : List (String × Value) → List (String × Value) → Bool
  | [], _ => true
  | (k, v) :: rest, ns =>
    (match Members.get? ns k with
      | some w => same v w
      | none => false) && sameMembers rest ns

def sameNumber (x : Numeric) (y : Value) : Bool :=
  match y.numeric? with
  | some z => x.same z
  | none => false

end

/-- The kinds that are never equal to one another: truth values are no numbers here. -/
inductive Kind where
  | null | bool | number | text | list | object
  deriving DecidableEq

def kind : Value → Kind
  | .null => .null
  | .bool _ => .bool
  | .int _ => .number
  | .float _ => .number
  | .text _ => .text
  | .list _ => .list
  | .object _ => .object

/-- Whether a new value counts as a change: another kind, or unequal within a kind. -/
def differ (x y : Value) : Bool := x.kind != y.kind || !x.same y

/-- What stands for nothing in a value of the type named. -/
def emptyOf : String → Value
  | "STRING" => .text ""
  | "INTEGER" => .int 0
  | "DOUBLE" => .float (Binary64.zero false)
  | "BOOLEAN" => .bool false
  | "JSON" => .object []
  | _ => .null

/-- A missing value becomes the empty one of its type. -/
def normalize (value : Value) (type : String) : Value :=
  match value with
  | .null => emptyOf type
  | v => v

/-- Whether a condition on the value holds: nothing, zero and what is empty do not. -/
def truthy : Value → Bool
  | .null => false
  | .bool b => b
  | .int n => n ≠ 0
  | .float x => !x.isZero
  | .text s => !s.isEmpty
  | .list xs => !xs.isEmpty
  | .object ms => !ms.isEmpty

end Value

end LiveSvg
