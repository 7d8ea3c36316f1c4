import LiveSvg.Script.Datum
import LiveSvg.Script.Program
import LiveSvg.Number.Numeral
/-!
The operations of scripts on values: arithmetic, order, membership, items and the functions that
every script can call.
-/

namespace LiveSvg.Script.Operation

open Number

/-- What an operation makes: a value, or a new list or object. -/
inductive Made where
  | plain (d : Datum)
  | fresh (c : Contents)

abbrev Result := Except Failure Made

def wrong (message : String) : Except Failure α := .error (Failure.wrongType message)

def zeroDivision (message : String) : Except Failure α := .error ⟨.zeroDivision, message⟩

def tooLarge : Failure := ⟨.overflow, "int too large to convert to float"⟩

/-- A number as a floating-point one. -/
def toFloat : Value.Numeric → Except Failure Binary64
  | .int n =>
    let x := Binary64.ofInt n
    if x.isInfinite then .error tooLarge else .ok x
  | .float x => .ok x

def unsupported (op : String) (x y : Datum) : Except Failure α :=
  wrong ("unsupported operand type(s) for " ++ op ++ ": '" ++ x.typeName ++ "' and '" ++
    y.typeName ++ "'")

def operatorSign : Operator → String
  | .add => "+"
  | .sub => "-"
  | .mul => "*"
  | .div => "/"
  | .floorDiv => "//"
  | .mod => "%"

/-- The exact quotient of integers, rounded once. -/
def divideInts (a b : Int) : Except Failure Datum :=
  if b = 0 then zeroDivision "division by zero"
  else
    let x := Binary64.ofRatio (decide (a < 0) != decide (b < 0)) a.natAbs b.natAbs
    if x.isInfinite then .error ⟨.overflow, "integer division result too large for a float"⟩
    else .ok (.float x)

def intArithmetic (op : Operator) (a b : Int) : Except Failure Datum :=
  match op with
  | .add => .ok (.int (a + b))
  | .sub => .ok (.int (a - b))
  | .mul => .ok (.int (a * b))
  | .div => divideInts a b
  | .floorDiv =>
    if b = 0 then zeroDivision "integer division or modulo by zero" else .ok (.int (a.fdiv b))
  | .mod => if b = 0 then zeroDivision "integer modulo by zero" else .ok (.int (a.fmod b))

def floatArithmetic (op : Operator) (a b : Binary64) : Except Failure Datum :=
  match op with
  | .add => .ok (.float (a.add b))
  | .sub => .ok (.float (a.sub b))
  | .mul => .ok (.float (a.mul b))
  | .div => if b.isZero then zeroDivision "float division by zero" else .ok (.float (a.div b))
  | .floorDiv =>
    if b.isZero then zeroDivision "float floor division by zero"
    else .ok (.float (a.floorDivMod b).1)
  | .mod => if b.isZero then zeroDivision "float modulo" else .ok (.float (a.floorDivMod b).2)

def arithmetic (op : Operator) (x y : Value.Numeric) : Except Failure Datum :=
  match x, y with
  | .int a, .int b => intArithmetic op a b
  | x, y => do floatArithmetic op (← toFloat x) (← toFloat y)

/-- Items over and over. -/
def repeated (items : List α) (n : Int) : List α :=
  (List.replicate n.toNat items).flatten

/-- The largest text or list that repetition makes. -/
def maxLength : Nat := 100000000

def multiply (v : View) (x y : Datum) : Result :=
  let times := fun (n : Int) (d : Datum) =>
    match d, v.items? d with
    | .text s, _ =>
      if maxLength < s.length * n.toNat then .error ⟨.general, "out of memory"⟩
      else .ok (.plain (.text (String.ofList (repeated s.toList n))))
    | _, some items =>
      if maxLength < items.length * n.toNat then .error ⟨.general, "out of memory"⟩
      else .ok (.fresh (.list (repeated items n)))
    | _, none =>
      match d with
      | .ref _ => unsupported "*" x y
      | _ => wrong ("can't multiply sequence by non-int of type '" ++ d.typeName ++ "'")
  match x.index?, y.index? with
  | _, some n => times n x
  | some n, none => times n y
  | none, none => unsupported "*" x y

def binary (v : View) (op : Operator) (x y : Datum) : Result :=
  match x.numeric?, y.numeric? with
  | some a, some b => (arithmetic op a b).map .plain
  | _, _ =>
    match op with
    | .add =>
      match x, y with
      | .text s, .text t => .ok (.plain (.text (s ++ t)))
      | .text _, y => wrong ("can only concatenate str (not \"" ++ y.typeName ++ "\") to str")
      | x, y =>
        match v.items? x, v.items? y with
        | some xs, some ys => .ok (.fresh (.list (xs ++ ys)))
        | _, _ => unsupported "+" x y
    | .mul => multiply v x y
    | .mod =>
      match x with
      | .text _ => wrong "not all arguments converted during string formatting"
      | x => unsupported "%" x y
    | op => unsupported (operatorSign op) x y

def negate (x : Datum) : Except Failure Datum :=
  match x.numeric? with
  | some (.int n) => .ok (.int (-n))
  | some (.float a) => .ok (.float a.neg)
  | none => wrong ("bad operand type for unary -: '" ++ x.typeName ++ "'")

def posit (x : Datum) : Except Failure Datum :=
  match x.numeric? with
  | some (.int n) => .ok (.int n)
  | some (.float a) => .ok (.float a)
  | none => wrong ("bad operand type for unary +: '" ++ x.typeName ++ "'")

/-! ### Order and membership -/

def accepts (op : Comparison) (o : Ordering) : Bool :=
  match op with
  | .less => o == .lt
  | .atMost => o != .gt
  | .greater => o == .gt
  | .atLeast => o != .lt
  | _ => false

def comparisonSign : Comparison → String
  | .less => "<"
  | .atMost => "<="
  | .greater => ">"
  | _ => ">="

def compareChars : List Char → List Char → Ordering
  | [], [] => .eq
  | [], _ => .lt
  | _, [] => .gt
  | a :: as, b :: bs =>
    if a = b then compareChars as bs else if a.toNat < b.toNat then .lt else .gt

/-- The first place at which two lists differ. -/
def firstDifference (v : View) : List Datum → List Datum → Except Failure (Option (Datum × Datum))
  | x :: xs, y :: ys => do
    if ← v.same x y then firstDifference v xs ys else return some (x, y)
  | _, _ => .ok none

def order (v : View) (op : Comparison) (fuel : Nat) (x y : Datum) : Except Failure Bool :=
  match fuel with
  | 0 => .error View.stackExhausted
  | fuel + 1 =>
    match x.numeric?, y.numeric? with
    | some a, some b => .ok (((a.compare? b).map (accepts op)).getD false)
    | _, _ =>
      match x, y with
      | .text s, .text t => .ok (accepts op (compareChars s.toList t.toList))
      | x, y =>
        match v.items? x, v.items? y with
        | some xs, some ys => do
          match ← firstDifference v xs ys with
          | some (a, b) => order v op fuel a b
          | none => return accepts op (Ord.compare xs.length ys.length)
        | _, _ =>
          wrong ("'" ++ comparisonSign op ++ "' not supported between instances of '" ++
            x.typeName ++ "' and '" ++ y.typeName ++ "'")

def isInfix (part whole : List Char) : Bool :=
  part.isPrefixOf whole ||
    match whole with
    | [] => false
    | _ :: rest => isInfix part rest

def inRange (start stop step n : Int) : Bool :=
  (if 0 < step then start ≤ n && n < stop else stop < n && n ≤ start) && (n - start) % step == 0

/-- Whether a container has an item, a key or a part. -/
def contains (v : View) (container x : Datum) : Except Failure Bool :=
  match container with
  | .text s =>
    match x with
    | .text part => .ok (isInfix part.toList s.toList)
    | x => wrong ("'in <string>' requires string as left operand, not " ++ x.typeName)
  | .range start stop step =>
    match x.numeric? with
    | some (.int n) => .ok (inRange start stop step n)
    | some (.float a) => .ok (a.isInteger && inRange start stop step (a.truncate?.getD 0))
    | none => .ok false
  | d =>
    match v.items? d, v.members? d with
    | some items, _ => items.foldlM (fun found y => if found then .ok true else v.same x y) false
    | _, some members =>
      if x.isKey then .ok (Members.get? members x).isSome else wrong "unhashable type"
    | _, _ => wrong ("argument of type '" ++ d.typeName ++ "' is not iterable")

/-- Whether two values are one and the same. -/
def identical (x y : Datum) : Bool :=
  match x, y with
  | .bool a, .bool b => a == b
  | .int a, .int b => a == b
  | .bool _, _ => false
  | _, .bool _ => false
  | .int _, _ => false
  | _, .int _ => false
  | .float _, _ => false
  | .ref r, .ref s => r == s
  | x, y => x.sameKey y

def compare (v : View) (op : Comparison) (x y : Datum) : Except Failure Bool :=
  match op with
  | .equal => v.same x y
  | .unequal => do return !(← v.same x y)
  | .among => contains v y x
  | .notAmong => do return !(← contains v y x)
  | .identical => .ok (identical x y)
  | .notIdentical => .ok (!identical x y)
  | op => order v op View.maxDepth x y

/-! ### Items -/

/-- A place in a sequence; negative ones count from its end. -/
def place? (length : Nat) (i : Int) : Option Nat :=
  let j := if i < 0 then i + length else i
  if 0 ≤ j ∧ j < length then some j.toNat else none

def noIndex (kind : String) : Except Failure α := .error ⟨.noIndex, kind ++ " index out of range"⟩

def item (v : View) (x index : Datum) : Except Failure Datum :=
  let sequence := fun (kind : String) (length : Nat) (get : Nat → Option Datum) =>
    match index.index? with
    | none =>
      wrong (kind ++ " indices must be integers or slices, not " ++ index.typeName)
    | some i =>
      match (place? length i).bind get with
      | some d => .ok d
      | none => noIndex kind
  match x with
  | .text s =>
    let cs := s.toList
    sequence "string" cs.length fun i => (cs[i]?).map fun c => .text c.toString
  | .range start stop step =>
    sequence "range object" (View.rangeCount start stop step) fun i =>
      some (.int (start + step * (i : Int)))
  | d =>
    match v.items? d, v.members? d with
    | some items, _ => sequence "list" items.length fun i => items[i]?
    | _, some members =>
      if !index.isKey then wrong "unhashable type"
      else
        match Members.get? members index with
        | some d => .ok d
        | none => .error ⟨.noKey, v.spelled index⟩
    | _, _ => wrong ("'" ++ d.typeName ++ "' object is not subscriptable")

/-- What a list or an object holds once an item is stored. -/
def stored (v : View) (x index d : Datum) : Except Failure Contents :=
  match v.items? x, v.members? x with
  | some items, _ =>
    match index.index? with
    | none => wrong ("list indices must be integers or slices, not " ++ index.typeName)
    | some i =>
      match place? items.length i with
      | some i => .ok (.list (items.set i d))
      | none => .error ⟨.noIndex, "list assignment index out of range"⟩
  | _, some members =>
    if index.isKey then .ok (.object (Members.set members index d)) else wrong "unhashable type"
  | _, _ => wrong ("'" ++ x.typeName ++ "' object does not support item assignment")

/-- The items that going through a value gives. -/
def iterate (v : View) (x : Datum) : Except Failure (List Datum) :=
  match x with
  | .text s => .ok (s.toList.map fun c => .text c.toString)
  | .range start stop step =>
    .ok ((List.range (View.rangeCount start stop step)).map fun (i : Nat) => .int (start + step * (i : Int)))
  | d =>
    match v.items? d, v.members? d with
    | some items, _ => .ok items
    | _, some members => .ok (members.map (·.1))
    | _, _ => wrong ("'" ++ d.typeName ++ "' object is not iterable")

/-! ### Functions -/

def toInt (x : Datum) : Except Failure Datum :=
  match x with
  | .float a =>
    match a.truncate? with
    | some n => .ok (.int n)
    | none =>
      if a.isNaN then .error (Failure.wrongValue "cannot convert float NaN to integer")
      else .error ⟨.overflow, "cannot convert float infinity to integer"⟩
  | .text s =>
    match intOfText? s with
    | some n =>
      if tooLong n then .error Failure.hugeInteger else .ok (.int n)
    | none =>
      .error (Failure.wrongValue ("invalid literal for int() with base 10: " ++ Text.quoted s))
  | x =>
    match x.index? with
    | some n => .ok (.int n)
    | none =>
      wrong ("int() argument must be a string, a bytes-like object or a real number, not '" ++
        x.typeName ++ "'")

def toFloatDatum (x : Datum) : Except Failure Datum :=
  match x with
  | .text s =>
    match Binary64.ofText? s with
    | some a => .ok (.float a)
    | none => .error (Failure.wrongValue ("could not convert string to float: " ++ Text.quoted s))
  | x =>
    match x.numeric? with
    | some n => do return .float (← toFloat n)
    | none =>
      wrong ("float() argument must be a string or a real number, not '" ++ x.typeName ++ "'")

def length (v : View) (x : Datum) : Except Failure Datum :=
  match x with
  | .text s => .ok (.int s.length)
  | .range start stop step => .ok (.int (View.rangeCount start stop step))
  | d =>
    match v.items? d, v.members? d with
    | some items, _ => .ok (.int items.length)
    | _, some members => .ok (.int members.length)
    | _, _ => wrong ("object of type '" ++ d.typeName ++ "' has no len()")

def absolute (x : Datum) : Except Failure Datum :=
  match x.numeric? with
  | some (.int n) => .ok (.int n.natAbs)
  | some (.float a) => .ok (.float a.abs)
  | none => wrong ("bad operand type for abs(): '" ++ x.typeName ++ "'")

/-- The first item that none of the others surpasses. -/
def best (v : View) (op : Comparison) : List Datum → Except Failure (Option Datum)
  | [] => .ok none
  | x :: xs => do
    return some (← xs.foldlM (fun best y => do
      return if ← compare v op y best then y else best) x)

def extreme (v : View) (name : String) (op : Comparison) (args : List Datum) : Except Failure Datum :=
  match args with
  | [] => wrong (name ++ " expected at least 1 argument, got 0")
  | [x] => do
    match ← best v op (← iterate v x) with
    | some d => return d
    | none => throw (Failure.wrongValue (name ++ "() arg is an empty sequence"))
  | args => do return (← best v op args).getD .null

def rangeOf (args : List Datum) : Except Failure Datum :=
  let index := fun (d : Datum) =>
    match d.index? with
    | some n => Except.ok n
    | none => wrong ("'" ++ d.typeName ++ "' object cannot be interpreted as an integer")
  match args with
  | [stop] => do return .range 0 (← index stop) 1
  | [start, stop] => do return .range (← index start) (← index stop) 1
  | [start, stop, step] => do
    let (start, stop, step) := (← index start, ← index stop, ← index step)
    if step = 0 then throw (Failure.wrongValue "range() arg 3 must not be zero")
    else return .range start stop step
  | _ => wrong "range expected 1 to 3 arguments"

/-- The text of a value; integers that are too long have none. -/
def textOf (v : View) (d : Datum) : Except Failure String :=
  match d with
  | .int n => if tooLong n then .error Failure.hugeInteger else .ok (intText n)
  | d => .ok (v.shown d)

/-- Calls one of the functions that every script can call. -/
def call (v : View) (f : Function) (args : List Datum) : Except Failure Datum :=
  match f, args with
  | .str, [] => .ok (.text "")
  | .str, [x] => (textOf v x).map .text
  | .int, [] => .ok (.int 0)
  | .int, [x] => toInt x
  | .float, [] => .ok (.float (Binary64.zero false))
  | .float, [x] => toFloatDatum x
  | .len, [x] => length v x
  | .abs, [x] => absolute x
  | .max, args => extreme v "max" .greater args
  | .min, args => extreme v "min" .less args
  | .range, args => rangeOf args
  | _, _ => wrong "wrong number of arguments"

end LiveSvg.Script.Operation
