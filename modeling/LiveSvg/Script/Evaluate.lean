import LiveSvg.Script.Act
import LiveSvg.Script.Operation
/-!
Running programs: what they ask their world, in which order, and what they end with.
-/

namespace LiveSvg.Script

/-- The names of a program and what is bound to those that have been assigned. -/
structure Locals where
  names : List String
  bound : List (String × Datum)

namespace Locals

def assign (l : Locals) (name : String) (d : Datum) : Locals :=
  { l with bound := Value.Members.set l.bound name d }

end Locals

/-- What names mean that a program does not bind. -/
def globals : List (String × Datum) :=
  [("str", .function .str), ("int", .function .int), ("float", .function .float),
    ("len", .function .len), ("max", .function .max), ("min", .function .min),
    ("abs", .function .abs), ("range", .function .range), ("ValueError", .errorClass .value),
    ("RuntimeError", .errorClass .runtime), ("KeyError", .errorClass .key)]

def Locals.look (l : Locals) (name : String) : Except Failure Datum :=
  match Value.Members.get? l.bound name with
  | some d => .ok d
  | none =>
    if l.names.contains name then
      .error ⟨.unassigned, "cannot access local variable '" ++ name ++
        "' where it is not associated with a value"⟩
    else
      match Value.Members.get? globals name with
      | some d => .ok d
      | none => .error ⟨.noName, "name '" ++ name ++ "' is not defined"⟩

namespace Act

def wrong (message : String) : Act α := .fail (Failure.wrongType message)

def made : Operation.Made → Act Datum
  | .plain d => .done d
  | .fresh c => create c

end Act

/-- The member of a value that a script names. -/
def memberOf (d : Datum) (name : String) : Act Datum :=
  match d with
  | .entity e => Act.get e name
  | .ref r => do
    match (← Act.view).contents r with
    | .list _ =>
      if name = "append" then return .method d name else .fail (Failure.noAttribute "list" name)
    | .object _ => .fail (Failure.noAttribute "dict" name)
  | d => .fail (Failure.noAttribute d.typeName name)

/-- Adds an item to the end of a list. -/
def appendTo (r : Ref) (args : List Datum) : Act Datum := do
  match args, (← Act.view).contents r with
  | [x], .list items =>
    Act.store r (.list (items ++ [x]))
    return .null
  | _, _ => Act.wrong "list.append() takes exactly one argument"

/-- Calls a value. -/
def callDatum (f : Datum) (args : List Datum) : Act Datum :=
  match f with
  | .function f => Act.see fun v => Operation.call v f args
  | .errorClass c => .done (.error c args)
  | .method (.entity e) name => Act.invoke e name args
  | .method (.ref r) _ => appendTo r args
  | .entity e => Act.apply e args
  | d => Act.wrong ("'" ++ d.typeName ++ "' object is not callable")

/-- Raises what a script says is an error. -/
def raiseDatum (d : Datum) : Act α :=
  match d with
  | .error c args => do .fail ⟨c.cause, (← Act.view).message c args⟩
  | .errorClass c => .fail ⟨c.cause, ""⟩
  | _ => Act.wrong "exceptions must derive from BaseException"

def truth (d : Datum) : Act Bool := do return (← Act.view).truthy d

mutual

/-- The value of an expression. -/
def Expr.eval (l : Locals) : Expr → Act Datum
  | .null => .done .null
  | .bool b => .done (.bool b)
  | .int n => .done (.int n)
  | .float x => .done (.float x)
  | .text s => .done (.text s)
  | .list items => do Act.create (.list (← evalAll l items))
  | .object members => do Act.create (.object (← evalMembers l members []))
  | .name s => Act.ofExcept (l.look s)
  | .member e name => do memberOf (← e.eval l) name
  | .item e index => do
    let d ← e.eval l
    let i ← index.eval l
    Act.see fun v => Operation.item v d i
  | .call f args => do
    let f ← f.eval l
    callDatum f (← evalAll l args)
  | .not e => do return .bool !(← truth (← e.eval l))
  | .negate e => do Act.ofExcept (Operation.negate (← e.eval l))
  | .posit e => do Act.ofExcept (Operation.posit (← e.eval l))
  | .both x y => do
    let d ← x.eval l
    if ← truth d then y.eval l else return d
  | .either x y => do
    let d ← x.eval l
    if ← truth d then return d else y.eval l
  | .compare first rest => do evalChain l (← first.eval l) rest
  | .binary op x y => do
    let a ← x.eval l
    let b ← y.eval l
    Act.made (← Act.see fun v => Operation.binary v op a b)
  | .choose condition yes no => do
    if ← truth (← condition.eval l) then yes.eval l else no.eval l

def evalAll (l : Locals) : List Expr → Act (List Datum)
  | [] => .done []
  | e :: rest => do
    let d ← e.eval l
    return d :: (← evalAll l rest)

def evalMembers (l : Locals) : List (Expr × Expr) → Members → Act Members
  | [], done => .done done
  | (k, e) :: rest, done => do
    let key ← k.eval l
    let d ← e.eval l
    if key.isKey then evalMembers l rest (Members.set done key d)
    else Act.wrong "unhashable type"

/-- A chain of comparisons, which ends at the first that does not hold. -/
def evalChain (l : Locals) (left : Datum) : List (Comparison × Expr) → Act Datum
  | [] => .done (.bool true)
  | (op, e) :: rest => do
    let right ← e.eval l
    if ← Act.see fun v => Operation.compare v op left right then evalChain l right rest
    else return .bool false

end

/-- How a statement ends: with what follows it, or with the value of the program. -/
inductive Ending where
  | next (l : Locals)
  | gave (d : Datum)

/-- The items still to come of what a loop goes through. -/
inductive Items where
  | list (r : Ref) (i : Nat)
  | keys (r : Ref) (count : Nat) (rest : List Datum)
  | range (next step : Int) (count : Nat)
  | given (rest : List Datum)

/-- The next item, if there is one. -/
def Items.next (v : View) : Items → Except Failure (Option (Datum × Items))
  | .list r i =>
    match v.contents r with
    | .list items => .ok ((items[i]?).map fun d => (d, .list r (i + 1)))
    | .object _ => .ok none
  | .keys r count rest =>
    match v.contents r with
    | .object members =>
      if members.length = count then
        match rest with
        | d :: rest => .ok (some (d, .keys r count rest))
        | [] => .ok none
      else .error ⟨.general, "dictionary changed size during iteration"⟩
    | .list _ => .ok none
  | .range _ _ 0 => .ok none
  | .range next step (count + 1) => .ok (some (.int next, .range (next + step) step count))
  | .given [] => .ok none
  | .given (d :: rest) => .ok (some (d, .given rest))

def Items.of (v : View) (d : Datum) : Except Failure Items :=
  match d with
  | .range start stop step => .ok (.range start step (View.rangeCount start stop step))
  | .ref r =>
    match v.contents r with
    | .list _ => .ok (.list r 0)
    | .object members => .ok (.keys r members.length (members.map (·.1)))
  | d => (Operation.iterate v d).map .given

/-- Rounds that a loop may take. -/
def maxRounds : Nat := 10000000

/-- Goes through items with a body. -/
def each (name : String) (body : Locals → Act Ending) (fuel : Nat) (items : Items) (l : Locals) :
    Act Ending :=
  match fuel with
  | 0 => .fail View.stackExhausted
  | fuel + 1 => do
    match ← Act.see fun v => items.next v with
    | none => return .next l
    | some (d, items) =>
      match ← body (l.assign name d) with
      | .next l => each name body fuel items l
      | .gave d => return .gave d

mutual

def Stmt.exec (l : Locals) : Stmt → Act Ending
  | .pass => .done (.next l)
  | .eval e => do
    let _ ← e.eval l
    return .next l
  | .assign name e => do return .next (l.assign name (← e.eval l))
  | .store target index e => do
    let d ← e.eval l
    let x ← target.eval l
    let i ← index.eval l
    let c ← Act.see fun v => Operation.stored v x i d
    match x with
    | .ref r => Act.store r c
    | _ => pure ()
    return .next l
  | .when condition yes no => do
    if ← truth (← condition.eval l) then execAll l yes else execAll l no
  | .each name items body => do
    let d ← items.eval l
    let items ← Act.see fun v => Items.of v d
    each name (fun l => execAll l body) maxRounds items l
  | .give none => .done (.gave .null)
  | .give (some e) => do return .gave (← e.eval l)
  | .raise none => .fail ⟨.general, "No active exception to reraise"⟩
  | .raise (some e) => do raiseDatum (← e.eval l)

def execAll (l : Locals) : List Stmt → Act Ending
  | [] => .done (.next l)
  | s :: rest => do
    match ← s.exec l with
    | .next l => execAll l rest
    | .gave d => return .gave d

end

namespace Program

/-- Runs a program on arguments; without a value of its own it gives nothing. -/
def call (p : Program) (args : List Datum) : Act Datum :=
  if p.isOpen then .done .null
  else if args.length ≠ p.params.length then
    Act.wrong (p.name ++ "() takes a different number of arguments")
  else do
    match ← execAll ⟨p.locals, p.params.zip args⟩ p.body with
    | .gave d => return d
    | .next _ => return .null

end Program

end LiveSvg.Script
