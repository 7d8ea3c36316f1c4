import LiveSvg.Number.Binary64
/-!
The language of scripts: expressions and statements.
-/

namespace LiveSvg.Script

open Number (Binary64)

inductive Comparison where
  | equal | unequal | less | atMost | greater | atLeast | among | notAmong | identical | notIdentical
  deriving DecidableEq

inductive Operator where
  | add | sub | mul | div | floorDiv | mod
  deriving DecidableEq

inductive Expr where
  | null
  | bool (b : Bool)
  | int (n : Int)
  | float (x : Binary64)
  | text (s : String)
  | list (items : List Expr)
  | object (members : List (Expr × Expr))
  | name (s : String)
  | member (e : Expr) (name : String)
  | item (e index : Expr)
  | call (f : Expr) (args : List Expr)
  | not (e : Expr)
  | negate (e : Expr)
  | posit (e : Expr)
  | both (x y : Expr)
  | either (x y : Expr)
  | compare (first : Expr) (rest : List (Comparison × Expr))
  | binary (op : Operator) (x y : Expr)
  | choose (condition yes no : Expr)

inductive Stmt where
  | pass
  | eval (e : Expr)
  | assign (name : String) (e : Expr)
  | store (target index e : Expr)
  | when (condition : Expr) (yes no : List Stmt)
  | each (name : String) (items : Expr) (body : List Stmt)
  | give (e : Option Expr)
  | raise (e : Option Expr)

/-- A body with its parameters. An open one takes any arguments and does nothing. -/
structure Program where
  name : String
  params : List String
  body : List Stmt
  isOpen : Bool := false

mutual

/-- The names that a statement binds. -/
def Stmt.binds : Stmt → List String
  | .assign name _ => [name]
  | .when _ yes no => bindsAll yes ++ bindsAll no
  | .each name _ body => name :: bindsAll body
  | _ => []

def bindsAll : List Stmt → List String
  | [] => []
  | s :: rest => s.binds ++ bindsAll rest

end

/-- The names that are the program's own. -/
def Program.locals (p : Program) : List String := p.params ++ bindsAll p.body

end LiveSvg.Script
