import LiveSvg.Script.Program
import LiveSvg.Script.Token
/-!
The grammar of scripts: statements from tokens.
-/

namespace LiveSvg.Script

/-- Words that name nothing. -/
def keywords : List String :=
  ["False", "None", "True", "and", "as", "assert", "async", "await", "break", "class", "continue",
    "def", "del", "elif", "else", "except", "finally", "for", "from", "global", "if", "import", "in",
    "is", "lambda", "nonlocal", "not", "or", "pass", "raise", "return", "try", "while", "with",
    "yield"]

namespace Grammar

def takeSign (s : String) : List Token → Option (List Token)
  | .sign t :: rest => if t = s then some rest else none
  | _ => none

def takeWord (s : String) : List Token → Option (List Token)
  | .name t :: rest => if t = s then some rest else none
  | _ => none

def startsSign (s : String) (ts : List Token) : Bool := (takeSign s ts).isSome

/-- A comparison, if one comes next. -/
def takeComparison : List Token → Option (Comparison × List Token)
  | .sign "==" :: rest => some (.equal, rest)
  | .sign "!=" :: rest => some (.unequal, rest)
  | .sign "<" :: rest => some (.less, rest)
  | .sign "<=" :: rest => some (.atMost, rest)
  | .sign ">" :: rest => some (.greater, rest)
  | .sign ">=" :: rest => some (.atLeast, rest)
  | .name "in" :: rest => some (.among, rest)
  | .name "not" :: .name "in" :: rest => some (.notAmong, rest)
  | .name "is" :: .name "not" :: rest => some (.notIdentical, rest)
  | .name "is" :: rest => some (.identical, rest)
  | _ => none

def takeSumSign : List Token → Option (Operator × List Token)
  | .sign "+" :: rest => some (.add, rest)
  | .sign "-" :: rest => some (.sub, rest)
  | _ => none

def takeTermSign : List Token → Option (Operator × List Token)
  | .sign "*" :: rest => some (.mul, rest)
  | .sign "/" :: rest => some (.div, rest)
  | .sign "//" :: rest => some (.floorDiv, rest)
  | .sign "%" :: rest => some (.mod, rest)
  | _ => none

mutual

def expr (fuel : Nat) (ts : List Token) : Option (Expr × List Token) :=
  match fuel with
  | 0 => none
  | fuel + 1 => do
    let (yes, ts) ← disjunction fuel ts
    match takeWord "if" ts with
    | some ts =>
      let (condition, ts) ← disjunction fuel ts
      let (no, ts) ← expr fuel (← takeWord "else" ts)
      return (.choose condition yes no, ts)
    | none => return (yes, ts)

def disjunction (fuel : Nat) (ts : List Token) : Option (Expr × List Token) :=
  match fuel with
  | 0 => none
  | fuel + 1 => do
    let (x, ts) ← conjunction fuel ts
    match takeWord "or" ts with
    | some ts =>
      let (y, ts) ← disjunction fuel ts
      return (.either x y, ts)
    | none => return (x, ts)

def conjunction (fuel : Nat) (ts : List Token) : Option (Expr × List Token) :=
  match fuel with
  | 0 => none
  | fuel + 1 => do
    let (x, ts) ← inversion fuel ts
    match takeWord "and" ts with
    | some ts =>
      let (y, ts) ← conjunction fuel ts
      return (.both x y, ts)
    | none => return (x, ts)

def inversion (fuel : Nat) (ts : List Token) : Option (Expr × List Token) :=
  match fuel with
  | 0 => none
  | fuel + 1 =>
    match takeWord "not" ts with
    | some ts => do
      let (x, ts) ← inversion fuel ts
      return (.not x, ts)
    | none => do
      let (x, ts) ← sum fuel ts
      let (rest, ts) ← comparisons fuel ts
      return (if rest.isEmpty then x else .compare x rest, ts)

def comparisons (fuel : Nat) (ts : List Token) : Option (List (Comparison × Expr) × List Token) :=
  match fuel with
  | 0 => none
  | fuel + 1 =>
    match takeComparison ts with
    | some (op, ts) => do
      let (x, ts) ← sum fuel ts
      let (rest, ts) ← comparisons fuel ts
      return ((op, x) :: rest, ts)
    | none => some ([], ts)

def sum (fuel : Nat) (ts : List Token) : Option (Expr × List Token) :=
  match fuel with
  | 0 => none
  | fuel + 1 => do
    let (x, ts) ← term fuel ts
    sumMore fuel x ts

def sumMore (fuel : Nat) (x : Expr) (ts : List Token) : Option (Expr × List Token) :=
  match fuel with
  | 0 => none
  | fuel + 1 =>
    match takeSumSign ts with
    | some (op, ts) => do
      let (y, ts) ← term fuel ts
      sumMore fuel (.binary op x y) ts
    | none => some (x, ts)

def term (fuel : Nat) (ts : List Token) : Option (Expr × List Token) :=
  match fuel with
  | 0 => none
  | fuel + 1 => do
    let (x, ts) ← factor fuel ts
    termMore fuel x ts

def termMore (fuel : Nat) (x : Expr) (ts : List Token) : Option (Expr × List Token) :=
  match fuel with
  | 0 => none
  | fuel + 1 =>
    match takeTermSign ts with
    | some (op, ts) => do
      let (y, ts) ← factor fuel ts
      termMore fuel (.binary op x y) ts
    | none => some (x, ts)

def factor (fuel : Nat) (ts : List Token) : Option (Expr × List Token) :=
  match fuel with
  | 0 => none
  | fuel + 1 =>
    match ts with
    | .sign "-" :: ts => do
      let (x, ts) ← factor fuel ts
      return (.negate x, ts)
    | .sign "+" :: ts => do
      let (x, ts) ← factor fuel ts
      return (.posit x, ts)
    | ts => do
      let (x, ts) ← atom fuel ts
      primary fuel x ts

/-- Members, items and calls of what has been read. -/
def primary (fuel : Nat) (x : Expr) (ts : List Token) : Option (Expr × List Token) :=
  match fuel with
  | 0 => none
  | fuel + 1 =>
    match ts with
    | .sign "." :: .name s :: ts =>
      if keywords.contains s then none else primary fuel (.member x s) ts
    | .sign "." :: _ => none
    | .sign "[" :: ts => do
      let (index, ts) ← expr fuel ts
      primary fuel (.item x index) (← takeSign "]" ts)
    | .sign "(" :: ts => do
      let (args, ts) ← exprs fuel ")" ts
      primary fuel (.call x args) ts
    | ts => some (x, ts)

/-- Expressions between commas, up to a closing bracket. -/
def exprs (fuel : Nat) (closing : String) (ts : List Token) : Option (List Expr × List Token) :=
  match fuel with
  | 0 => none
  | fuel + 1 =>
    match takeSign closing ts with
    | some ts => some ([], ts)
    | none => do
      let (x, ts) ← expr fuel ts
      match takeSign "," ts with
      | some ts =>
        let (xs, ts) ← exprs fuel closing ts
        return (x :: xs, ts)
      | none => return ([x], ← takeSign closing ts)

/-- Keys and values between commas, up to the closing brace. -/
def members (fuel : Nat) (ts : List Token) : Option (List (Expr × Expr) × List Token) :=
  match fuel with
  | 0 => none
  | fuel + 1 =>
    match takeSign "\x7d" ts with
    | some ts => some ([], ts)
    | none => do
      let (k, ts) ← expr fuel ts
      let (x, ts) ← expr fuel (← takeSign ":" ts)
      match takeSign "," ts with
      | some ts =>
        let (ms, ts) ← members fuel ts
        return ((k, x) :: ms, ts)
      | none => return ([(k, x)], ← takeSign "\x7d" ts)

def atom (fuel : Nat) (ts : List Token) : Option (Expr × List Token) :=
  match fuel with
  | 0 => none
  | fuel + 1 =>
    match ts with
    | .name "None" :: ts => some (.null, ts)
    | .name "True" :: ts => some (.bool true, ts)
    | .name "False" :: ts => some (.bool false, ts)
    | .name s :: ts => if keywords.contains s then none else some (.name s, ts)
    | .int n :: ts => some (.int n, ts)
    | .float x :: ts => some (.float x, ts)
    | .text s :: .text t :: ts => atom fuel (.text (s ++ t) :: ts)
    | .text s :: ts => some (.text s, ts)
    | .sign "(" :: ts => do
      let (x, ts) ← expr fuel ts
      return (x, ← takeSign ")" ts)
    | .sign "[" :: ts => do
      let (xs, ts) ← exprs fuel "]" ts
      return (.list xs, ts)
    | .sign "\x7b" :: ts => do
      let (ms, ts) ← members fuel ts
      return (.object ms, ts)
    | _ => none

end

/-- The end of a simple statement. -/
def atEnd : List Token → Bool
  | .newline :: _ => true
  | .sign ";" :: _ => true
  | _ => false

/-- A statement without others inside it. -/
def small (fuel : Nat) (ts : List Token) : Option (Stmt × List Token) :=
  match ts with
  | .name "pass" :: ts => some (.pass, ts)
  | .name "return" :: ts =>
    if atEnd ts then some (.give none, ts)
    else do
      let (e, ts) ← expr fuel ts
      return (.give (some e), ts)
  | .name "raise" :: ts =>
    if atEnd ts then some (.raise none, ts)
    else do
      let (e, ts) ← expr fuel ts
      return (.raise (some e), ts)
  | ts => do
    let (target, ts) ← expr fuel ts
    match takeSign "=" ts with
    | none => return (.eval target, ts)
    | some ts =>
      let (e, ts) ← expr fuel ts
      match target with
      | .name s => return (.assign s e, ts)
      | .item x index => return (.store x index e, ts)
      | _ => none

/-- Simple statements on one line. -/
def line (fuel : Nat) (ts : List Token) : Option (List Stmt × List Token) :=
  match fuel with
  | 0 => none
  | fuel + 1 => do
    let (s, ts) ← small fuel ts
    match ts with
    | .newline :: ts => return ([s], ts)
    | .sign ";" :: .newline :: ts => return ([s], ts)
    | .sign ";" :: ts =>
      let (more, ts) ← line fuel ts
      return (s :: more, ts)
    | _ => none

mutual

/-- Statements up to where the block ends. -/
def block (fuel : Nat) (ts : List Token) : Option (List Stmt × List Token) :=
  match fuel with
  | 0 => none
  | fuel + 1 =>
    match ts with
    | .dedent :: ts => some ([], ts)
    | ts => do
      let (ss, ts) ← statement fuel ts
      let (more, ts) ← block fuel ts
      return (ss ++ more, ts)

/-- What follows a colon: statements on the same line, or an indented block. -/
def suite (fuel : Nat) (ts : List Token) : Option (List Stmt × List Token) :=
  match fuel with
  | 0 => none
  | fuel + 1 =>
    match ts with
    | .newline :: .indent :: .dedent :: _ => none
    | .newline :: .indent :: ts => block fuel ts
    | .newline :: _ => none
    | ts => line fuel ts

/-- What follows the word `if` or `elif`. -/
def branches (fuel : Nat) (ts : List Token) : Option (Stmt × List Token) :=
  match fuel with
  | 0 => none
  | fuel + 1 => do
    let (condition, ts) ← expr fuel ts
    let (yes, ts) ← suite fuel (← takeSign ":" ts)
    match ts with
    | .name "elif" :: ts =>
      let (no, ts) ← branches fuel ts
      return (.when condition yes [no], ts)
    | .name "else" :: ts =>
      let (no, ts) ← suite fuel (← takeSign ":" ts)
      return (.when condition yes no, ts)
    | ts => return (.when condition yes [], ts)

def statement (fuel : Nat) (ts : List Token) : Option (List Stmt × List Token) :=
  match fuel with
  | 0 => none
  | fuel + 1 =>
    match ts with
    | .name "if" :: ts => do
      let (s, ts) ← branches fuel ts
      return ([s], ts)
    | .name "for" :: .name s :: .name "in" :: ts =>
      if keywords.contains s then none
      else do
        let (items, ts) ← expr fuel ts
        let (body, ts) ← suite fuel (← takeSign ":" ts)
        return ([.each s items body], ts)
    | ts => line fuel ts

end

/-- A body from its tokens: one block. -/
def body (ts : List Token) : Option (List Stmt) :=
  match ts with
  | .indent :: rest =>
    match block (16 * ts.length + 16) rest with
    | some (ss, []) => some ss
    | _ => none
  | _ => none

end Grammar

end LiveSvg.Script
