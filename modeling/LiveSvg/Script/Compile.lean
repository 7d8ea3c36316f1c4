import LiveSvg.Descriptor.Basic
import LiveSvg.Log
import LiveSvg.Script.Evaluate
import LiveSvg.Script.Grammar
import LiveSvg.Text.Lines
import LiveSvg.Text.Utf8
/-!
Sources become programs. What cannot be compiled becomes a program that does nothing, and the log
says so; one whose parameters have no proper names takes any arguments.
-/

namespace LiveSvg.Script

open Text

/-- The margin of a body inside its program. -/
def bodyMargin : List Char := [' ', ' ', ' ', ' ']

/-- The statement that follows every body, so that one of comments alone is a body too. -/
def bodyEnd : List Char := ['\n'] ++ bodyMargin ++ ['p', 'a', 's', 's', '\n']

/-- A body as its statements are read: at a depth of its own, and with a statement at its end. -/
def bodyText (source : List Char) : List Char :=
  withLineFeeds (indented bodyMargin (trimmedOf '\n' (dedented source)) ++ bodyEnd)

/-- The statements of a body. -/
def statements? (source : String) : Option (List Stmt) := do
  let cs := bodyText (chars source)
  if cs.contains '\x00' then none
  else Grammar.body (← Token.read (4 * cs.length + 8) {} cs)

/-- Whether a parameter can have the name. -/
def isParameter (name : String) : Bool :=
  isIdentifier name.toList && !keywords.contains name

def distinct : List String → Bool
  | [] => true
  | s :: rest => !rest.contains s && distinct rest

/-- Whether a program can have the parameters, no two of them alike, and the name. -/
def isHead (params : List String) (name : String) : Bool :=
  params.all isParameter && distinct params && !params.contains "__debug__" &&
    !name.toList.contains '\x00'

namespace Program

/-- The program that takes any arguments and does nothing. -/
def ignore : Program := { name := "_ignore_args", params := [], body := [], isOpen := true }

/-- The program that does nothing. -/
def idle (params : List String) (name : String) : Program :=
  if isHead params name then { name, params, body := [.give (some .null)] } else ignore

/-- The program of a source. -/
def ofSource (source : String) (params : List String) (name : String) : Log × Program :=
  if (chars source).all isBlank then ([], idle params name)
  else
    match params.find? fun p => !isParameter p with
    | some p =>
      ([Log.warning ("functions: " ++ name ++ ": invalid parameter name " ++ quoted p)],
        idle params name)
    | none =>
      match if isHead params name then statements? source else none with
      | some body => ([], { name, params, body })
      | none => ([Log.warning ("functions: " ++ name)], idle params name)

/-- The program of a script in a descriptor, which is a text or nothing. -/
def ofScript (script : Value) (params : List String) (name : String) :
    Except Failure (Log × Program) :=
  match script with
  | .null => .ok ([], idle params name)
  | .text source => .ok (ofSource source params name)
  | .bool _ => .error (Failure.noAttribute "bool" "strip")
  | .int _ => .error (Failure.noAttribute "int" "strip")
  | .float _ => .error (Failure.noAttribute "float" "strip")
  | .list _ => .error (Failure.noAttribute "list" "strip")
  | .object _ => .error (Failure.noAttribute "dict" "strip")

end Program

end LiveSvg.Script
