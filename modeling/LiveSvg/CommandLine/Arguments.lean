import LiveSvg.Drawing.Geometry
/-!
Arguments of the command line: options with a value, flags, a command and what it is for. Reading
them stops at the first one that does not fit.
-/

namespace LiveSvg.CommandLine

open Number (Binary64)

/-- The options whose value is any word. -/
inductive WordOption where
  | output | values | settings
  deriving DecidableEq

structure Arguments where
  command : Option String := none
  positional : List String := []
  output : Option String := none
  values : Option String := none
  settings : Option String := none
  size : Option (Binary64 × Binary64) := none
  showHelp : Bool := false
  showVersion : Bool := false
  error : Option String := none

def wordOption? (arg : String) : Option WordOption :=
  if arg = "-o" ∨ arg = "--output" then some .output
  else if arg = "--values" then some .values
  else if arg = "--settings" then some .settings
  else none

namespace Arguments

def set (a : Arguments) (o : WordOption) (value : String) : Arguments :=
  match o with
  | .output => { a with output := some value }
  | .values => { a with values := some value }
  | .settings => { a with settings := some value }

def isOption (arg : String) : Bool := arg.toList.head? == some '-'

/-- A free word: the command first, then what it is for. -/
def addWord (a : Arguments) (word : String) : Arguments :=
  match a.command with
  | none => { a with command := some word }
  | some _ => { a with positional := a.positional ++ [word] }

def needsValue (a : Arguments) (arg : String) : Arguments :=
  { a with error := some (arg ++ " requires a value") }

/-- What follows the arguments read so far. -/
def read (a : Arguments) : List String → Arguments
  | [] => a
  | arg :: rest =>
    match wordOption? arg with
    | some o =>
      match rest with
      | value :: rest => read (a.set o value) rest
      | [] => a.needsValue arg
    | none =>
      if arg = "--size" then
        match rest with
        | value :: rest =>
          match Drawing.size? value with
          | some size => read { a with size := some size } rest
          | none => { a with error := some ("Invalid size: " ++ value ++ " (expected WxH)") }
        | [] => a.needsValue arg
      else if arg = "--help" ∨ arg = "-h" then read { a with showHelp := true } rest
      else if arg = "--version" ∨ arg = "-v" then read { a with showVersion := true } rest
      else if isOption arg then { a with error := some ("Unknown option: " ++ arg) }
      else read (a.addWord arg) rest

/-- The arguments in a list of words. -/
def ofList (words : List String) : Arguments := read {} words

end Arguments

end LiveSvg.CommandLine
