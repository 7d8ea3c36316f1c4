import LiveSvg.CommandLine.Arguments
import LiveSvg.CommandLine.Files
import LiveSvg.World.Create
/-!
The commands: the descriptor in a document, a document with a descriptor, default settings, and a
document run once with given values. Output goes to the standard output or to a file, last of all.
-/

namespace LiveSvg.CommandLine

def version : String := "0.1.0"

def help : String := "
IoT SVG CLI v" ++ version ++ "

Usage:
  iotsvg [options] <command> [arguments]

Commands:
  extract FILE                  Print the embedded descriptor as JSON
  embed FILE METADATA           Embed a descriptor JSON file into an SVG
  defaults FILE                 Print the default settings of an SVG
  render FILE                   Run the SVG with static values, print the result

Options:
  -o, --output PATH             Write output to PATH instead of stdout
  --values PATH                 JSON object of acquired values, keyed by behavior name (render)
  --settings PATH               JSON object of settings overrides, keyed by id (render)
  --size WxH                    Target size, e.g. 320x240 (render)
  -h, --help                    Show this help
  -v, --version                 Show version

Environment:
  IOTSVG_LOG_LEVEL              Logging level (default: WARNING)
"

/-- The state of the program: the files, what it has printed, and its log. -/
structure Shell where
  files : Files
  out : String := ""
  err : String := ""
  log : Log := []

/-- Why a command ends before its end: with a status, for a file, or for a failure. -/
inductive Stop where
  | status (code : Nat)
  | trouble (t : Trouble)
  | failed (f : Failure)

abbrev Command := ExceptT Stop (StateM Shell)

namespace Command

def print (line : String) : Command Unit := modify fun s => { s with out := s.out ++ line ++ "\n" }

def warn (line : String) : Command Unit := modify fun s => { s with err := s.err ++ line ++ "\n" }

def logged (r : Log × Except Failure α) : Command α := do
  modify fun s => { s with log := s.log ++ r.1 }
  match r.2 with
  | .ok a => return a
  | .error f => throw (.failed f)

def read (path : String) : Command String := do
  match (← get).files.read path with
  | .ok s => return s
  | .error t => throw (.trouble t)

/-- Writes to the file given, if there is one, else to the standard output. -/
def write (text : String) (output : Option String) : Command Unit := do
  match output.filter (!·.isEmpty) with
  | none => print text
  | some path =>
    match (← get).files.write path text with
    | .ok files => modify fun s => { s with files }
    | .error t => throw (.trouble t)

/-- Prints what went wrong, and ends. -/
def giveUp (message : String) : Command α := do
  warn ("Error: " ++ message)
  throw (.status 1)

/-- The object in a file of JSON, an empty one without a file. What is wrong with it is printed. -/
def readObject (path : Option String) : Command (List (String × Value)) := do
  match path.filter (!·.isEmpty) with
  | none => return []
  | some path =>
    match (← get).files.read path with
    | .error t => giveUp t.failure.message
    | .ok text =>
      match Json.read text with
      | .ok (.object ms) => return ms
      | .ok _ => giveUp (path ++ ": expected a JSON object")
      | .error .malformed => giveUp "<json>"
      | .error .hugeInteger => giveUp Failure.hugeInteger.message
      | .error .tooDeep => throw (.failed Script.View.stackExhausted)

/-! ### The commands -/

def extract (path : String) (output : Option String) : Command Unit := do
  let d ← logged (Document.descriptorOf (.text (← read path)))
  write d.toJson output

def embed (path descriptorPath : String) (output : Option String) : Command Unit := do
  match Descriptor.parse (← read descriptorPath) with
  | .error problem =>
    let f := problem.failure
    if f.cause = .descriptor then giveUp f.message else throw (.failed f)
  | .ok d =>
    match (← get).files.read path with
    | .error (.undecodable fault) => giveUp (Trouble.undecodable fault).failure.message
    | .error .noPath => giveUp Trouble.noPath.failure.message
    | .error t => throw (.trouble t)
    | .ok content =>
      let (log, result) := Document.update content d
      modify fun s => { s with log := s.log ++ log }
      match result with
      | .ok markup => write markup output
      | .error f => giveUp f.message

def defaults (path : String) (output : Option String) : Command Unit := do
  let d ← logged (Document.descriptorOf (.text (← read path)))
  let table ← logged ([], Settings.defaults d)
  write (Json.tree table.toValue) output

/-- Turns until the values that a visual acquires are there. -/
def acquire (turns : Nat) : Run Unit :=
  match turns with
  | 0 => return
  | turns + 1 => do
    if (← Run.acquisitionDone) = some false then
      let _ ← Run.turn Run.play
      acquire turns

/-- What one run of a visual gives: its markup, and the messages for who looks after it. -/
def render (size : Option (Number.Binary64 × Number.Binary64)) : Run (String × List String) := do
  match size with
  | some (width, height) => Run.setSize (.float width) (.float height)
  | none => pure ()
  Run.start Run.play
  acquire Run.maxTurns
  let markup := (← Run.drawing "markup").markup
  Run.destroy
  return (markup, (← get).visual.errors)

/-- What a document is called while it runs. -/
def documentName : String := "document.svg"

def renderFile (path : String) (a : Arguments) : Command Unit := do
  let values ← readObject a.values
  let overrides ← readObject a.settings
  let content ← read path
  let world := World.ofSetup {
    path := documentName, overrides := .object overrides, values
    documents := [(documentName, content)] }
  let (log, result) := match (render a.size).run world with
    | .ok r w => (w.log, Except.ok r)
    | .error f w => (w.log, .error f)
  let (markup, messages) ← logged (log, result)
  messages.forM fun m => warn ("Warning: " ++ m)
  write markup a.output

/-! ### The whole -/

def usage : Command α := do
  print "Run 'iotsvg --help' for usage."
  throw (.status 1)

/-- How many files a command is for. -/
def arity? : String → Option Nat
  | "extract" => some 1
  | "embed" => some 2
  | "defaults" => some 1
  | "render" => some 1
  | _ => none

def perform (command : String) (a : Arguments) : Command Unit := do
  match command, a.positional with
  | "extract", [path] => extract path a.output
  | "embed", [path, descriptorPath] => embed path descriptorPath a.output
  | "defaults", [path] => defaults path a.output
  | "render", [path] => renderFile path a
  | _, _ => return

/-- Carries out the arguments; only a command gives a status. -/
def carryOut (a : Arguments) : Command (Option Nat) := do
  match a.error with
  | some e =>
    print ("Error: " ++ e)
    usage
  | none =>
    if a.showHelp then
      print help
      return none
    else if a.showVersion then
      print ("iotsvg " ++ version)
      return none
    else
      match a.command with
      | none =>
        print help
        return none
      | some command =>
        match arity? command with
        | none =>
          print ("Unknown command: " ++ command)
          usage
        | some n =>
          if a.positional.length ≠ n then
            print ("Error: " ++ command ++ " expects " ++ Number.intText n ++ " argument(s)")
            throw (.status 1)
          else
            perform command a
            return some 0

end Command

/-- How the program ends: with a status or without one, or in a failure that nothing took care of. -/
structure Outcome where
  status : Option Nat
  failure : Option Failure
  shell : Shell

/-- Runs the program on its arguments and the files there are. -/
def run (words : List String) (files : Files) : Outcome :=
  match (Command.carryOut (Arguments.ofList words)).run.run { files } with
  | (.ok status, s) => ⟨status, none, s⟩
  | (.error (.status code), s) => ⟨some code, none, s⟩
  | (.error (.failed f), s) => ⟨none, some f, s⟩
  | (.error (.trouble (.missing path)), s) =>
    ⟨some 1, none, { s with out := s.out ++ "Error: " ++ path ++ ": no such file\n" }⟩
  | (.error (.trouble t), s) => ⟨none, some t.failure, s⟩

end LiveSvg.CommandLine
