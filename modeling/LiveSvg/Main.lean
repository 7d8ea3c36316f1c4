import LiveSvg.CommandLine.Commands
/-!
The command line.
-/

open LiveSvg CommandLine

/-- The files among the names that can be read. -/
def readFiles (names : List String) : IO Files :=
  names.filterMapM fun (name : String) => do
    try return some (Files.normalize name, (← IO.FS.readBinFile name).toList)
    catch _ => return none

/-- Writes the files that are new or have changed. -/
def writeFiles (before after : Files) : IO Unit :=
  after.forM fun ((name : String), bytes) => do
    if before.get? name != some bytes then IO.FS.writeBinFile name ⟨bytes.toArray⟩

/-- Log entries that are shown: warnings and errors. -/
def isShown (e : Log.Entry) : Bool := e.level == .warning || e.level == .error

def main (words : List String) : IO UInt32 := do
  let a := Arguments.ofList words
  let names := a.positional ++ a.values.toList ++ a.settings.toList
  let before ← readFiles names
  let outcome := run words before
  let stderr ← IO.getStderr
  (outcome.shell.log.filter isShown).forM fun e => stderr.putStrLn e.line
  IO.print outcome.shell.out
  stderr.putStr outcome.shell.err
  try writeFiles before outcome.shell.files
  catch e =>
    stderr.putStrLn (toString e)
    return 1
  match outcome.failure with
  | some f =>
    stderr.putStrLn f.message
    return 1
  | none => return UInt32.ofNat (outcome.status.getD 0)
