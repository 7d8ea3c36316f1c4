import LiveSvg.Failure
import LiveSvg.Number.Numeral
import LiveSvg.Text.Lines
import LiveSvg.Text.Quoted
import LiveSvg.Text.Utf8
/-!
Files by their names, and what goes wrong with them.
-/

namespace LiveSvg.CommandLine

/-- The bytes of files; what their names say of directories is all there is of them. -/
abbrev Files := List (String × List UInt8)

/-- Why a file cannot be read or written. -/
inductive Trouble where
  | missing (path : String)
  | isDirectory (path : String)
  | notDirectory (path : String)
  | noPath
  | undecodable (fault : Text.Utf8.Fault)

namespace Trouble

def hexText (b : UInt8) : String :=
  String.ofList (['0', 'x'] ++ (Nat.toDigits 16 (b.toNat + 256)).drop 1)

def faultText (f : Text.Utf8.Fault) : String :=
  let first := Number.intText f.position
  let place := match f.bytes with
    | [b] => "byte " ++ hexText b ++ " in position " ++ first
    | bs => "bytes in position " ++ first ++ "-" ++ Number.intText (f.position + bs.length - 1 : Nat)
  let reason := match f.reason with
    | .start => "invalid start byte"
    | .continuation => "invalid continuation byte"
    | .ended => "unexpected end of data"
  "'utf-8' codec can't decode " ++ place ++ ": " ++ reason

def failure : Trouble → Failure
  | .missing path => ⟨.noFile, "[Errno 2] No such file or directory: " ++ Text.quoted path⟩
  | .isDirectory path => ⟨.isDirectory, "[Errno 21] Is a directory: " ++ Text.quoted path⟩
  | .notDirectory path => ⟨.notDirectory, "[Errno 20] Not a directory: " ++ Text.quoted path⟩
  | .noPath => Failure.wrongValue "embedded null byte"
  | .undecodable fault => ⟨.undecodable, faultText fault⟩

end Trouble

namespace Files

/-- A path without parts that lead nowhere else. -/
def normalize (path : String) : String :=
  let cs := path.toList
  let slashes := (cs.takeWhile (· == '/')).length
  let root := if slashes = 0 then "" else if slashes = 2 then "//" else "/"
  let parts := (Text.splitAt '/' cs).filter fun p => !p.isEmpty && p != ['.']
  let joined := root ++ "/".intercalate (parts.map String.ofList)
  if joined.isEmpty then "." else joined

def get? (files : Files) (path : String) : Option (List UInt8) :=
  match files with
  | [] => none
  | (name, bytes) :: rest => if name = path then some bytes else get? rest path

def set (files : Files) (path : String) (bytes : List UInt8) : Files :=
  match files with
  | [] => [(path, bytes)]
  | (name, old) :: rest =>
    if name = path then (path, bytes) :: rest else (name, old) :: set rest path bytes

/-- The directory of a path. -/
def directory (path : String) : String :=
  match (Text.splitAt '/' path.toList).dropLast with
  | [] => "."
  | parts => String.ofList (['/'].intercalate parts)

def isDirectory (files : Files) (path : String) : Bool :=
  path == "." || path == ".." ||
    files.any fun (name, _) => (path.toList ++ ['/']).isPrefixOf name.toList

/-- Whether some directory that the path needs is a file. -/
def passesFile (files : Files) (path : String) : Bool :=
  files.any fun (name, _) => (name.toList ++ ['/']).isPrefixOf path.toList

/-- The text in a file, with its lines ended alike. -/
def read (files : Files) (path : String) : Except Trouble String :=
  let path := normalize path
  if path.toList.contains '\x00' then .error .noPath
  else if files.passesFile path then .error (.notDirectory path)
  else if files.isDirectory path then .error (.isDirectory path)
  else
    match files.get? path with
    | none => .error (.missing path)
    | some bytes =>
      match Text.Utf8.decode? bytes, Text.Utf8.fault? (bytes.length + 1) 0 bytes with
      | some cs, _ => .ok (String.ofList (Text.withLineFeeds cs))
      | none, some fault => .error (.undecodable fault)
      | none, none => .error (.missing path)

/-- The files once a text has been written. -/
def write (files : Files) (path text : String) : Except Trouble Files :=
  let path := normalize path
  if path.toList.contains '\x00' then .error .noPath
  else if files.passesFile path then .error (.notDirectory path)
  else if files.isDirectory path then .error (.isDirectory path)
  else if !files.isDirectory (directory path) then .error (.missing path)
  else .ok (files.set path (Text.Utf8.encode text))

end Files

end LiveSvg.CommandLine
