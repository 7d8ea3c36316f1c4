import LiveSvg.Text.Blank
import LiveSvg.Text.Escape
import LiveSvg.Failure
import LiveSvg.Number.Numeral
/-!
Addresses as a request carries them: cut into their parts, each part escaped where it has to be, and
the path without steps to itself or upward.
-/

namespace LiveSvg.Download

open Text Number

/-- An address in its parts. -/
structure Address where
  scheme : List Char
  user : List Char
  host : List Char
  service : Option Int
  path : List Char
  query : Option (List Char)
  fragment : Option (List Char)

namespace Address

/-- The longest address that is read. -/
def maxLength : Nat := 65536

def invalid (text : String) : Failure := ⟨.invalidAddress, "Invalid address: " ++ text⟩

/-- The printable characters of ASCII except the blank and those given. -/
def isPlain (except : List Char) (c : Char) : Bool := '\x20' < c && c < '\x7f' && !except.contains c

def staysInUser : Char → Bool :=
  isPlain ['\x22', '#', '<', '>', '?', '\x60', '\x7b', '\x7d', '/', ';', '=', '@', '[', '\x5c', ']',
    '^', '|']

def staysInHost (c : Char) : Bool :=
  isUnreserved c || isDelimiter c ||
    ['\x22', '\x60', '\x7b', '\x7d', '%', '|', '\x5c'].contains c

def staysInPath : Char → Bool := isPlain ['\x22', '#', '<', '>', '?', '\x60', '\x7b', '\x7d']

def staysInQuery : Char → Bool := isPlain ['\x22', '#', '<', '>']

def staysInFragment : Char → Bool := isPlain ['\x22', '<', '>', '\x60']

/-- The path without steps to itself; a step upward takes the step before it away. -/
def simplify (path : List Char) : List Char :=
  let steps := splitAt '/' path
  if steps.any fun s => s == ['.'] || s == ['.', '.'] then
    let kept := steps.foldl (fun kept s =>
      if s = ['.'] then kept
      else if s = ['.', '.'] then (if kept = [] ∨ kept = [[]] then kept else kept.dropLast)
      else kept ++ [s]) []
    ['/'].intercalate kept
  else path

/-- A scheme before a colon, and the rest. -/
def takeScheme (cs : List Char) : List Char × List Char :=
  match splitFirst ':' cs with
  | some (scheme, rest) =>
    let proper := match scheme with
      | [] => true
      | c :: cs => c.isAlpha && cs.all fun c => c.isAlphanum || ['+', '-', '.'].contains c
    if proper then (scheme, rest) else ([], cs)
  | none => ([], cs)

/-- What stands before the last occurrence of a character, and after it. -/
def splitLast (mark : Char) (cs : List Char) : Option (List Char × List Char) :=
  (splitFirst mark cs.reverse).map fun (after, before) => (before.reverse, after.reverse)

/-- Whether four numbers, divided by points, are bytes without needless zeros. -/
def areBytes (numbers : List (List Char)) : Bool :=
  numbers.all fun ds =>
    ds.length ≤ 3 && natOfDigits ds < 256 && (ds.length == 1 || ds.head? != some '0')

/-- The host in small letters; four numbers have to be bytes. -/
def readHost? (cs : List Char) : Option (List Char) :=
  let numbers := splitAt '.' cs
  if numbers.length == 4 && numbers.all fun ds => !ds.isEmpty && ds.all isAsciiDigit then
    if areBytes numbers then some cs else none
  else
    match cs with
    | '[' :: rest => if rest.getLast? = some ']' then some rest.dropLast else some (escaped cs)
    | _ => some (escaped cs)
where
  escaped (cs : List Char) : List Char := escape staysInHost (cs.map Char.toLower)

def defaultService? (scheme : List Char) : Option Int :=
  match String.ofList scheme with
  | "http" | "ws" => some 80
  | "https" | "wss" => some 443
  | "ftp" => some 21
  | _ => none

/-- The number of the service at the host, unless it is the one that the scheme stands for. -/
def readService? (scheme cs : List Char) : Option (Option Int) :=
  if cs.isEmpty then some none
  else (intOfText? (String.ofList cs)).map fun n =>
    if some n = defaultService? scheme then none else some n

/-- The host with its brackets, and what follows it without a colon. -/
def splitHost (cs : List Char) : List Char × List Char :=
  let (host, rest) := match cs, splitLast ']' cs with
    | '[' :: _, some (before, after) => (before ++ [']'], after)
    | _, _ => (cs.takeWhile (· ≠ ':'), cs.dropWhile (· ≠ ':'))
  (host, match rest with | ':' :: service => service | _ => rest)

/-- The user, the host and the service between two slashes and the path. -/
def readAuthority? (scheme cs : List Char) : Option (List Char × List Char × Option Int) := do
  let (user, place) := (splitLast '@' cs).getD ([], cs)
  let (host, service) := splitHost place
  return (escape staysInUser user, ← readHost? host, ← readService? scheme service)

def cut (mark : Char) (cs : List Char) : List Char × Option (List Char) :=
  match splitFirst mark cs with
  | some (before, after) => (before, some after)
  | none => (cs, none)

/-- The parts of a text, if it is an address. -/
def read? (text : String) : Option Address := do
  let cs := text.toList
  if cs.length > maxLength || cs.any fun c => c < '\x20' || c == '\x7f' then none
  let (cs, fragment) := cut '#' cs
  let (cs, query) := cut '?' cs
  let (scheme, cs) := takeScheme cs
  let (authority, path) := match cs with
    | '/' :: '/' :: rest => (rest.takeWhile (· ≠ '/'), rest.dropWhile (· ≠ '/'))
    | _ => ([], cs)
  let (user, host, service) ← readAuthority? scheme authority
  let hasPlace := !user.isEmpty || !host.isEmpty || service.isSome
  let wrong :=
    if hasPlace then !path.isEmpty && path.head? != some '/'
    else scheme.isEmpty && (['/', '/'].isPrefixOf path || path.head? == some ':')
  if wrong then none
  let path := if hasPlace || !scheme.isEmpty then simplify path else path
  return {
    scheme := scheme.map Char.toLower
    user, host, service
    path := escape staysInPath path
    query := query.map (escape staysInQuery)
    fragment := fragment.map (escape staysInFragment) }

/-- Whether the address names a host and how to speak to it. -/
def isAbsolute (a : Address) : Bool := !a.scheme.isEmpty && !a.host.isEmpty

def after (mark : Char) : Option (List Char) → List Char
  | some part => mark :: part
  | none => []

def place (a : Address) : List Char :=
  (if a.user.isEmpty then [] else a.user ++ ['@']) ++
    (if a.host.contains ':' then '[' :: a.host ++ [']'] else a.host) ++
    after ':' (a.service.map fun n => (intText n).toList)

/-- The address in one text; a relative one is taken from the root, and its fragment is not sent. -/
def text (a : Address) : String :=
  String.ofList <|
    if a.isAbsolute then
      a.scheme ++ [':', '/', '/'] ++ a.place ++ a.path ++ after '?' a.query ++ after '#' a.fragment
    else '/' :: (a.path.dropWhile (· == '/')) ++ after '?' a.query

end Address

end LiveSvg.Download
