import LiveSvg.Text.Blank
import LiveSvg.Text.Escape
import LiveSvg.Text.Ranges
/-!
Addresses of namespaces: which texts are one, absolute or relative.
-/

namespace LiveSvg.Markup.Address

open Text

/-- Whether the characters are unreserved, delimiters, others allowed here, or escaped by a percent. -/
def wellEscaped (also : List Char) : List Char → Bool
  | '%' :: a :: b :: rest =>
    (hexDigit? a).isSome && (hexDigit? b).isSome && wellEscaped also rest
  | c :: rest => (isUnreserved c || isDelimiter c || also.contains c) && wellEscaped also rest
  | [] => true

/-- A scheme before a colon, and the rest. -/
def takeScheme (cs : List Char) : Option (List Char) :=
  match splitFirst ':' cs with
  | some (c :: scheme, rest) =>
    if c.isAlpha && scheme.all (fun c => c.isAlphanum || ['+', '-', '.'].contains c) then some rest
    else none
  | _ => none

/-- A host, with a number of at least one digit after a colon. -/
def isHost (cs : List Char) : Bool :=
  match cs with
  | '[' :: rest =>
    match splitFirst ']' rest with
    | some (_, []) => true
    | some (_, ':' :: number) => !number.isEmpty && number.all isAsciiDigit
    | _ => false
  | _ =>
    match splitFirst ':' cs with
    | some (name, number) => wellEscaped [] name && !number.isEmpty && number.all isAsciiDigit
    | none => wellEscaped [] cs

def isAuthority (cs : List Char) : Bool :=
  match splitFirst '@' cs with
  | some (user, host) => wellEscaped [':'] user && isHost host
  | none => isHost cs

def isPath (cs : List Char) : Bool := wellEscaped [':', '@', '/'] cs

/-- An authority after two slashes with a path, or only a path. -/
def isPlace (cs : List Char) : Bool :=
  match cs with
  | '/' :: '/' :: rest =>
    isAuthority (rest.takeWhile (· ≠ '/')) && isPath (rest.dropWhile (· ≠ '/'))
  | _ => isPath cs

def isReference (cs : List Char) : Bool :=
  match takeScheme cs with
  | some rest => isPlace rest
  | none => isPlace cs && !(cs.takeWhile (· ≠ '/')).contains ':'

/-- Whether a text is an address. -/
def isValid (s : String) : Bool :=
  let cs := s.toList
  let before := cs.takeWhile (· ≠ '#')
  let fragment := (cs.dropWhile (· ≠ '#')).drop 1
  let place := before.takeWhile (· ≠ '?')
  let query := (before.dropWhile (· ≠ '?')).drop 1
  isReference place && wellEscaped [':', '@', '/', '?'] query &&
    wellEscaped [':', '@', '/', '?', '[', ']'] fragment

end LiveSvg.Markup.Address
