import LiveSvg.Markup.Address
import LiveSvg.Markup.Chars
import LiveSvg.Markup.Encoding
import LiveSvg.Markup.Scope
import LiveSvg.Number.Numeral
/-!
Reading markup. A document is one element with comments and instructions around it; whatever is not
well-formed, binds no declared prefix or is nested too deeply is no document.
-/

namespace LiveSvg.Markup

open Number Text

/-- Levels of elements that are read. -/
def maxDepth : Nat := 256

/-- Line ends as one character. -/
def normalizeLines : List Char → List Char
  | '\r' :: '\n' :: rest => '\n' :: normalizeLines rest
  | '\r' :: rest => '\n' :: normalizeLines rest
  | c :: rest => c :: normalizeLines rest
  | [] => []

def natOfHex (cs : List Char) : Option Nat :=
  cs.foldlM (fun n c => do return n * 16 + (← hexDigit? c)) 0

/-- The character that a reference between `&` and `;` stands for. -/
def reference? : List Char → Option Char
  | '#' :: 'x' :: ds =>
    if ds.isEmpty then none
    else do
      let c ← char? (← natOfHex ds)
      if isMarkupChar c then some c else none
  | '#' :: ds =>
    if ds.isEmpty || !ds.all isAsciiDigit then none
    else do
      let c ← char? (natOfDigits ds)
      if isMarkupChar c then some c else none
  | name =>
    if name = "lt".toList then some '<'
    else if name = "gt".toList then some '>'
    else if name = "amp".toList then some '&'
    else if name = "quot".toList then some '\x22'
    else if name = "apos".toList then some '\x27'
    else none

/-- Replaces references; a reference under way holds its characters in reverse. -/
def resolve (plain : Char → Char) (pending : Option (List Char)) : List Char → Option (List Char)
  | [] => if pending.isNone then some [] else none
  | c :: rest =>
    match pending with
    | some name =>
      if c = ';' then do
        let d ← reference? name.reverse
        return d :: (← resolve plain none rest)
      else resolve plain (some (c :: name)) rest
    | none =>
      if c = '&' then resolve plain (some []) rest
      else do return plain c :: (← resolve plain none rest)

/-- The value of an attribute: line ends and tabs in it are blanks. -/
def attrValue? (raw : List Char) : Option String :=
  if raw.contains '<' then none
  else (resolve (fun c => if isSpace c then ' ' else c) none raw).map String.ofList

/-- Character data; the end of a section may not stand in it. -/
def dataValue? (raw : List Char) : Option String :=
  if (splitMarker "]]>".toList raw).isSome then none
  else (resolve id none raw).map String.ofList

/-- A name as written: a prefix, if there is one, and the rest. -/
abbrev Written := Option String × String

def takeWritten (cs : List Char) : Option (Written × List Char) := do
  let (first, rest) ← takeName cs
  match rest with
  | ':' :: rest =>
    let (second, rest) ← takeName rest
    match rest with
    | ':' :: _ => none
    | _ => some ((some (String.ofList first), String.ofList second), rest)
  | _ => some ((none, String.ofList first), rest)

/-- Attributes as written, up to the end of the tag; what follows a value is a blank or that end. -/
def takeAttrs (fuel : Nat) (cs : List Char) : Option (List (Written × String) × List Char) :=
  match fuel with
  | 0 => none
  | fuel + 1 =>
    let rest := skipSpace cs
    match rest with
    | '/' :: _ => some ([], rest)
    | '>' :: _ => some ([], rest)
    | _ =>
      if rest.length = cs.length then none
      else do
        let (name, rest) ← takeWritten rest
        let rest ← expect ['='] (skipSpace rest)
        match skipSpace rest with
        | q :: rest =>
          if q = '\x22' ∨ q = '\x27' then do
            let (raw, rest) ← splitFirst q rest
            let value ← attrValue? raw
            let (more, rest) ← takeAttrs fuel rest
            return ((name, value) :: more, rest)
          else none
        | [] => none

/-- The declaration that an attribute is, if it is one; none of the reserved ones is allowed. -/
def declaration? (name : Written) (uri : String) : Option (Option Declaration) :=
  match name with
  | (none, "xmlns") =>
    if uri = xmlUri ∨ uri = xmlnsUri ∨ !(uri.isEmpty || Address.isValid uri) then none
    else some (some ⟨none, uri⟩)
  | (some "xmlns", "xml") => if uri = xmlUri then some none else none
  | (some "xmlns", short) =>
    if short = "xmlns" ∨ uri = xmlUri ∨ uri = xmlnsUri ∨ uri.isEmpty ∨ !Address.isValid uri then none
    else some (some ⟨some short, uri⟩)
  | _ => some none

def isDeclaration (name : Written) : Bool :=
  name.1 == some "xmlns" || name == (none, "xmlns")

def allDistinct [BEq α] : List α → Bool
  | [] => true
  | x :: rest => !rest.contains x && allDistinct rest

/-- The name of an element: without a prefix it is in the default namespace. -/
def elementName? (scope : Scope) (name : Written) : Option Name :=
  match name with
  | (none, base) =>
    match scope.find? none with
    | some d => some ⟨if d.uri.isEmpty then none else some d, base⟩
    | none => some ⟨none, base⟩
  | (some "xml", base) => some ⟨some ⟨some "xml", xmlUri⟩, base⟩
  | (some short, base) => (scope.find? (some short)).map fun d => ⟨some d, base⟩

/-- The name of an attribute: without a prefix it is in no namespace. -/
def attrName? (scope : Scope) (name : Written) : Option Name :=
  match name with
  | (none, base) => some ⟨none, base⟩
  | _ => elementName? scope name

/-- A start tag with its names bound. -/
def bind? (scope : Scope) (name : Written) (raw : List (Written × String)) : Option Head := do
  if !allDistinct (raw.map (·.1)) then none
  let declarations ← (raw.filter fun (n, _) => isDeclaration n).filterMapM fun (n, v) =>
    declaration? n v
  let scope := ⟨declarations, none⟩ :: scope
  let attrs ← (raw.filter fun (n, _) => !isDeclaration n).mapM fun (n, v) => do
    return (⟨← attrName? scope n, v⟩ : Attr)
  if !allDistinct (attrs.map fun a => (a.name.uri, a.name.base)) then none
  return ⟨← elementName? scope name, declarations, attrs⟩

/-- A comment after its opening: no two hyphens stand in it. -/
def takeComment (cs : List Char) : Option (Leaf × List Char) := do
  let (body, rest) ← splitMarker "--".toList cs
  let rest ← expect ['>'] rest
  return (.comment (String.ofList body), rest)

/-- An instruction after its opening, which is not the declaration of a document. -/
def takeInstruction (cs : List Char) : Option (Leaf × List Char) := do
  let (target, rest) ← takeName cs
  if lowercase target = "xml".toList then none
  let (body, after) ← splitMarker "?>".toList rest
  if body.isEmpty then return (.instruction (String.ofList target) "", after)
  else if (skipSpace body).length = body.length then none
  else return (.instruction (String.ofList target) (String.ofList (skipSpace body)), after)

def takeSection (cs : List Char) : Option (Leaf × List Char) := do
  let (body, rest) ← splitMarker "]]>".toList cs
  return (.cdata (String.ofList body), rest)

/-- The end tag of an element. -/
def takeEnd (name : Written) (cs : List Char) : Option (List Char) := do
  let (n, rest) ← takeWritten (← expect ['<', '/'] cs)
  if n = name then expect ['>'] (skipSpace rest) else none

mutual

/-- An element from its opening bracket on. -/
def readElement (fuel depth : Nat) (scope : Scope) (cs : List Char) :
    Option (Element Unit × List Char) :=
  match fuel, depth with
  | fuel + 1, depth + 1 => do
    let (name, rest) ← takeWritten (← expect ['<'] cs)
    let (raw, rest) ← takeAttrs (rest.length + 1) rest
    let head ← bind? scope name raw
    match rest with
    | '/' :: rest => return (⟨(), head, .nil⟩, ← expect ['>'] rest)
    | rest =>
      let (inner, rest) ← readContent fuel depth (head.frame :: scope) (← expect ['>'] rest)
      return (⟨(), head, inner⟩, ← takeEnd name rest)
  | _, _ => none

/-- Content up to an end tag. -/
def readContent (fuel depth : Nat) (scope : Scope) (cs : List Char) :
    Option (Content Unit × List Char) :=
  match fuel with
  | 0 => none
  | fuel + 1 =>
    let andMore := fun (found : Leaf × List Char) => do
      let (more, rest) ← readContent fuel depth scope found.2
      return (Content.leaf found.1 more, rest)
    match cs with
    | [] => none
    | '<' :: '/' :: _ => some (.nil, cs)
    | '<' :: '?' :: rest => do andMore (← takeInstruction rest)
    | '<' :: '!' :: '-' :: '-' :: rest => do andMore (← takeComment rest)
    | '<' :: '!' :: '[' :: 'C' :: 'D' :: 'A' :: 'T' :: 'A' :: '[' :: rest => do
      andMore (← takeSection rest)
    | '<' :: _ => do
      let (e, rest) ← readElement fuel depth scope cs
      let (more, rest) ← readContent fuel depth scope rest
      return (.element e.id e.head e.inner more, rest)
    | _ => do
      let s ← dataValue? (cs.takeWhile (· ≠ '<'))
      andMore (.text s, cs.dropWhile (· ≠ '<'))

end

/-- Comments, instructions and blanks, which may stand around the element. -/
def skipAside (fuel : Nat) (cs : List Char) : Option (List Char) :=
  match fuel with
  | 0 => none
  | fuel + 1 =>
    match skipSpace cs with
    | '<' :: '?' :: rest => do skipAside fuel (← takeInstruction rest).2
    | '<' :: '!' :: '-' :: '-' :: rest => do skipAside fuel (← takeComment rest).2
    | rest => some rest

/-- A text in quotation marks of either kind, and the rest. -/
def takeLiteral : List Char → Option (List Char × List Char)
  | q :: rest => if q = '\x22' ∨ q = '\x27' then splitFirst q rest else none
  | [] => none

/-- At least one blank, and then what follows. -/
def afterSpace (cs : List Char) : Option (List Char) :=
  let rest := skipSpace cs
  if rest.length < cs.length then some rest else none

/-- The identifier of an external document type, if there is one. -/
def skipExternal (cs : List Char) : Option (List Char) :=
  match expect "SYSTEM".toList cs, expect "PUBLIC".toList cs with
  | some rest, _ => do return (← takeLiteral (← afterSpace rest)).2
  | _, some rest => do
    let (_, rest) ← takeLiteral (← afterSpace rest)
    return (← takeLiteral (← afterSpace rest)).2
  | _, _ => some cs

/-- A document type without declarations of its own. -/
def skipDoctype (cs : List Char) : Option (List Char) :=
  match expect "<!DOCTYPE".toList cs with
  | none => some cs
  | some rest => do
    let (_, rest) ← takeWritten (← afterSpace rest)
    let rest ← skipExternal (skipSpace rest)
    match skipSpace rest with
    | '[' :: rest =>
      let rest ← expect [']'] (skipSpace rest)
      expect ['>'] (skipSpace rest)
    | rest => expect ['>'] rest

/-- One setting of the document declaration, after a blank. -/
def takeSetting (name : String) (cs : List Char) : Option (List Char × List Char) := do
  let rest ← expect name.toList (← afterSpace cs)
  let rest ← expect ['='] (skipSpace rest)
  takeLiteral (skipSpace rest)

def isVersion : List Char → Bool
  | '1' :: '.' :: ds => !ds.isEmpty && ds.all isAsciiDigit
  | _ => false

def isEncodingName : List Char → Bool
  | [] => false
  | c :: rest =>
    c.isAlpha && rest.all fun c => c.isAlphanum || c == '.' || c == '_' || c == '-'

/-- The declaration of a document: the encoding that it names, and the rest. -/
def takeDeclaration (cs : List Char) : Option (Option String × List Char) := do
  let (version, rest) ← takeSetting "version" cs
  if !isVersion version then none
  let (encoding, rest) ←
    match takeSetting "encoding" rest with
    | some (name, rest) =>
      if isEncodingName name then some (some (String.ofList (lowercase name)), rest) else none
    | none => some (none, rest)
  let rest ←
    match takeSetting "standalone" rest with
    | some (word, rest) =>
      if word = "yes".toList ∨ word = "no".toList then some rest else none
    | none => some rest
  return (encoding, ← expect "?>".toList (skipSpace rest))

def startsDeclaration (cs : List Char) : Bool :=
  match expect "<?xml".toList cs with
  | some (c :: _) => isSpace c
  | _ => false

/-- The encoding that the characters of a document name. -/
def encodingNamed (cs : List Char) : Option String :=
  if startsDeclaration cs then ((takeDeclaration (cs.drop 5)).bind (·.1)) else none

/-- The element of a document. -/
def readChars (cs : List Char) : Option (Element Unit) := do
  if !cs.all isMarkupChar then none
  let cs := normalizeLines cs
  let rest ← if startsDeclaration cs then (takeDeclaration (cs.drop 5)).map (·.2) else some cs
  let fuel := cs.length + 1
  let rest ← skipDoctype (← skipAside fuel rest)
  let (e, rest) ← readElement fuel maxDepth [] (← skipAside fuel rest)
  if (← skipAside fuel rest).isEmpty then some e else none

/-- The element of a document, or nothing if it is not well-formed. -/
def read (source : Source) : Option (Element Unit) := do
  readChars (Source.dropMark (← source.chars? encodingNamed))

end LiveSvg.Markup
