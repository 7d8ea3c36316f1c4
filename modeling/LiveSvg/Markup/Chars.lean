import LiveSvg.Text.Blank
/-!
Characters of markup: those that may occur at all, and those of names.
-/

namespace LiveSvg.Markup

/-- Whether a character may occur in a document. -/
def isMarkupChar (c : Char) : Bool :=
  let n := c.toNat
  n == 9 || n == 10 || n == 13 || (32 ≤ n && n != 0xfffe && n != 0xffff)

def isSpace (c : Char) : Bool := c == ' ' || c == '\n' || c == '\t' || c == '\r'

def skipSpace (cs : List Char) : List Char := cs.dropWhile isSpace

/-- Whether a character may start a name without a colon. -/
def isNameStart (c : Char) : Bool :=
  let n := c.toNat
  if n < 128 then c.isAlpha || c == '_'
  else (0xc0 ≤ n && n ≤ 0x2ff && n != 0xd7 && n != 0xf7) || (0x370 ≤ n && n ≤ 0x1fff && n != 0x37e) ||
    n == 0x200c || n == 0x200d || (0x2070 ≤ n && n ≤ 0x218f) || (0x2c00 ≤ n && n ≤ 0x2fef) ||
    (0x3001 ≤ n && n ≤ 0xd7ff) || (0xf900 ≤ n && n ≤ 0xfdcf) || (0xfdf0 ≤ n && n ≤ 0xfffd) ||
    (0x10000 ≤ n && n ≤ 0xeffff)

def isNamePart (c : Char) : Bool :=
  let n := c.toNat
  isNameStart c || (n < 128 && (c.isDigit || c == '-' || c == '.')) || n == 0xb7 ||
    (0x300 ≤ n && n ≤ 0x36f) || n == 0x203f || n == 0x2040

/-- Whether a text is a name without a colon. -/
def isName : List Char → Bool
  | [] => false
  | c :: rest => isNameStart c && rest.all isNamePart

/-- The name that a text starts with, and the rest. -/
def takeName : List Char → Option (List Char × List Char)
  | [] => none
  | c :: rest =>
    if isNameStart c then some (c :: rest.takeWhile isNamePart, rest.dropWhile isNamePart) else none

/-- What stands before and after the first occurrence of a marker. -/
def splitMarker (marker : List Char) : List Char → Option (List Char × List Char)
  | [] => if marker.isEmpty then some ([], []) else none
  | c :: rest =>
    if marker.isPrefixOf (c :: rest) then some ([], (c :: rest).drop marker.length)
    else (splitMarker marker rest).map fun (before, after) => (c :: before, after)

/-- The rest of a text after an opening that it has to start with. -/
def expect (opening : List Char) (cs : List Char) : Option (List Char) :=
  if opening.isPrefixOf cs then some (cs.drop opening.length) else none

end LiveSvg.Markup
