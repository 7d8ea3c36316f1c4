import LiveSvg.Text.Utf8
/-!
Characters of addresses: those that stand for themselves everywhere, those that divide, and all others
as a percent sign and two digits for each of their bytes.
-/

namespace LiveSvg.Text

def isUnreserved (c : Char) : Bool := c.isAlphanum || ['-', '.', '_', '~'].contains c

def isDelimiter (c : Char) : Bool :=
  ['!', '$', '&', '\x27', '(', ')', '*', '+', ',', ';', '='].contains c

def escapedByte (b : UInt8) : List Char :=
  ['%', (Nat.digitChar (b.toNat / 16)).toUpper, (Nat.digitChar (b.toNat % 16)).toUpper]

/-- The text with the characters that do not stay replaced by their escaped bytes. -/
def escape (stays : Char → Bool) (cs : List Char) : List Char :=
  cs.flatMap fun c =>
    if stays c then [c] else (Utf8.encode (String.singleton c)).flatMap escapedByte

end LiveSvg.Text
