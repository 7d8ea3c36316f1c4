import LiveSvg.Text.Printable
/-!
Texts in quotation marks: single ones unless only double ones avoid an escape, with escapes for
what cannot be shown.
-/

namespace LiveSvg.Text

def hexChars (width n : Nat) : List Char :=
  let ds := Nat.toDigits 16 n
  List.replicate (width - ds.length) '0' ++ ds

/-- One character between the quotation marks given. -/
def quotedChar (mark c : Char) : List Char :=
  if c = mark ∨ c = '\x5c' then ['\x5c', c]
  else if c = '\n' then ['\x5c', 'n']
  else if c = '\r' then ['\x5c', 'r']
  else if c = '\t' then ['\x5c', 't']
  else if isPrintable c then [c]
  else if c.toNat < 0x100 then '\x5c' :: 'x' :: hexChars 2 c.toNat
  else if c.toNat < 0x10000 then '\x5c' :: 'u' :: hexChars 4 c.toNat
  else '\x5c' :: 'U' :: hexChars 8 c.toNat

/-- The text in quotation marks. -/
def quoted (s : String) : String :=
  let cs := s.toList
  let mark := if cs.contains '\x27' && !cs.contains '\x22' then '\x22' else '\x27'
  String.ofList (mark :: cs.flatMap (quotedChar mark) ++ [mark])

end LiveSvg.Text
