import LiveSvg.Text.Utf8
/-!
Documents as bytes: how their characters are found, from the first bytes and from the encoding
that the document names.
-/

namespace LiveSvg.Markup

open Text (char?)

/-- A document as it comes: as text, or as bytes. -/
inductive Source where
  | text (s : String)
  | bytes (bs : List UInt8)

namespace Source

/-- The characters of bytes that are each a code of their own. -/
def latin (bs : List UInt8) : List Char := bs.map fun b => Char.ofNat b.toNat

def ascii? (bs : List UInt8) : Option (List Char) :=
  if bs.all (· < 128) then some (latin bs) else none

/-- Units of two bytes, the first byte high or low. -/
def units? (highFirst : Bool) : List UInt8 → Option (List Nat)
  | [] => some []
  | a :: b :: rest => do
    let n := if highFirst then a.toNat * 256 + b.toNat else b.toNat * 256 + a.toNat
    return n :: (← units? highFirst rest)
  | _ => none

def utf16? : List Nat → Option (List Char)
  | [] => some []
  | n :: rest =>
    if 0xd800 ≤ n ∧ n < 0xdc00 then
      match rest with
      | m :: rest =>
        if 0xdc00 ≤ m ∧ m < 0xe000 then do
          let c ← char? (0x10000 + (n - 0xd800) * 0x400 + (m - 0xdc00))
          return c :: (← utf16? rest)
        else none
      | [] => none
    else do
      let c ← char? n
      return c :: (← utf16? rest)

/-- The codes that Windows puts where Latin-1 has controls. -/
def windowsCodes : List Nat :=
  [0x20ac, 0x81, 0x201a, 0x192, 0x201e, 0x2026, 0x2020, 0x2021, 0x2c6, 0x2030, 0x160, 0x2039, 0x152,
    0x8d, 0x17d, 0x8f, 0x90, 0x2018, 0x2019, 0x201c, 0x201d, 0x2022, 0x2013, 0x2014, 0x2dc, 0x2122,
    0x161, 0x203a, 0x153, 0x9d, 0x17e, 0x178]

def windows (bs : List UInt8) : List Char :=
  bs.map fun b =>
    if 0x80 ≤ b ∧ b < 0xa0 then Char.ofNat (windowsCodes.getD (b.toNat - 0x80) 0)
    else Char.ofNat b.toNat

/-- How the bytes of a document are read before it has named an encoding. -/
inductive Family where
  | utf8
  | utf16 (highFirst : Bool)

/-- The family of a document and the bytes after a byte order mark. -/
def family : List UInt8 → Family × List UInt8
  | 0xef :: 0xbb :: 0xbf :: rest => (.utf8, rest)
  | 0xff :: 0xfe :: rest => (.utf16 false, rest)
  | 0xfe :: 0xff :: rest => (.utf16 true, rest)
  | 0x3c :: 0 :: 0x3f :: 0 :: rest => (.utf16 false, 0x3c :: 0 :: 0x3f :: 0 :: rest)
  | 0 :: 0x3c :: 0 :: 0x3f :: rest => (.utf16 true, 0 :: 0x3c :: 0 :: 0x3f :: rest)
  | bs => (.utf8, bs)

/-- Bytes of the eight-bit family under the encoding named. -/
def decodeAs? (name : String) (bs : List UInt8) : Option (List Char) :=
  if ["utf-8", "utf8"].contains name then Text.Utf8.decode? bs
  else if ["iso-8859-1", "iso-latin-1", "iso latin 1", "latin1", "latin-1", "iso8859-1"].contains name
  then some (latin bs)
  else if ["us-ascii", "ascii"].contains name then ascii? bs
  else if ["windows-1252", "cp1252"].contains name then some (windows bs)
  else none

def dropMark : List Char → List Char
  | '\ufeff' :: rest => rest
  | cs => cs

/-- The characters of a document, given how to find the encoding that characters name. -/
def chars? (named? : List Char → Option String) : Source → Option (List Char)
  | .text s =>
    let cs := dropMark (Text.chars s)
    match named? cs with
    | none => some cs
    | some name => if name = "utf-8" then some cs else decodeAs? name (Text.Utf8.encode (String.ofList cs))
  | .bytes bs =>
    match family bs with
    | (.utf16 highFirst, rest) => (units? highFirst rest).bind utf16?
    | (.utf8, rest) =>
      match named? (latin (rest.take 200)) with
      | none => Text.Utf8.decode? rest
      | some name => decodeAs? name rest

end Source

end LiveSvg.Markup
