/-!
Characters in UTF-8: none of them written longer than it has to be. Where bytes are no such text, the
first fault says where and why.
-/

namespace LiveSvg.Text

/-- The character of a code, if it is one. -/
def char? (n : Nat) : Option Char :=
  if h : n.isValidChar then some (Char.ofNatAux n h) else none

namespace Utf8

/-- The six bits of a byte that goes on with a character. -/
def tail? (b : UInt8) : Option Nat := if 0x80 ≤ b ∧ b < 0xc0 then some (b.toNat - 0x80) else none

/-- The characters that bytes spell. -/
def decode? : List UInt8 → Option (List Char)
  | [] => some []
  | b :: rest =>
    if b < 0x80 then (decode? rest).map (Char.ofNat b.toNat :: ·)
    else if b < 0xc2 then none
    else if b < 0xe0 then
      match rest with
      | b1 :: rest => do
        let c ← char? ((b.toNat - 0xc0) * 64 + (← tail? b1))
        return c :: (← decode? rest)
      | _ => none
    else if b < 0xf0 then
      match rest with
      | b1 :: b2 :: rest => do
        let n := ((b.toNat - 0xe0) * 64 + (← tail? b1)) * 64 + (← tail? b2)
        if n < 0x800 then none
        else
          let c ← char? n
          return c :: (← decode? rest)
      | _ => none
    else if b < 0xf5 then
      match rest with
      | b1 :: b2 :: b3 :: rest => do
        let n := (((b.toNat - 0xf0) * 64 + (← tail? b1)) * 64 + (← tail? b2)) * 64 + (← tail? b3)
        if n < 0x10000 then none
        else
          let c ← char? n
          return c :: (← decode? rest)
      | _ => none
    else none

def encode (s : String) : List UInt8 := s.toUTF8.toList

inductive Reason where
  | start | continuation | ended
  deriving DecidableEq

/-- The first bytes that spell no character. -/
structure Fault where
  position : Nat
  bytes : List UInt8
  reason : Reason

/-- The bytes that may follow the first byte of a character. -/
def secondRange (b : UInt8) : UInt8 × UInt8 :=
  if b = 0xe0 then (0xa0, 0xbf)
  else if b = 0xed then (0x80, 0x9f)
  else if b = 0xf0 then (0x90, 0xbf)
  else if b = 0xf4 then (0x80, 0x8f)
  else (0x80, 0xbf)

/-- How many bytes follow the first byte of a character. -/
def tailCount (b : UInt8) : Nat := if b < 0xe0 then 1 else if b < 0xf0 then 2 else 3

/-- How many of the bytes go on with a character, given the range of the next one. -/
def goodTails (range : UInt8 × UInt8) : Nat → List UInt8 → Nat
  | count + 1, b :: rest =>
    if range.1 ≤ b ∧ b ≤ range.2 then goodTails (0x80, 0xbf) count rest + 1 else 0
  | _, _ => 0

/-- The first fault from a position on. -/
def fault? (fuel position : Nat) (bs : List UInt8) : Option Fault :=
  match fuel, bs with
  | fuel + 1, b :: rest =>
    if b < 0x80 then fault? fuel (position + 1) rest
    else if b < 0xc2 ∨ 0xf5 ≤ b then some ⟨position, [b], .start⟩
    else
      let good := goodTails (secondRange b) (tailCount b) rest
      if good = tailCount b then fault? fuel (position + 1 + good) (rest.drop good)
      else
        some ⟨position, b :: rest.take good,
          if rest.length = good then .ended else .continuation⟩
  | _, _ => none

end Utf8

/-- The characters of a text, read off its bytes, so that a closed text unfolds into them one by one. -/
def chars (s : String) : List Char := (Utf8.decode? s.toByteArray.data.toList).getD []

end LiveSvg.Text
