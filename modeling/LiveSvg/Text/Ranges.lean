/-!
Sets of characters beyond ASCII, written as runs: each run is the gap since the end of the run
before it and its length less one, in hexadecimal.
-/

namespace LiveSvg.Text

def hexDigit? (c : Char) : Option Nat :=
  if '0' ≤ c ∧ c ≤ '9' then some (c.toNat - 48)
  else if 'a' ≤ c ∧ c ≤ 'f' then some (c.toNat - 87)
  else if 'A' ≤ c ∧ c ≤ 'F' then some (c.toNat - 55)
  else none

/-- The hexadecimal numbers of a text; every other character ends one. -/
def hexNumbers (s : String) : List Nat :=
  let step := fun (done : List Nat × Option Nat) (c : Char) =>
    match hexDigit? c, done with
    | some d, (ns, n?) => (ns, some (n?.getD 0 * 16 + d))
    | none, (ns, some n) => (n :: ns, none)
    | none, (ns, none) => (ns, none)
  match s.toList.foldl step ([], none) with
  | (ns, some n) => (n :: ns).reverse
  | (ns, none) => ns.reverse

/-- A sorted list of disjoint runs of character codes. -/
abbrev Runs := List (Nat × Nat)

/-- Runs from gaps and lengths, from a first code on. -/
def Runs.ofGaps (start : Nat) : List Nat → Runs
  | gap :: extra :: rest => (start + gap, start + gap + extra) :: ofGaps (start + gap + extra + 1) rest
  | _ => []

def Runs.ofText (s : String) : Runs := Runs.ofGaps 128 (hexNumbers s)

def Runs.contains (rs : Runs) (code : Nat) : Bool :=
  match rs with
  | [] => false
  | (low, high) :: rest => low ≤ code && (code ≤ high || contains rest code)

end LiveSvg.Text
