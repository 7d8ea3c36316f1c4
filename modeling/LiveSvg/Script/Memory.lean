import LiveSvg.Script.Datum
/-!
The memory of scripts: lists and objects that are made once and changed in place.
-/

namespace LiveSvg.Script

structure Memory where
  cells : Array Contents := #[]

namespace Memory

def read (m : Memory) (n : Nat) : Contents := (m.cells[n]?).getD (.list [])

def write (m : Memory) (n : Nat) (c : Contents) : Memory := ⟨m.cells.setIfInBounds n c⟩

/-- Makes a list or an object. -/
def add (m : Memory) (c : Contents) : Ref × Memory := (.cell m.cells.size, ⟨m.cells.push c⟩)

mutual

/-- Makes the lists and objects of a value. -/
def load (m : Memory) : Value → Datum × Memory
  | .list xs =>
    let (items, m) := loadItems m xs
    let (r, m) := m.add (.list items)
    (.ref r, m)
  | .object ms =>
    let (members, m) := loadMembers m ms
    let (r, m) := m.add (.object members)
    (.ref r, m)
  | .null => (.null, m)
  | .bool b => (.bool b, m)
  | .int n => (.int n, m)
  | .float x => (.float x, m)
  | .text s => (.text s, m)

def loadItems (m : Memory) : List Value → List Datum × Memory
  | [] => ([], m)
  | x :: xs =>
    let (d, m) := load m x
    let (ds, m) := loadItems m xs
    (d :: ds, m)

def loadMembers (m : Memory) : List (String × Value) → Members × Memory
  | [] => ([], m)
  | (k, x) :: ms =>
    let (d, m) := load m x
    let (ds, m) := loadMembers m ms
    ((.text k, d) :: ds, m)

end

end Memory

end LiveSvg.Script
