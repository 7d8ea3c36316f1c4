import LiveSvg.Script.Evaluate
import LiveSvg.Script.Memory
/-!
Running acts where there is memory and nothing else: no part of a visual is there to be asked.
-/

namespace LiveSvg.Script.Alone

/-- What can be seen of a memory. -/
def view (m : Memory) : View where
  contents := fun r =>
    match r with
    | .cell n => m.read n
    | _ => .object []
  describe := fun e => "<" ++ (Datum.entity e).typeName ++ ">"
  size := m.cells.size

abbrev Run := ExceptT Failure (StateM Memory)

def answer : (q : Ask) → Run q.Answer
  | .view => return view (← get)
  | .create c => do
    let (r, m) := (← get).add c
    set m
    return r
  | .store r c => do
    match r with
    | .cell n => modify (·.write n c)
    | _ => pure ()
  | .get e name => return .error (Failure.noAttribute (Datum.entity e).typeName name)
  | .invoke e name _ => return .error (Failure.noAttribute (Datum.entity e).typeName name)
  | .apply _ _ => return .error (Failure.wrongType "object is not callable")

/-- Runs an act. -/
def run (a : Act α) (m : Memory) : Except Failure α × Memory :=
  (a.run answer throw : Run α).run.run m

/-- Calls a program with values. -/
def call (p : Program) (args : List Value) : Except Failure Datum × Memory :=
  let (args, m) := Memory.loadItems {} args
  run (p.call args) m

end LiveSvg.Script.Alone
