import LiveSvg.Clock.Heap
import LiveSvg.Number.Binary64
/-!
A clock that only moves when it is told to, with jobs that are ready, in the order in which they
became so, and timers that make jobs ready when they are due. Work goes in turns: what is ready when
a turn begins, and then what is due, belongs to it.
-/

namespace LiveSvg

open Number (Binary64)

structure Timer (α : Type) where
  due : Binary64
  id : Nat
  job : α
  isLive : Bool := true

/-- Time in seconds, the jobs that are ready, and the timers, which are kept in a heap. -/
structure Clock (α : Type) where
  now : Binary64 := Binary64.zero false
  ready : List α := []
  timers : Array (Timer α) := #[]
  nextId : Nat := 0

namespace Clock

variable {α : Type}

def sooner (s t : Timer α) : Bool := s.due.less t.due

/-- Makes a job ready. -/
def soon (c : Clock α) (job : α) : Clock α := { c with ready := c.ready ++ [job] }

/-- Sets a timer, known by a number from now on. -/
def after (c : Clock α) (delay : Binary64) (job : α) : Clock α × Nat :=
  let timer : Timer α := { due := c.now.add delay, id := c.nextId, job }
  ({ c with timers := Heap.push sooner c.timers timer, nextId := c.nextId + 1 }, c.nextId)

/-- Cancels a timer; it stays in its place until it comes up. -/
def cancel (c : Clock α) (id : Nat) : Clock α :=
  { c with timers := c.timers.map fun t => if t.id = id then { t with isLive := false } else t }

/-- How close to now a time counts as reached, in seconds. -/
def resolution : Binary64 := Binary64.ofRatio false 1 1000000000

def isDue (c : Clock α) (t : Timer α) : Bool := !(c.now.add resolution).atMost t.due

/-- Drops timers that were cancelled from the top of the heap. -/
def dropCancelled (fuel : Nat) (timers : Array (Timer α)) : Array (Timer α) :=
  match fuel with
  | 0 => timers
  | fuel + 1 =>
    match Heap.pop? sooner timers with
    | some (t, rest) => if t.isLive then timers else dropCancelled fuel rest
    | none => timers

/-- Takes the timers that are due, in their order. -/
def takeDue (c : Clock α) (fuel : Nat) (timers : Array (Timer α)) :
    List (Timer α) × Array (Timer α) :=
  match fuel with
  | 0 => ([], timers)
  | fuel + 1 =>
    match Heap.pop? sooner timers with
    | some (t, rest) =>
      if c.isDue t then
        let (more, rest) := takeDue c fuel rest
        (t :: more, rest)
      else ([], timers)
    | none => ([], timers)

/-- The jobs of a turn, and the clock without them. -/
def turn (c : Clock α) : List α × Clock α :=
  let timers := dropCancelled c.timers.size c.timers
  let (due, timers) := takeDue c timers.size timers
  (c.ready ++ (due.filter (·.isLive)).map (·.job), { c with ready := [], timers })

/-- Moves the clock by a number of seconds. -/
def advance (c : Clock α) (seconds : Binary64) : Clock α := { c with now := c.now.add seconds }

end Clock

end LiveSvg
