/-!
Cells: one current value, subscribers that are told of every change in the order in which they
came, and streams that hold what their readers have yet to read. A closed cell changes no more.
-/

namespace LiveSvg

/-- A stream of the values of a cell: what is still to be read, and whether anything may follow. -/
structure Cell.Stream (α : Type) where
  pending : List α
  isEnded : Bool := false

/-- A cell; its subscribers are known by what identifies them, one entry for each subscription. -/
structure Cell (α ι : Type) where
  value : α
  subscribers : List ι := []
  streams : List (Cell.Stream α) := []
  isClosed : Bool := false

namespace Cell

variable {α ι : Type}

/-- What reading a stream gives. -/
inductive Reading (α : Type) where
  | item (a : α)
  | ended
  | waiting

def subscribe (c : Cell α ι) (subscriber : ι) : Cell α ι :=
  if c.isClosed then c else { c with subscribers := c.subscribers ++ [subscriber] }

/-- Takes off the first subscription of a subscriber. -/
def unsubscribe [BEq ι] (c : Cell α ι) (subscriber : ι) : Cell α ι :=
  { c with subscribers := c.subscribers.erase subscriber }

/-- Replaces the value and tells no one. -/
def reset (c : Cell α ι) (value : α) : Cell α ι :=
  if c.isClosed then c else { c with value }

def Stream.push (s : Stream α) (a : α) : Stream α :=
  if s.isEnded then s else { s with pending := s.pending ++ [a] }

/-- Replaces the value, and gives the subscribers to tell of it. -/
def next (c : Cell α ι) (value : α) : Cell α ι × List ι :=
  if c.isClosed then (c, [])
  else ({ c with value, streams := c.streams.map (·.push value) }, c.subscribers)

/-- Closes the cell: its subscribers are let go, and its streams end after what they hold. -/
def complete (c : Cell α ι) : Cell α ι :=
  if c.isClosed then c
  else
    { c with
      isClosed := true
      subscribers := []
      streams := c.streams.map fun s => { s with isEnded := true } }

/-- Opens a stream, which starts with the current value; on a closed cell it is empty. -/
def openStream (c : Cell α ι) : Cell α ι × Nat :=
  let s : Stream α := if c.isClosed then ⟨[], true⟩ else ⟨[c.value], false⟩
  ({ c with streams := c.streams ++ [s] }, c.streams.length)

/-- Reads one item of a stream. -/
def read (c : Cell α ι) (i : Nat) : Cell α ι × Reading α :=
  match c.streams[i]? with
  | none => (c, .ended)
  | some ⟨a :: rest, isEnded⟩ =>
    ({ c with streams := c.streams.set i ⟨rest, isEnded⟩ }, .item a)
  | some ⟨[], true⟩ => (c, .ended)
  | some ⟨[], false⟩ => (c, .waiting)

/-- Gives a stream up: it holds nothing any more, and nothing follows. -/
def cancel (c : Cell α ι) (i : Nat) : Cell α ι :=
  { c with streams := c.streams.set i ⟨[], true⟩ }

/-- Something that is done with a cell. -/
inductive Deal (α ι : Type) where
  | subscribe (subscriber : ι)
  | unsubscribe (subscriber : ι)
  | next (value : α)
  | reset (value : α)
  | complete
  | openStream
  | read (i : Nat)
  | cancel (i : Nat)

/-- The cell once something has been done with it. -/
def on [BEq ι] (c : Cell α ι) : Deal α ι → Cell α ι
  | .subscribe subscriber => c.subscribe subscriber
  | .unsubscribe subscriber => c.unsubscribe subscriber
  | .next value => (c.next value).1
  | .reset value => c.reset value
  | .complete => c.complete
  | .openStream => c.openStream.1
  | .read i => (c.read i).1
  | .cancel i => c.cancel i

end Cell

end LiveSvg
