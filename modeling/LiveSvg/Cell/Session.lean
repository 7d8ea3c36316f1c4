import LiveSvg.Cell.Basic
import LiveSvg.Failure
import LiveSvg.Value.Basic
/-!
Sessions with one cell: subscribers that react to a value by a step of their own, and readers of
streams that read whatever there is each time they get their turn.
-/

namespace LiveSvg.Cell

/-- One step; a subscriber is given the steps that it will take, one at each value it is told. -/
inductive Step (α : Type) where
  | subscribe (label handle : String) (plan : List (Step α))
  | unsubscribe (handle : String)
  | next (value : α)
  | reset (value : α)
  | complete
  | stream (label : String) (limit : Option Nat)
  | cancel (label : String)
  | settle
  deriving Inhabited

/-- A reader: the stream once it is open, how many items it may still take, what it has read. -/
structure Reader (α : Type) where
  stream : Option Nat := none
  limit : Option Nat := none
  received : List α := []
  sawEnd : Bool := false
  isDone : Bool := false

/-- A cell, and what has been done with it, in order. The past decides nothing; it is what can be said
of a whole session. -/
structure Traced (α : Type) where
  cell : Cell α String
  past : List (Deal α String) := []

def Traced.deal {α : Type} (t : Traced α) (d : Deal α String) : Traced α where
  cell := t.cell.on d
  past := t.past ++ [d]

structure Session (α : Type) extends Traced α where
  plans : List (String × List (Step α)) := []
  handles : List (String × String) := []
  calls : List (String × α) := []
  readers : List (String × Reader α) := []

namespace Session

open Value (Members.get? Members.set)

variable {α : Type}

abbrev Run (α : Type) := ExceptT Failure (StateM (Session α))

mutual

/-- How many steps there are in a step. -/
def weight : Step α → Nat
  | .subscribe _ _ plan => weights plan + 1
  | _ => 1

def weights : List (Step α) → Nat
  | [] => 0
  | s :: rest => weight s + weights rest

end

/-- One turn of a reader: it reads until there is nothing more. -/
def drain (fuel : Nat) (t : Traced α) (i : Nat) (r : Reader α) : Traced α × Reader α :=
  match fuel with
  | 0 => (t, r)
  | fuel + 1 =>
    match (t.cell.read i).2 with
    | .item a =>
      let t := t.deal (.read i)
      let r := { r with received := r.received ++ [a], limit := r.limit.map (· - 1) }
      if r.limit = some 0 then (t.deal (.cancel i), { r with isDone := true }) else drain fuel t i r
    | .ended => (t.deal (.read i), { r with sawEnd := true, isDone := true })
    | .waiting => (t.deal (.read i), r)

def turn (t : Traced α) (r : Reader α) : Traced α × Reader α :=
  if r.isDone then (t, r)
  else
    let (t, i) := match r.stream with
      | some i => (t, i)
      | none => (t.deal .openStream, t.cell.openStream.2)
    let count := ((t.cell.streams[i]?).map (·.pending.length)).getD 0
    drain (count + 1) t i { r with stream := some i }

/-- Gives every reader a turn. -/
def settle (s : Session α) : Session α :=
  let (t, readers) := s.readers.foldl (fun (t, rs) (label, r) =>
    let (t, r) := turn t r
    (t, rs ++ [(label, r)])) (s.toTraced, [])
  { s with toTraced := t, readers }

def cancel (s : Session α) (label : String) : Except Failure (Session α) :=
  match Members.get? s.readers label with
  | none => .error ⟨.noKey, label⟩
  | some r =>
    let t := match r.stream with
      | some i => if r.isDone then s.toTraced else s.deal (.cancel i)
      | none => s.toTraced
    .ok { s with toTraced := t, readers := Members.set s.readers label { r with isDone := true } }

/-- The step that a subscriber takes now, if one is left. -/
def takePlan (s : Session α) (label : String) : Option (Step α × Session α) :=
  match Members.get? s.plans label with
  | some (step :: rest) => some (step, { s with plans := Members.set s.plans label rest })
  | _ => none

/-- Takes a step, and with it the steps of the subscribers that it reaches. -/
def perform (fuel : Nat) (step : Step α) : Run α Unit :=
  match fuel with
  | 0 => throw ⟨.stackExhausted, ""⟩
  | fuel + 1 => do
    let s ← get
    match step with
    | .subscribe label handle plan =>
      let plans := match Members.get? s.plans label with
        | some _ => s.plans
        | none => Members.set s.plans label plan
      set { s with
        toTraced := s.deal (.subscribe label), plans
        handles := Members.set s.handles handle label }
    | .unsubscribe handle =>
      match Members.get? s.handles handle with
      | some label => set { s with toTraced := s.deal (.unsubscribe label) }
      | none => throw ⟨.noKey, handle⟩
    | .next value =>
      set { s with toTraced := s.deal (.next value) }
      (s.cell.next value).2.forM fun label => do
        modify fun s => { s with calls := s.calls ++ [(label, value)] }
        match takePlan (← get) label with
        | some (step, s) =>
          set s
          perform fuel step
        | none => pure ()
    | .reset value => set { s with toTraced := s.deal (.reset value) }
    | .complete => set { s with toTraced := s.deal .complete }
    | .stream label limit =>
      set { s with readers := Members.set s.readers label { limit } }
    | .cancel label => set (← s.cancel label)
    | .settle => set s.settle

/-- Takes a step from outside; the calls that it makes are those of the session afterwards. -/
def step (s : Session α) (step : Step α) : Except Failure Unit × Session α :=
  let fuel := weight step + weights (s.plans.flatMap (·.2)) + 1
  (perform fuel step).run.run { s with calls := [] }

end Session

end LiveSvg.Cell
