import LiveSvg.Cell.Session
import Mathlib.Data.List.Basic
/-!
What streams of a cell deliver. A stream that is opened while the cell is open delivers the value the
cell has then and every value that it takes from then on, each once and in order, whatever else is done
with the cell in between and however late it is read; one that is opened later is empty.
-/

namespace LiveSvg.Cell

variable {α β ι : Type} {c c' : Cell α ι} {d : Deal α ι} {ds : List (Deal α ι)} {i : Nat}

/-! ### Reading -/

/-- What a stream gives next: the first of what it holds, or that it has ended, or nothing yet. -/
def Reading.next : List α → Bool → Reading α
  | a :: _, _ => .item a
  | [], true => .ended
  | [], false => .waiting

theorem read_stream {p : List α} {isEnded : Bool} (h : c.streams[i]? = some ⟨p, isEnded⟩) :
    (c.read i).1.streams[i]? = some ⟨p.tail, isEnded⟩ ∧ (c.read i).2 = .next p isEnded := by
  obtain ⟨hi, -⟩ := List.getElem?_eq_some_iff.mp h
  unfold read
  cases p with
  | cons a rest =>
    rw [h]
    exact ⟨List.getElem?_set_self hi, rfl⟩
  | nil => cases isEnded <;> rw [h] <;> exact ⟨h, rfl⟩

@[simp] theorem read_isClosed (c : Cell α ι) (j : Nat) : (c.read j).1.isClosed = c.isClosed := by
  unfold read
  split <;> rfl

theorem read_other {j : Nat} (hj : j ≠ i) (c : Cell α ι) : (c.read j).1.streams[i]? = c.streams[i]? := by
  unfold read
  split
  · rfl
  · exact List.getElem?_set_ne hj
  · rfl
  · rfl

variable [BEq ι]

/-! ### What is done, one deal after another -/

/-- The cell once several things have been done with it. -/
def after (c : Cell α ι) (ds : List (Deal α ι)) : Cell α ι := ds.foldl on c

/-- What is seen of each deal on the way. -/
def along (see : Cell α ι → Deal α ι → Option β) (c : Cell α ι) : List (Deal α ι) → List β
  | [] => []
  | d :: ds => (see c d).toList ++ along see (c.on d) ds

/-- The value that a cell takes; a closed one takes none. -/
def taken? (c : Cell α ι) : Deal α ι → Option α
  | .next a => if c.isClosed then none else some a
  | _ => none

/-- What a stream gives when it is read. -/
def reading? (i : Nat) (c : Cell α ι) : Deal α ι → Option (Reading α)
  | .read j => if j = i then some (c.read i).2 else none
  | _ => none

def Reading.item? : Reading α → Option α
  | .item a => some a
  | _ => none

/-- The values that a cell takes, in order. -/
def accepted (c : Cell α ι) (ds : List (Deal α ι)) : List α := c.along taken? ds

/-- All that a stream gives, in order. -/
def readings (i : Nat) (c : Cell α ι) (ds : List (Deal α ι)) : List (Reading α) := c.along (reading? i) ds

/-- The values among it. -/
def delivered (i : Nat) (c : Cell α ι) (ds : List (Deal α ι)) : List α :=
  (c.readings i ds).filterMap Reading.item?

@[simp] theorem after_nil : c.after [] = c := rfl

@[simp] theorem after_cons : c.after (d :: ds) = (c.on d).after ds := rfl

theorem after_append (c : Cell α ι) (ds ds' : List (Deal α ι)) :
    c.after (ds ++ ds') = (c.after ds).after ds' := List.foldl_append

theorem along_append (see : Cell α ι → Deal α ι → Option β) (c : Cell α ι) (ds ds' : List (Deal α ι)) :
    c.along see (ds ++ ds') = c.along see ds ++ (c.after ds).along see ds' := by
  induction ds generalizing c with
  | nil => rfl
  | cons d ds ih => rw [List.cons_append, along, ih, along, List.append_assoc, after_cons]

theorem accepted_cons (c : Cell α ι) (d : Deal α ι) (ds : List (Deal α ι)) :
    c.accepted (d :: ds) = (c.taken? d).toList ++ (c.on d).accepted ds := rfl

theorem delivered_cons (i : Nat) (c : Cell α ι) (d : Deal α ι) (ds : List (Deal α ι)) :
    c.delivered i (d :: ds) = ((c.reading? i d).bind Reading.item?).toList ++ (c.on d).delivered i ds := by
  unfold delivered readings
  rw [along, List.filterMap_append]
  cases c.reading? i d with
  | none => rfl
  | some r => cases r <;> rfl

/-! ### One stream -/

/-- Whether a deal has nothing to do with a stream that is open already. -/
def Deal.isAside (i : Nat) : Deal α ι → Bool
  | .next _ | .complete => false
  | .read j | .cancel j => j != i
  | _ => true

/-- What a deal makes of a stream of a cell that is open or closed. -/
def Stream.on (i : Nat) (isClosed : Bool) (s : Stream α) : Deal α ι → Stream α
  | .next a => if isClosed then s else s.push a
  | .complete => if isClosed then s else { s with isEnded := true }
  | .read j => if j = i then { s with pending := s.pending.tail } else s
  | .cancel j => if j = i then ⟨[], true⟩ else s
  | _ => s

/-- Each deal looks at every stream by itself. -/
theorem on_stream {s : Stream α} (h : c.streams[i]? = some s) (d : Deal α ι) :
    (c.on d).streams[i]? = some (s.on i c.isClosed d) := by
  obtain ⟨hi, -⟩ := List.getElem?_eq_some_iff.mp h
  cases d with
  | subscribe x =>
    change (c.subscribe x).streams[i]? = some s
    unfold subscribe
    split <;> exact h
  | unsubscribe x => exact h
  | next a =>
    change (c.next a).1.streams[i]? = some (if c.isClosed then s else s.push a)
    unfold next
    split
    · exact h
    · exact List.getElem?_map.trans (by rw [h]; rfl)
  | reset a =>
    change (c.reset a).streams[i]? = some s
    unfold reset
    split <;> exact h
  | complete =>
    change c.complete.streams[i]? = some (if c.isClosed then s else { s with isEnded := true })
    unfold complete
    split
    · exact h
    · exact List.getElem?_map.trans (by rw [h]; rfl)
  | openStream => exact (List.getElem?_append_left hi).trans h
  | read j =>
    change (c.read j).1.streams[i]? = some (if j = i then { s with pending := s.pending.tail } else s)
    by_cases hj : j = i
    · subst hj
      rw [if_pos rfl]
      exact (read_stream h).1
    · rw [if_neg hj, read_other hj]
      exact h
  | cancel j =>
    change (c.cancel j).streams[i]? = some (if j = i then ⟨[], true⟩ else s)
    by_cases hj : j = i
    · subst hj
      rw [if_pos rfl]
      exact List.getElem?_set_self hi
    · rw [if_neg hj]
      exact (List.getElem?_set_ne hj).trans h

/-- Only completing a cell closes it. -/
theorem on_isClosed (c : Cell α ι) (d : Deal α ι) :
    (c.on d).isClosed = (c.isClosed || d matches .complete) := by
  cases d with
  | subscribe x =>
    change (c.subscribe x).isClosed = _
    unfold subscribe
    split <;> simp
  | next a =>
    change (c.next a).1.isClosed = _
    unfold next
    split <;> simp
  | reset a =>
    change (c.reset a).isClosed = _
    unfold reset
    split <;> simp
  | complete =>
    change c.complete.isClosed = _
    unfold complete
    split <;> simp [*]
  | read j => exact (c.read_isClosed j).trans (by simp)
  | _ => simp [on, unsubscribe, openStream, cancel]

/-- What a deal makes of the subscribers of a cell. -/
theorem on_subscribers (c : Cell α ι) (d : Deal α ι) : (c.on d).subscribers = match d with
    | .subscribe x => if c.isClosed then c.subscribers else c.subscribers ++ [x]
    | .unsubscribe x => c.subscribers.erase x
    | .complete => if c.isClosed then c.subscribers else []
    | _ => c.subscribers := by
  cases d with
  | subscribe x =>
    change (c.subscribe x).subscribers = _
    unfold subscribe
    split <;> rfl
  | next v =>
    change (c.next v).1.subscribers = _
    unfold next
    split <;> rfl
  | reset v =>
    change (c.reset v).subscribers = _
    unfold reset
    split <;> rfl
  | complete =>
    change c.complete.subscribers = _
    unfold complete
    split <;> rfl
  | read i =>
    change (c.read i).1.subscribers = _
    unfold read
    split <;> rfl
  | _ => rfl

omit [BEq ι] in
/-- What is read depends on the stream that is read. -/
theorem reading?_stream {s : Stream α} (h : c.streams[i]? = some s) (d : Deal α ι) :
    c.reading? i d = match d with
      | .read j => if j = i then some (.next s.pending s.isEnded) else none
      | _ => none := by
  cases d with
  | read j =>
    unfold reading?
    dsimp only
    split
    · rw [(read_stream h).2]
    · rfl
  | _ => rfl

/-- A stream that is at its end stays there, and gives nothing any more. -/
theorem readings_over (h : c.streams[i]? = some ⟨[], true⟩) (ds : List (Deal α ι)) :
    ∀ r ∈ c.readings i ds, r = .ended := by
  induction ds generalizing c with
  | nil => exact fun _ h => absurd h List.not_mem_nil
  | cons d ds ih =>
    intro r hr
    rcases List.mem_append.mp hr with hr | hr
    · rw [reading?_stream h] at hr
      split at hr
      · split at hr
        · exact List.mem_singleton.mp hr
        · cases hr
      · cases hr
    · refine ih ?_ r hr
      rw [on_stream h]
      cases d <;> simp [Stream.on, Stream.push]

theorem delivered_over (h : c.streams[i]? = some ⟨[], true⟩) (ds : List (Deal α ι)) :
    c.delivered i ds = [] :=
  List.filterMap_eq_nil_iff.mpr fun r hr => by rw [readings_over h ds r hr]; rfl

/-- A stream that has not been given up ends when its cell is closed. Of what it holds and what the cell
takes, it delivers the first, and holds the rest. -/
theorem on_live {p : List α} (h : c.streams[i]? = some ⟨p, c.isClosed⟩) (hd : d ≠ .cancel i) :
    ∃ p', (c.on d).streams[i]? = some ⟨p', (c.on d).isClosed⟩ ∧
      ((c.reading? i d).bind Reading.item?).toList ++ p' = p ++ (c.taken? d).toList := by
  rw [on_stream h, on_isClosed, reading?_stream h]
  cases d with
  | next a => cases hc : c.isClosed <;> simp [Stream.on, Stream.push, taken?, hc]
  | complete => cases hc : c.isClosed <;> simp [Stream.on, taken?]
  | read j =>
    by_cases hj : j = i
    · cases p with
      | cons a p => simp [Stream.on, taken?, hj, Reading.next, Reading.item?]
      | nil => cases hc : c.isClosed <;> simp [Stream.on, taken?, hj, Reading.next, Reading.item?]
    · simp [Stream.on, taken?, hj]
  | cancel j =>
    have hj : j ≠ i := fun k => hd (by rw [k])
    simp [Stream.on, taken?, hj]
  | _ => simp [Stream.on, taken?]

theorem after_live {p : List α} (h : c.streams[i]? = some ⟨p, c.isClosed⟩) (hd : .cancel i ∉ ds) :
    ∃ p', (c.after ds).streams[i]? = some ⟨p', (c.after ds).isClosed⟩ ∧
      c.delivered i ds ++ p' = p ++ c.accepted ds := by
  induction ds generalizing c p with
  | nil => exact ⟨p, h, (List.append_nil p).symm⟩
  | cons d ds ih =>
    rw [List.mem_cons, not_or] at hd
    obtain ⟨q, hq, he⟩ := on_live h (Ne.symm hd.1)
    obtain ⟨p', hp, hds⟩ := ih hq hd.2
    refine ⟨p', hp, ?_⟩
    rw [delivered_cons, accepted_cons, List.append_assoc, hds, ← List.append_assoc, he, List.append_assoc]

/-- Also when it has been given up, it has delivered the first of it. -/
theorem delivered_prefix {p : List α} (h : c.streams[i]? = some ⟨p, c.isClosed⟩) (ds : List (Deal α ι)) :
    c.delivered i ds <+: p ++ c.accepted ds := by
  induction ds generalizing c p with
  | nil => exact List.nil_prefix
  | cons d ds ih =>
    rw [delivered_cons]
    by_cases hd : d = .cancel i
    · subst hd
      rw [delivered_over (by rw [on_stream h]; simp [Stream.on]) ds]
      exact List.nil_prefix
    · obtain ⟨q, hq, he⟩ := on_live h hd
      obtain ⟨rest, hr⟩ := ih hq
      exact ⟨rest, by rw [accepted_cons, List.append_assoc, hr, ← List.append_assoc, he, List.append_assoc]⟩

/-- Where two cells are both open or both closed and a stream is the same, so is all that it gives. -/
theorem readings_congr {s : Stream α} (h : c.streams[i]? = some s) (h' : c'.streams[i]? = some s)
    (hc : c'.isClosed = c.isClosed) (ds : List (Deal α ι)) : c'.readings i ds = c.readings i ds := by
  induction ds generalizing c c' s with
  | nil => rfl
  | cons d ds ih =>
    have hs' := on_stream h' d
    rw [hc] at hs'
    refine congrArg₂ (fun r l => Option.toList r ++ l) ?_ (ih (on_stream h d) hs' ?_)
    · rw [reading?_stream h, reading?_stream h']
    · rw [on_isClosed, on_isClosed, hc]

/-- A stream that is open stays there. -/
theorem after_stream {s : Stream α} (h : c.streams[i]? = some s) (ds : List (Deal α ι)) :
    ∃ s', (c.after ds).streams[i]? = some s' := by
  induction ds generalizing c s with
  | nil => exact ⟨s, h⟩
  | cons d ds ih => exact ih (on_stream h d)

/-- What has nothing to do with a stream changes nothing for it, whenever it is done. -/
theorem readings_aside {s : Stream α} (h : c.streams[i]? = some s) (hd : d.isAside i = true)
    (ds ds' : List (Deal α ι)) : c.readings i (ds ++ d :: ds') = c.readings i (ds ++ ds') := by
  obtain ⟨t, ht⟩ := after_stream h ds
  have hs : ((c.after ds).on d).streams[i]? = some t := by
    rw [on_stream ht]
    cases d <;> simp_all [Deal.isAside, Stream.on]
  have hc : ((c.after ds).on d).isClosed = (c.after ds).isClosed := by
    rw [on_isClosed]
    cases d <;> simp_all [Deal.isAside]
  have hr : (c.after ds).reading? i d = none := by
    rw [reading?_stream ht]
    cases d <;> simp_all [Deal.isAside]
  unfold readings
  rw [along_append, along_append, along, hr]
  exact congrArg _ (readings_congr ht hs hc ds')

/-- What becomes of a stream that is opened on a cell now. -/
structure Faithful (c : Cell α ι) : Prop where
  /-- It delivers the value of the cell and those that the cell takes, from the first on, each once. -/
  inOrder : c.isClosed = false → ∀ ds,
    c.openStream.1.delivered c.openStream.2 ds <+: c.value :: c.openStream.1.accepted ds
  /-- Unless it is given up, all that it has not delivered is still to come, and after that it ends if
  the cell has been closed. -/
  complete : c.isClosed = false → ∀ ds, .cancel c.openStream.2 ∉ ds → ∃ rest,
    c.openStream.1.delivered c.openStream.2 ds ++ rest = c.value :: c.openStream.1.accepted ds ∧
      ((c.openStream.1.after ds).read c.openStream.2).2 = .next rest (c.openStream.1.after ds).isClosed
  /-- On a closed cell it has ended. -/
  empty : c.isClosed = true → ∀ ds, ∀ r ∈ c.openStream.1.readings c.openStream.2 ds, r = .ended
  /-- Replacing the value, giving up or reading other streams and opening more of them changes nothing. -/
  aside (d : Deal α ι) : d.isAside c.openStream.2 = true → ∀ ds ds',
    c.openStream.1.readings c.openStream.2 (ds ++ d :: ds') =
      c.openStream.1.readings c.openStream.2 (ds ++ ds')

theorem faithful (c : Cell α ι) : c.Faithful := by
  have hs : c.openStream.1.streams[c.openStream.2]? =
      some (if c.isClosed then ⟨[], true⟩ else ⟨[c.value], false⟩) := List.getElem?_concat_length
  have live : c.isClosed = false →
      c.openStream.1.streams[c.openStream.2]? = some ⟨[c.value], c.openStream.1.isClosed⟩ := fun h => by
    rw [hs, h]
    exact congrArg (fun b => some (Stream.mk [c.value] b)) h.symm
  refine ⟨fun h => delivered_prefix (live h), fun h ds hd => ?_, fun h => ?_, fun d hd => readings_aside hs hd⟩
  · obtain ⟨rest, hr, he⟩ := after_live (live h) hd
    exact ⟨rest, he, (read_stream hr).2⟩
  · rw [h] at hs
    exact readings_over hs

end LiveSvg.Cell
