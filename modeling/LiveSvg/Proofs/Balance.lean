import LiveSvg.Proofs.Ledger
import Mathlib.Tactic.Abel
/-!
The books balance: every dispatch that was called is still to be done or has been concluded, and an
acquisition gets every value once between its begin and its end.
-/

namespace LiveSvg

open Script (Datum)

namespace Entry

def called? : Entry → Option Dispatch
  | .called d => some d
  | _ => none

/-- The setter and the value that were handed over. -/
def handed? : Entry → Option (Nat × Datum)
  | .handed setter value => some (setter, value)
  | _ => none

def concluded? : Entry → Option Dispatch
  | .concluded d => some d
  | _ => none

def milestone? : Entry → Option Milestone
  | .reached m => some m
  | _ => none

end Entry

namespace Task

/-- The dispatch that a task is part of. -/
def dispatch? : Task → Option Dispatch
  | .send d => some d
  | .deliver d => some d
  | _ => none

/-- Whether a task is part of an acquisition. -/
def isErrand (t : Task) : Prop := t.dispatch? = none

instance (t : Task) : Decidable t.isErrand := inferInstanceAs (Decidable (t.dispatch? = none))

end Task

/-- Getters that are still to be asked, and a number of them that have just been asked. -/
def underway (todo : List Nat) (asked : Nat) : Multiset Task :=
  ↑(todo.map (Task.get 0)) + Multiset.replicate asked (Task.settle 0)

theorem mem_underway {todo : List Nat} {asked : Nat} {t : Task} : t ∈ underway todo asked ↔
    (∃ getter ∈ todo, .get 0 getter = t) ∨ asked ≠ 0 ∧ t = .settle 0 := by
  simp [underway, Multiset.mem_replicate]

/-- Asking one of the getters. -/
theorem underway_ask {todo rest : List Nat} {getter : Nat} (h : todo.Perm (getter :: rest))
    (asked : Nat) : underway todo asked = {.get 0 getter} + underway rest asked := by
  unfold underway
  rw [Multiset.coe_eq_coe.mpr (h.map (Task.get 0)), ← add_assoc]
  rfl

theorem underway_succ (todo : List Nat) (asked : Nat) :
    underway todo (asked + 1) = {.settle 0} + underway todo asked := by
  unfold underway
  rw [Multiset.replicate_succ, ← Multiset.singleton_add, add_left_comm]

/-- The tasks of an acquisition at one stage of it, with the batches and the milestones reached. -/
inductive Stage (N : Nat) : Multiset Task → Array Batch → List Milestone → Prop where
  | none : Stage N 0 #[] []
  | begun {b : Batch} : 0 < N → Stage N {.begin 0} #[b] [.begun 0]
  | out {b : Batch} {todo done : List Nat} {asked : Nat} : (todo ++ done).Perm (List.range N) →
    b.outstanding = todo.length + asked → 0 < todo.length + asked →
      Stage N (underway todo asked) #[b] (.begun 0 :: done.map (.got 0))
  | closing {b : Batch} {done : List Nat} : done.Perm (List.range N) →
    Stage N {.finish 0} #[b] (.begun 0 :: done.map (.got 0))
  | ended {b : Batch} {done : List Nat} : done.Perm (List.range N) →
    Stage N 0 #[b] (.begun 0 :: done.map (.got 0) ++ [.ended 0])

namespace Stage

variable {N batch : Nat} {T : Multiset Task} {B : Array Batch} {ms : List Milestone}

theorem spread (h : Stage N ({.begin batch} + T) B ms) :
    Stage N (↑((List.range N).map (Task.get batch)) + T)
      (B.modify batch fun b => { b with outstanding := N }) ms := by
  have hm : Task.begin batch ∈ ({.begin batch} + T : Multiset Task) := by simp
  generalize he : ({.begin batch} + T : Multiset Task) = E at h hm
  cases h with
  | @begun b hN =>
    obtain rfl : batch = 0 := by simpa using hm
    obtain rfl : T = 0 := add_left_cancel (he.trans (add_zero _).symm)
    have hp : (List.range N ++ []).Perm (List.range N) := by simp
    have ho : Stage N (underway (List.range N) 0) #[{ b with outstanding := N }] [.begun 0] :=
      .out hp (by simp) (by simpa using hN)
    exact ho
  | none | ended => simp at hm
  | closing => simp at hm
  | out => simp [mem_underway] at hm

theorem got {getter : Nat} (h : Stage N ({.get batch getter} + T) B ms) :
    Stage N ({.settle batch} + T) B (ms ++ [.got batch getter]) := by
  have hm : Task.get batch getter ∈ ({.get batch getter} + T : Multiset Task) := by simp
  generalize he : ({.get batch getter} + T : Multiset Task) = E at h hm
  cases h with
  | @out b todo done asked hp hb hk =>
    obtain ⟨hg, rfl⟩ : getter ∈ todo ∧ 0 = batch := by
      simpa [mem_underway] using hm
    obtain ⟨rest, hr⟩ : ∃ rest, todo.Perm (getter :: rest) := ⟨_, List.perm_cons_erase hg⟩
    have ht : T = underway rest asked := add_left_cancel (he.trans (underway_ask hr asked))
    have ho : Stage N (underway rest (asked + 1)) #[b]
        (.begun 0 :: (done ++ [getter]).map (.got 0)) := by
      refine .out ?_ ?_ (by omega)
      · calc rest ++ (done ++ [getter]) = (rest ++ done) ++ [getter] := (List.append_assoc ..).symm
          _ |>.Perm (getter :: rest ++ done) := List.perm_append_singleton ..
          _ |>.Perm (todo ++ done) := hr.symm.append_right done
          _ |>.Perm (List.range N) := hp
      · rw [hb, hr.length_eq, List.length_cons]
        omega
    rw [ht, ← underway_succ]
    rw [List.map_append] at ho
    exact ho
  | none | ended => simp at hm
  | begun | closing => simp at hm

theorem settle (h : Stage N ({.settle batch} + T) B ms) :
    Stage N ((if (B[batch]?).map (·.outstanding - 1) = some 0 then {.finish batch} else 0) + T)
      (B.modify batch fun b => { b with outstanding := b.outstanding - 1 }) ms := by
  have hm : Task.settle batch ∈ ({.settle batch} + T : Multiset Task) := by simp
  generalize he : ({.settle batch} + T : Multiset Task) = E at h hm
  cases h with
  | @out b todo done asked hp hb hk =>
    obtain ⟨ha, rfl⟩ : asked ≠ 0 ∧ batch = 0 := by
      simpa [mem_underway] using hm
    obtain ⟨left, rfl⟩ := Nat.exists_eq_succ_of_ne_zero ha
    obtain rfl : T = underway todo left := add_left_cancel (he.trans (underway_succ todo left))
    have hb : b.outstanding - 1 = todo.length + left := by rw [hb]; rfl
    by_cases hl : todo.length + left = 0
    · obtain ⟨rfl, rfl⟩ : todo = [] ∧ left = 0 := by
        simpa using hl
      rw [if_pos (by simp [hb])]
      exact .closing hp
    · rw [if_neg (by simpa [hb] using hl), zero_add]
      have ho : Stage N (underway todo left) #[{ b with outstanding := b.outstanding - 1 }]
          (.begun 0 :: done.map (.got 0)) :=
        .out hp hb (Nat.pos_of_ne_zero hl)
      exact ho
  | none | ended => simp at hm
  | begun | closing => simp at hm

theorem finish (h : Stage N ({.finish batch} + T) B ms) :
    Stage N T (B.modify batch fun b => { b with isDone := true }) (ms ++ [.ended batch]) := by
  have hm : Task.finish batch ∈ ({.finish batch} + T : Multiset Task) := by simp
  generalize he : ({.finish batch} + T : Multiset Task) = E at h hm
  cases h with
  | closing hp =>
    obtain rfl : batch = 0 := by simpa using hm
    obtain rfl : T = 0 := add_left_cancel (he.trans (add_zero _).symm)
    exact .ended hp
  | none | ended => simp at hm
  | begun => simp at hm
  | out => simp [mem_underway] at hm

/-- As long as there is no batch, nothing has begun. -/
theorem unbatched (h : Stage N T B ms) (hB : B = #[]) : T = 0 ∧ ms = [] := by
  cases h with
  | none => exact ⟨rfl, rfl⟩
  | _ => cases hB

/-- Where no task of an acquisition is left, it has not begun or it has ended. -/
theorem rest (h : Stage N 0 B ms) : B = #[] ∧ ms = [] ∨
    B.size = 1 ∧ ∃ order : List Nat, order.Perm (List.range N) ∧
      ms = .begun 0 :: order.map (.got 0) ++ [.ended 0] := by
  generalize he : (0 : Multiset Task) = E at h
  cases h with
  | none => exact .inl ⟨rfl, rfl⟩
  | ended hp => exact .inr ⟨rfl, _, hp, rfl⟩
  | begun | closing => exact absurd he.symm (Multiset.singleton_ne_zero _)
  | @out b todo done asked hp hb hk =>
    have hc : (underway todo asked).card = todo.length + asked := by
      simp [underway]
    rw [← he, Multiset.card_zero] at hc
    omega

end Stage

/-! ### The books as a whole -/

namespace Ledger

/-- All dispatches that were called, in the order of the calls. -/
def calls (l : Ledger) : List Dispatch := l.entries.filterMap Entry.called?

/-- What was handed over to the setters, in that order. -/
def hands (l : Ledger) : List (Nat × Datum) := l.entries.filterMap Entry.handed?

def concludes (l : Ledger) : List Dispatch := l.entries.filterMap Entry.concluded?

def milestones (l : Ledger) : List Milestone := l.entries.filterMap Entry.milestone?

/-- The dispatches that have been called and not concluded. -/
def dispatches (l : Ledger) : Multiset Dispatch := l.tasks.filterMap Task.dispatch?

/-- The tasks of acquisitions. -/
def errands (l : Ledger) : Multiset Task := l.tasks.filter Task.isErrand

/-- What has been called is what has been handed over and what is still to be sent, in this order, and
it is what has been concluded and what is still under way; acquisitions are at one of their stages. -/
structure Balanced (N : Nat) (l : Ledger) : Prop where
  handed : l.calls.map (fun d => (d.setter, d.value)) =
    l.hands ++ l.sends.map fun d => (d.setter, d.value)
  concluded : (l.calls : Multiset Dispatch) = l.concludes + l.dispatches
  acquired : Stage N l.errands l.batches l.milestones

end Ledger

theorem filterMap_snoc {α β : Type} (f : α → Option β) (l : List α) (a : α) :
    (l ++ [a]).filterMap f = l.filterMap f ++ (f a).toList := by
  rw [List.filterMap_append]
  cases h : f a <;> simp [h]

theorem dispatches_add {t : Task} {d : Dispatch} (h : t.dispatch? = some d) (T : Multiset Task) :
    ({t} + T).filterMap Task.dispatch? = {d} + T.filterMap Task.dispatch? :=
  Multiset.filterMap_cons_some _ t T h

/-- The tasks of acquisitions have no dispatches. -/
theorem dispatches_skip {E : Multiset Task} (h : ∀ t ∈ E, t.dispatch? = none) (T : Multiset Task) :
    (E + T).filterMap Task.dispatch? = T.filterMap Task.dispatch? := by
  induction E using Multiset.induction with
  | empty => rw [zero_add]
  | cons t E ih =>
    rw [Multiset.cons_add, Multiset.filterMap_cons_none t _ (h t (by simp))]
    exact ih fun u hu => h u (by simp [hu])

theorem errands_add {t : Task} (h : t.dispatch? = none) (T : Multiset Task) :
    ({t} + T).filter Task.isErrand = {t} + T.filter Task.isErrand :=
  Multiset.filter_cons_of_pos (p := Task.isErrand) T h

theorem errands_skip {t : Task} (h : ¬ t.isErrand) (T : Multiset Task) :
    ({t} + T).filter Task.isErrand = T.filter Task.isErrand :=
  Multiset.filter_cons_of_neg T h

namespace Turn

variable {v : Visual} {l l' : Ledger}

/-- What is handed over is what was called, in the order of the calls. -/
theorem handed (h : Turn v l l')
    (hl : l.calls.map (fun d => (d.setter, d.value)) =
      l.hands ++ l.sends.map fun d => (d.setter, d.value)) :
    l'.calls.map (fun d => (d.setter, d.value)) =
      l'.hands ++ l'.sends.map fun d => (d.setter, d.value) := by
  unfold Ledger.calls Ledger.hands at hl ⊢
  cases h with
  | still => exact hl
  | @call d hd =>
    dsimp only
    rw [filterMap_snoc, filterMap_snoc, List.map_append, hl]
    simp [Entry.called?, Entry.handed?]
  | @hand d T S ht hs =>
    dsimp only
    rw [filterMap_snoc, filterMap_snoc, List.map_append, hl, hs]
    simp [Entry.called?, Entry.handed?]
  | spread | settle => exact hl
  | conclude | got | finish =>
    dsimp only
    rw [filterMap_snoc, filterMap_snoc, List.map_append, hl]
    simp [Entry.called?, Entry.handed?]

/-- What is called is concluded once, or is still under way. -/
theorem concluded (h : Turn v l l')
    (hl : (l.calls : Multiset Dispatch) = l.concludes + l.dispatches) :
    (l'.calls : Multiset Dispatch) = l'.concludes + l'.dispatches := by
  have one : ∀ {t : Task}, t.dispatch? = none → ∀ u ∈ ({t} : Multiset Task), u.dispatch? = none :=
    fun ht u k => Multiset.mem_singleton.mp k ▸ ht
  unfold Ledger.calls Ledger.concludes Ledger.dispatches at hl ⊢
  cases h with
  | still => exact hl
  | @call d hd =>
    dsimp only
    rw [filterMap_snoc, filterMap_snoc, dispatches_add rfl]
    change ((_ ++ [d] : List Dispatch) : Multiset Dispatch) = ↑(_ ++ [] : List Dispatch) + _
    rw [List.append_nil, ← Multiset.coe_add, hl, add_assoc]
    exact congrArg _ (add_comm _ _)
  | @hand d T S ht hs =>
    rw [ht, dispatches_add rfl] at hl
    dsimp only
    rw [filterMap_snoc, filterMap_snoc, dispatches_add rfl]
    simpa [Entry.called?, Entry.concluded?] using hl
  | @conclude d T ht =>
    rw [ht, dispatches_add rfl, ← add_assoc] at hl
    dsimp only
    rw [filterMap_snoc, filterMap_snoc]
    change ((_ ++ [] : List Dispatch) : Multiset Dispatch) = ↑(_ ++ [d] : List Dispatch) + _
    rw [List.append_nil, hl, ← Multiset.coe_add]
    rfl
  | @got batch getter T ht =>
    rw [ht, dispatches_skip (one rfl)] at hl
    dsimp only
    rw [filterMap_snoc, filterMap_snoc, dispatches_skip (one rfl)]
    simpa [Entry.called?, Entry.concluded?] using hl
  | @finish batch T ht =>
    rw [ht, dispatches_skip (one rfl)] at hl
    dsimp only
    rw [filterMap_snoc, filterMap_snoc]
    simpa [Entry.called?, Entry.concluded?] using hl
  | @spread batch T ht =>
    rw [ht, dispatches_skip (one rfl)] at hl
    dsimp only
    rw [dispatches_skip fun t k => ?_, hl]
    obtain ⟨getter, -, rfl⟩ := List.mem_map.mp (Multiset.mem_coe.mp k)
    rfl
  | @settle batch T ht =>
    rw [ht, dispatches_skip (one rfl)] at hl
    dsimp only
    rw [dispatches_skip fun t k => ?_, hl]
    split at k
    · exact one rfl t k
    · exact absurd k (Multiset.notMem_zero t)

/-- An acquisition goes from stage to stage. -/
theorem acquired (h : Turn v l l') (hl : Stage v.getters.size l.errands l.batches l.milestones) :
    Stage v.getters.size l'.errands l'.batches l'.milestones := by
  unfold Ledger.errands Ledger.milestones at hl ⊢
  cases h with
  | still => exact hl
  | @call d hd =>
    dsimp only
    rw [filterMap_snoc, errands_skip fun k => by cases k]
    simpa [Entry.milestone?] using hl
  | @hand d T S ht hs =>
    rw [ht, errands_skip fun k => by cases k] at hl
    dsimp only
    rw [filterMap_snoc, errands_skip fun k => by cases k]
    simpa [Entry.milestone?] using hl
  | @conclude d T ht =>
    rw [ht, errands_skip fun k => by cases k] at hl
    dsimp only
    rw [filterMap_snoc]
    simpa [Entry.milestone?] using hl
  | @got batch getter T ht =>
    rw [ht, errands_add rfl] at hl
    dsimp only
    rw [filterMap_snoc, errands_add rfl]
    exact hl.got
  | @finish batch T ht =>
    rw [ht, errands_add rfl] at hl
    dsimp only
    rw [filterMap_snoc]
    exact hl.finish
  | @spread batch T ht =>
    rw [ht, errands_add rfl] at hl
    dsimp only
    rw [Multiset.filter_add, Multiset.filter_eq_self.mpr fun t k => ?_]
    · exact hl.spread
    · obtain ⟨getter, -, rfl⟩ := List.mem_map.mp (Multiset.mem_coe.mp k)
      rfl
  | @settle batch T ht =>
    rw [ht, errands_add rfl] at hl
    dsimp only
    rw [Multiset.filter_add, Multiset.filter_eq_self.mpr fun t k => ?_]
    · exact hl.settle
    · split at k
      · rw [Multiset.mem_singleton.mp k]
        rfl
      · exact absurd k (Multiset.notMem_zero t)

theorem balanced (h : Turn v l l') (hl : l.Balanced v.getters.size) :
    l'.Balanced v.getters.size :=
  ⟨h.handed hl.handed, h.concluded hl.concluded, h.acquired hl.acquired⟩

end Turn

end LiveSvg
