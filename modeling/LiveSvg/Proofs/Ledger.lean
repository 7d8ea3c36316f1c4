import LiveSvg.Proofs.Tables
import LiveSvg.Proofs.Tasks
/-!
The books that are kept of a visual: its tasks that are still to be done, and what has come to pass of
them. Every move is one turn of the books, or leaves them as they are.
-/

namespace LiveSvg

open Script (Datum)

/-- How far an acquisition has come. -/
inductive Milestone where
  | begun (batch : Nat)
  | got (batch getter : Nat)
  | ended (batch : Nat)
  deriving DecidableEq

/-- What is remembered of dispatches and acquisitions. -/
inductive Entry where
  | called (d : Dispatch)
  | handed (setter : Nat) (value : Datum)
  | concluded (d : Dispatch)
  | reached (m : Milestone)

/-- The entry that an event makes. -/
def Event.entry? (e : Event) : Option Entry :=
  match e.deed with
  | .call id value observer => (e.before.setterFor? id).map fun n => .called ⟨n, value, observer⟩
  | .hand setter value => some (.handed setter value)
  | .conclude setter value observer _ => some (.concluded ⟨setter, value, observer⟩)
  | .beginBatch batch => some (.reached (.begun batch))
  | .acquire batch getter _ => some (.reached (.got batch getter))
  | .endBatch batch => some (.reached (.ended batch))
  | _ => none

theorem Event.entry?_uncounted {e : Event} (h : e.deed.isCounted = false) : e.entry? = none := by
  obtain ⟨deed, s⟩ := e
  cases deed <;> first | rfl | cases h

/-- The tasks still to be done, the dispatches to be sent among them in their order, the batches, and
all entries. -/
@[ext] structure Ledger where
  tasks : Multiset Task
  sends : List Dispatch
  batches : Array Batch
  entries : List Entry

/-- The books of a world while some jobs are in hand. -/
def World.ledger (w : World) (J : List Job) : Ledger where
  tasks := w.tasks J
  sends := w.sends J
  batches := w.visual.batches
  entries := told Event.entry? w.past

/-- One turn of the books of a visual. -/
inductive Turn (v : Visual) : Ledger → Ledger → Prop where
  | still {l : Ledger} : Turn v l l
  | call {l : Ledger} {d : Dispatch} : d.setter < v.setters.size →
    Turn v l { l with
      tasks := {.send d} + l.tasks
      sends := l.sends ++ [d]
      entries := l.entries ++ [.called d] }
  | hand {l : Ledger} {d : Dispatch} {tasks : Multiset Task} {sends : List Dispatch} :
    l.tasks = {.send d} + tasks → l.sends = d :: sends →
      Turn v l { l with
        tasks := {.deliver d} + tasks
        sends
        entries := l.entries ++ [.handed d.setter d.value] }
  | conclude {l : Ledger} {d : Dispatch} {tasks : Multiset Task} : l.tasks = {.deliver d} + tasks →
    Turn v l { l with tasks, entries := l.entries ++ [.concluded d] }
  | spread {l : Ledger} {batch : Nat} {tasks : Multiset Task} : l.tasks = {.begin batch} + tasks →
    Turn v l { l with
      tasks := ↑((List.range v.getters.size).map (Task.get batch)) + tasks
      batches := l.batches.modify batch fun b => { b with outstanding := v.getters.size } }
  | got {l : Ledger} {batch getter : Nat} {tasks : Multiset Task} :
    l.tasks = {.get batch getter} + tasks →
      Turn v l { l with
        tasks := {.settle batch} + tasks
        entries := l.entries ++ [.reached (.got batch getter)] }
  | settle {l : Ledger} {batch : Nat} {tasks : Multiset Task} : l.tasks = {.settle batch} + tasks →
    Turn v l { l with
      tasks := (if (l.batches[batch]?).map (·.outstanding - 1) = some 0 then {.finish batch} else 0) +
        tasks
      batches := l.batches.modify batch fun b => { b with outstanding := b.outstanding - 1 } }
  | finish {l : Ledger} {batch : Nat} {tasks : Multiset Task} : l.tasks = {.finish batch} + tasks →
    Turn v l { l with
      tasks
      batches := l.batches.modify batch fun b => { b with isDone := true }
      entries := l.entries ++ [.reached (.ended batch)] }

variable {J J' : List Job} {a b : World}

namespace World

/-- The timers are in order, nothing that is to be sent waits for one, and every task has its getter
or setter. -/
structure Sound (w : World) (J : List Job) : Prop where
  live : w.isLive
  timed : w.Timed
  patient : w.Patient J
  served : ∀ t ∈ w.tasks J, t.isServed w.visual
  wired : ∀ e ∈ w.visual.setterOf, e.2 < w.visual.setters.size

theorem Sound.setter (h : a.Sound J) {id : Datum} {n : Nat} (hs : a.setterFor? id = some n) :
    n < a.visual.setters.size := by
  unfold Situation.setterFor? at hs
  split at hs
  · split at hs
    · obtain ⟨k, hk⟩ := Settings.Table.mem_of_get? hs
      exact h.wired _ hk
    · cases hs
  · cases hs

end World

theorem Turn.of_eq {v : Visual} {l l' l'' : Ledger} (h : Turn v l l'') (ht : l'.tasks = l''.tasks)
    (hs : l'.sends = l''.sends) (hb : l'.batches = l''.batches) (he : l'.entries = l''.entries) :
    Turn v l l' := by
  rw [Ledger.ext ht hs hb he]
  exact h

namespace World

theorem tasks_of {j : Job} {t : Task} (h : j.task? = some t) (w : World) (J : List Job) :
    w.tasks (j :: J) = {t} + w.tasks J := by
  rw [tasks_cons, Job.tasks_of h]

theorem sends_of {j : Job} (h : ∀ d, j.task? ≠ some (.send d)) (w : World) (J : List Job) :
    w.sends (j :: J) = w.sends J := by
  unfold sends sendsOf
  rw [List.filterMap_cons_none (Job.send?_none h)]

theorem sends_soon_of {j : Job} (h : ∀ d, j.task? ≠ some (.send d)) (w : World) (J : List Job) :
    ((Run.soon j).after w).sends J = w.sends J := by
  rw [sends_soon]
  unfold sendsOf
  rw [List.filterMap_cons_none (Job.send?_none h)]
  exact List.append_nil _

theorem sends_append {l : List Job} (h : ∀ j ∈ l, ∀ d, j.task? ≠ some (.send d)) (w : World)
    (J : List Job) : w.sends (l ++ J) = w.sends J := by
  induction l with
  | nil => rfl
  | cons j l ih =>
    exact (sends_of (h j (by simp)) w _).trans (ih fun i hi => h i (by simp [hi]))

/-- A job in hand has no task, if it is one that has no getter or setter. -/
theorem Sound.drop {j : Job} (h : a.Sound (j :: J)) (hd : ∀ t, j.task? = some t → ¬ t.isServed a.visual) :
    j.task? = none := by
  cases ht : j.task? with
  | none => rfl
  | some t =>
    refine absurd (h.served t ?_) (hd t ht)
    rw [tasks_of ht]
    exact Multiset.mem_add.mpr (.inl (Multiset.mem_singleton_self t))

end World

/-- Every move is a turn of the books. -/
theorem Move.turn (m : Move (J, a) (J', b)) (h : a.Sound J) :
    Turn a.visual (a.ledger J) (b.ledger J') := by
  have no : ∀ {j : Job} {t : Task}, j.task? = some t → t.send? = none →
      ∀ d, j.task? ≠ some (.send d) := fun ht hn d k => by
    rw [Option.some.inj (ht.symm.trans k)] at hn
    cases hn
  cases m with
  | idle i =>
    exact Turn.still.of_eq (World.tasks_congr i.clock.1 i.clock.2.1 J) (World.sends_congr i.clock.1 J)
      i.visual.batches (i.told fun e => Event.entry?_uncounted)
  | animate seconds anim =>
    refine Turn.still.of_eq ?_ rfl rfl rfl
    exact (World.tasks_later a (.finishAnimation a.animations.size) seconds J).trans (zero_add _)
  | change => exact .still
  | cancel ha hn => exact Turn.still.of_eq (h.timed.tasks_cancel ha hn J) rfl rfl rfl
  | @call J w id value observer setter hs =>
    refine (Turn.call (d := ⟨setter, value, observer⟩) (h.setter hs)).of_eq ?_ ?_ rfl ?_
    · exact World.tasks_soon _ (.send setter value observer) J
    · exact World.sends_soon _ (.send setter value observer) J
    · exact told_some (by simp [Event.entry?, hs]) a.past
  | @ignore J w id value observer hs =>
    exact Turn.still.of_eq rfl rfl rfl (told_none (by simp [Event.entry?, hs]) a.past)
  | fail n f e =>
    obtain ⟨log, hw⟩ := Run.failed_after n f e a
    rw [hw]
    exact Turn.still.of_eq rfl rfl rfl (told_none rfl a.past)
  | take => exact Turn.still.of_eq (World.Timed.tasks_take a) h.timed.sends_take rfl rfl
  | @soon J w j hj =>
    refine Turn.still.of_eq ?_ ?_ rfl rfl
    · exact (World.tasks_soon a j J').trans (World.tasks_cons a j J').symm
    · exact (World.sends_soon_of hj a J').trans (World.sends_of hj a J').symm
  | @later J w j seconds hj =>
    refine Turn.still.of_eq ?_ ?_ rfl rfl
    · exact (World.tasks_later a (.wake j) seconds J').trans (World.tasks_cons a j J').symm
    · exact (World.sends_of hj a J').symm
  | wake j =>
    refine Turn.still.of_eq ?_ ?_ rfl rfl
    · exact (World.tasks_soon a j J').trans (World.tasks_cons a j J').symm
    · have hj : ∀ d, j.task? ≠ some (.send d) := h.patient (.wake j) (List.mem_cons_self ..)
      exact (World.sends_soon_of hj a J').trans (World.sends_of hj a J').symm
  | @drop J w j hd =>
    have hn := h.drop hd
    refine Turn.still.of_eq ?_ ?_ rfl rfl
    · change a.tasks J' = a.tasks (j :: J')
      rw [World.tasks_cons, Job.tasks_none hn, zero_add]
    · exact (World.sends_of (fun d k => by rw [hn] at k; cases k) a J').symm
  | ask => exact Turn.still.of_eq rfl rfl rfl rfl
  | spread batch =>
    refine (Turn.spread (World.tasks_of (t := .begin batch) rfl a _)).of_eq ?_ ?_ rfl rfl
    · refine (World.tasks_append a _ _).trans (congrArg (· + a.tasks _) ?_)
      unfold tasksOf
      rw [List.filterMap_map]
      exact congrArg _ (congrFun (List.filterMap_eq_map (f := Task.get batch)) _)
    · refine (World.sends_append (fun j hj => ?_) a _).trans (World.sends_of (no rfl rfl) a _).symm
      obtain ⟨getter, -, rfl⟩ := List.mem_map.mp hj
      exact no rfl rfl
  | got batch getter value =>
    refine (Turn.got (World.tasks_of (t := .get batch getter) rfl a _)).of_eq ?_ ?_ rfl ?_
    · exact World.tasks_of rfl a _
    · exact (World.sends_of (no rfl rfl) a _).trans (World.sends_of (no rfl rfl) a _).symm
    · exact told_some (by rfl) a.past
  | missed batch getter f =>
    obtain ⟨log, hw⟩ := Run.missed_after h.live batch getter f
    rw [hw]
    refine (Turn.got (World.tasks_of (t := .get batch getter) rfl a _)).of_eq ?_ ?_ rfl ?_
    · exact World.tasks_of rfl a _
    · exact (World.sends_of (no rfl rfl) a _).trans (World.sends_of (no rfl rfl) a _).symm
    · exact told_some (by rfl) a.past
  | settle batch =>
    refine (Turn.settle (World.tasks_of (t := .settle batch) rfl a _)).of_eq ?_ ?_ rfl rfl
    · change a.tasks (if _ then _ else _) = (if _ then _ else _) + _
      by_cases hz : (a.visual.batches[batch]?).map (·.outstanding - 1) = some 0
      · rw [if_pos hz]
        exact (World.tasks_of rfl a _).trans (by rw [World.ledger, if_pos hz])
      · rw [if_neg hz]
        exact (zero_add _).symm.trans (by rw [World.ledger, if_neg hz])
    · change a.sends (if _ then _ else _) = _
      refine Eq.trans ?_ (World.sends_of (no rfl rfl) a _).symm
      split
      · exact World.sends_of (no rfl rfl) a _
      · rfl
  | finish batch =>
    refine (Turn.finish (World.tasks_of (t := .finish batch) rfl a _)).of_eq ?_ ?_ rfl ?_
    · rfl
    · exact (World.sends_of (no rfl rfl) a _).symm
    · exact told_some (by rfl) a.past
  | hand setter value observer =>
    refine (Turn.hand (d := ⟨setter, value, observer⟩) (World.tasks_of rfl a _) rfl).of_eq ?_ ?_ rfl ?_
    · exact World.tasks_of rfl a _
    · exact World.sends_of (no rfl rfl) a _
    · exact told_some (by rfl) a.past
  | conclude setter value o result =>
    obtain ⟨log, hw⟩ := Run.concludeDispatch_after h.live setter value o result
    rw [hw]
    refine (Turn.conclude (d := ⟨setter, value, o⟩) (World.tasks_of rfl a _)).of_eq ?_ ?_ ?_ ?_
    · rfl
    · exact (World.sends_of (no rfl rfl) a _).symm
    · cases result <;> rfl
    · exact told_some (by rfl) a.past

/-- A turn adds no batch. -/
theorem Turn.size {v : Visual} {l l' : Ledger} (h : Turn v l l') :
    l'.batches.size = l.batches.size := by
  cases h with
  | spread | settle | finish => exact Array.size_modify
  | _ => rfl

/-- A turn adds no task without its getter or setter. -/
theorem Turn.served {v : Visual} {l l' : Ledger} (h : Turn v l l') (hs : ∀ t ∈ l.tasks, t.isServed v) :
    ∀ t ∈ l'.tasks, t.isServed v := by
  have rest : ∀ {x T : Multiset Task}, l.tasks = x + T → ∀ t ∈ T, t.isServed v := fun ht t k =>
    hs t (by rw [ht]; exact Multiset.mem_add.mpr (.inr k))
  have swap : ∀ {x y T : Multiset Task}, l.tasks = x + T → (∀ t ∈ y, t.isServed v) →
      ∀ t ∈ y + T, t.isServed v := fun ht hy t k => (Multiset.mem_add.mp k).elim (hy t) (rest ht t)
  have one : ∀ {t : Task}, t.isServed v → ∀ u ∈ ({t} : Multiset Task), u.isServed v := fun ht u k =>
    Multiset.mem_singleton.mp k ▸ ht
  cases h with
  | still => exact hs
  | call hd => exact swap (zero_add _).symm (one hd)
  | hand ht _ => exact swap ht (one (hs (.send _) (by rw [ht]; simp)))
  | conclude ht | finish ht => exact rest ht
  | spread ht =>
    refine swap ht fun t k => ?_
    obtain ⟨getter, hg, rfl⟩ := List.mem_map.mp (Multiset.mem_coe.mp k)
    exact List.mem_range.mp hg
  | @got batch getter T ht => exact swap ht (one (t := .settle batch) trivial)
  | @settle batch T ht =>
    refine swap ht fun t k => ?_
    split at k
    · exact one (t := .finish batch) trivial t k
    · exact absurd k (Multiset.notMem_zero _)

/-- What is sound stays sound through every move. -/
theorem World.Sound.move (m : Move (J, a) (J', b)) (h : a.Sound J) : b.Sound J' where
  live := (m.staffed h.live).isDestroyed.trans h.live
  timed := h.timed.move m h.live
  patient := h.patient.move m h.live
  served t ht := by
    have hs := (m.turn h).served h.served t ht
    have k := m.staffed h.live
    cases t with
    | send d | deliver d => exact (congrArg (d.setter < ·.size) k.setters).mpr hs
    | get batch getter => exact (congrArg (getter < ·.size) k.getters).mpr hs
    | _ => trivial
  wired e he := by
    have k := m.staffed h.live
    rw [k.setters]
    exact h.wired e (k.setterOf ▸ he)

end LiveSvg
