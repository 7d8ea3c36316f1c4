import LiveSvg.Proofs.Heap
import LiveSvg.Proofs.Reports
import Mathlib.Algebra.Order.Group.Multiset
/-!
Which tasks are still to be done. The clock loses none of them, and cancels none: the timers that are
cancelled are those of animations.
-/

namespace LiveSvg

open Number (Binary64)
open Script (Datum)

/-! ### The jobs of a clock -/

namespace Clock

variable {α : Type} {c : Clock α}

/-- The jobs of timers that have not been cancelled. -/
def jobsOf (timers : Array (Timer α)) : List α := (timers.toList.filter (·.isLive)).map (·.job)

theorem jobsOf_perm {timers : Array (Timer α)} {l : List (Timer α)} (h : timers.toList.Perm l) :
    (jobsOf timers).Perm ((l.filter (·.isLive)).map (·.job)) :=
  (h.filter _).map _

/-- A new timer adds its job. -/
theorem after_jobs (c : Clock α) (seconds : Binary64) (job : α) :
    (jobsOf (c.after seconds job).1.timers).Perm (job :: jobsOf c.timers) :=
  jobsOf_perm (Heap.push_perm sooner c.timers _)

theorem mem_after {c : Clock α} {seconds : Binary64} {job : α} {t : Timer α}
    (h : t ∈ (c.after seconds job).1.timers) : (t.id = c.nextId ∧ t.job = job) ∨ t ∈ c.timers := by
  have h := (Heap.push_perm sooner c.timers _).subset (Array.mem_toList_iff.mpr h)
  rcases List.mem_cons.mp h with rfl | h
  · exact .inl ⟨rfl, rfl⟩
  · exact .inr (Array.mem_toList_iff.mp h)

theorem dropCancelled_keeps (fuel : Nat) (timers : Array (Timer α)) :
    (jobsOf (dropCancelled fuel timers)).Perm (jobsOf timers) ∧
      ∀ t ∈ dropCancelled fuel timers, t ∈ timers := by
  induction fuel generalizing timers with
  | zero => exact ⟨.refl _, fun _ h => h⟩
  | succ fuel ih =>
    rw [dropCancelled]
    split
    · rename_i t rest hp
      have hp := Heap.pop?_perm hp
      split
      · exact ⟨.refl _, fun _ h => h⟩
      · rename_i hl
        obtain ⟨hj, hm⟩ := ih rest
        constructor
        · refine hj.trans ?_
          have h := jobsOf_perm hp
          rw [List.filter_cons_of_neg hl] at h
          exact h.symm
        · intro u hu
          exact Array.mem_toList_iff.mp (hp.symm.subset (List.mem_cons_of_mem _
            (Array.mem_toList_iff.mpr (hm u hu))))
    · exact ⟨.refl _, fun _ h => h⟩

theorem takeDue_perm (c : Clock α) (fuel : Nat) (timers : Array (Timer α)) :
    timers.toList.Perm ((c.takeDue fuel timers).1 ++ (c.takeDue fuel timers).2.toList) := by
  induction fuel generalizing timers with
  | zero => exact .refl _
  | succ fuel ih =>
    rw [takeDue]
    split
    · rename_i t rest hp
      split
      · exact (Heap.pop?_perm hp).trans ((ih rest).cons t)
      · exact .refl _
    · exact .refl _

/-- A turn takes all jobs that are ready, in order, and then some of timers, which it takes away. -/
theorem turn_jobs (c : Clock α) : c.turn.2.ready = [] ∧ ∃ due, c.turn.1 = c.ready ++ due ∧
    (jobsOf c.timers).Perm (due ++ jobsOf c.turn.2.timers) ∧
      (∀ j ∈ due, ∃ t ∈ c.timers, t.job = j) ∧ ∀ t ∈ c.turn.2.timers, t ∈ c.timers := by
  obtain ⟨hd, hm⟩ := dropCancelled_keeps c.timers.size c.timers
  obtain ⟨timers, ht⟩ : ∃ timers, timers = dropCancelled c.timers.size c.timers := ⟨_, rfl⟩
  rw [← ht] at hd hm
  have hp := takeDue_perm c timers.size timers
  have hs := hp.subset
  unfold turn
  rw [← ht]
  refine ⟨rfl, _, rfl, ?_, fun j hj => ?_, fun t h => ?_⟩
  · have h := jobsOf_perm hp
    rw [List.filter_append, List.map_append] at h
    exact hd.symm.trans h
  · obtain ⟨t, h, rfl⟩ := List.mem_map.mp hj
    have h := (List.mem_filter.mp h).1
    exact ⟨t, hm t (Array.mem_toList_iff.mp (hp.symm.subset (List.mem_append_left _ h))), rfl⟩
  · exact hm t (Array.mem_toList_iff.mp (hp.symm.subset (List.mem_append_right _
      (Array.mem_toList_iff.mpr h))))

end Clock

/-! ### Tasks -/

/-- The tasks that jobs do. -/
def tasksOf (jobs : List Job) : Multiset Task := ↑(jobs.filterMap Job.task?)

def Task.send? : Task → Option Dispatch
  | .send d => some d
  | _ => none

/-- The dispatch that a job is to send. -/
def Job.send? (j : Job) : Option Dispatch := j.task?.bind Task.send?

/-- The dispatches that are to be sent by jobs, in their order. -/
def sendsOf (jobs : List Job) : List Dispatch := jobs.filterMap Job.send?

theorem Job.send?_none {j : Job} (h : ∀ d, j.task? ≠ some (.send d)) : j.send? = none := by
  unfold Job.send?
  cases ht : j.task? with
  | none => rfl
  | some t =>
    cases t with
    | send d => exact absurd ht (h d)
    | _ => rfl

/-- The task of a job, if it does one. -/
def Job.tasks (j : Job) : Multiset Task := tasksOf [j]

theorem tasksOf_append (l l' : List Job) : tasksOf (l ++ l') = tasksOf l + tasksOf l' := by
  unfold tasksOf
  rw [List.filterMap_append, Multiset.coe_add]

theorem tasksOf_cons (j : Job) (l : List Job) : tasksOf (j :: l) = j.tasks + tasksOf l :=
  tasksOf_append [j] l

theorem tasksOf_perm {l l' : List Job} (h : l.Perm l') : tasksOf l = tasksOf l' :=
  Multiset.coe_eq_coe.mpr (h.filterMap _)

theorem Job.tasks_of {j : Job} {t : Task} (h : j.task? = some t) : j.tasks = {t} := by
  unfold Job.tasks tasksOf
  rw [List.filterMap_cons_some h]
  rfl

theorem Job.tasks_none {j : Job} (h : j.task? = none) : j.tasks = 0 := by
  unfold Job.tasks tasksOf
  rw [List.filterMap_cons_none h]
  rfl

theorem Job.tasks_congr {j j' : Job} (h : j'.task? = j.task?) : j'.tasks = j.tasks := by
  cases ht : j.task? with
  | none => rw [Job.tasks_none ht, Job.tasks_none (h.trans ht)]
  | some t => rw [Job.tasks_of ht, Job.tasks_of (h.trans ht)]

namespace World

variable {J : List Job} {w : World}

/-- The tasks still to be done while some jobs are in hand. -/
def tasks (w : World) (J : List Job) : Multiset Task :=
  tasksOf J + (tasksOf w.clock.ready + tasksOf (Clock.jobsOf w.clock.timers))

/-- The dispatches still to be sent while some jobs are in hand, in their order. -/
def sends (w : World) (J : List Job) : List Dispatch := sendsOf J ++ sendsOf w.clock.ready

theorem tasks_cons (w : World) (j : Job) (J : List Job) : w.tasks (j :: J) = j.tasks + w.tasks J := by
  unfold tasks
  rw [tasksOf_cons, add_assoc]

theorem tasks_append (w : World) (J J' : List Job) : w.tasks (J ++ J') = tasksOf J + w.tasks J' := by
  unfold tasks
  rw [tasksOf_append, add_assoc]

theorem tasks_congr {a b : World} (hr : b.clock.ready = a.clock.ready)
    (ht : b.clock.timers = a.clock.timers) (J : List Job) : b.tasks J = a.tasks J := by
  unfold tasks
  rw [hr, ht]

theorem sends_congr {a b : World} (hr : b.clock.ready = a.clock.ready) (J : List Job) :
    b.sends J = a.sends J := by
  unfold sends
  rw [hr]

theorem tasks_soon (w : World) (j : Job) (J : List Job) :
    ((Run.soon j).after w).tasks J = j.tasks + w.tasks J := by
  change tasksOf J + (tasksOf (w.clock.ready ++ [j]) + _) = _
  rw [tasksOf_append]
  unfold tasks Job.tasks
  rw [add_assoc, add_left_comm (tasksOf w.clock.ready), add_left_comm]
  rfl

theorem sends_soon (w : World) (j : Job) (J : List Job) :
    ((Run.soon j).after w).sends J = w.sends J ++ sendsOf [j] := by
  change sendsOf J ++ sendsOf (w.clock.ready ++ [j]) = _
  unfold sends sendsOf
  rw [List.filterMap_append, List.append_assoc]

theorem tasks_later (w : World) (j : Job) (seconds : Binary64) (J : List Job) :
    World.tasks { w with clock := (w.clock.after seconds j).1 } J = j.tasks + w.tasks J := by
  change tasksOf J + (tasksOf w.clock.ready + tasksOf (Clock.jobsOf (w.clock.after seconds j).1.timers)) = _
  rw [tasksOf_perm (Clock.after_jobs w.clock seconds j), tasksOf_cons]
  unfold tasks
  rw [add_left_comm (tasksOf w.clock.ready), add_left_comm]

/-- The timers of animations are their own, those of tasks are none of them, and no dispatch that is
still to be sent waits for one. -/
structure Timed (w : World) : Prop where
  ids : ∀ t ∈ w.clock.timers, t.id < w.clock.nextId
  known : ∀ a ∈ w.animations, ∀ n, a.timer = some n → n < w.clock.nextId
  owned : ∀ a ∈ w.animations, ∀ t ∈ w.clock.timers, a.timer = some t.id → t.job.task? = none
  unsent : ∀ t ∈ w.clock.timers, ∀ d, t.job.task? ≠ some (.send d)

namespace Timed

/-- Cancelling the timer of an animation cancels no task. -/
theorem tasks_cancel (h : w.Timed) {a : Animation} {n : Nat} (ha : a ∈ w.animations)
    (hn : a.timer = some n) (J : List Job) :
    World.tasks { w with clock := w.clock.cancel n } J = w.tasks J := by
  have ho : ∀ t ∈ w.clock.timers.toList, t.id = n → t.job.task? = none := fun t ht hi =>
    h.owned a ha t (Array.mem_toList_iff.mp ht) (by rw [hi]; exact hn)
  have hc : tasksOf (Clock.jobsOf (w.clock.cancel n).timers) = tasksOf (Clock.jobsOf w.clock.timers) := by
    unfold Clock.jobsOf Clock.cancel
    rw [Array.toList_map]
    generalize w.clock.timers.toList = l at ho
    induction l with
    | nil => rfl
    | cons t l ih =>
      have ih := ih fun u hu => ho u (List.mem_cons_of_mem _ hu)
      by_cases hi : t.id = n
      · have hj := Job.tasks_none (ho t (by simp) hi)
        cases hl : t.isLive <;> simp [hi, hl, tasksOf_cons, hj] <;> exact ih
      · cases hl : t.isLive <;> simp [hi, hl, tasksOf_cons] <;> exact ih
  unfold tasks
  rw [hc]
  rfl

/-- What a turn takes into hand is what the clock then lacks. -/
theorem tasks_take (w : World) :
    World.tasks { w with clock := w.clock.turn.2 } w.clock.turn.1 = w.tasks [] := by
  obtain ⟨hr, due, hj, hp, -⟩ := w.clock.turn_jobs
  unfold tasks
  change tasksOf w.clock.turn.1 + (tasksOf w.clock.turn.2.ready + tasksOf (Clock.jobsOf w.clock.turn.2.timers)) = _
  rw [hr, hj, tasksOf_append, tasksOf_perm hp, tasksOf_append]
  change _ + (0 + _) = 0 + _
  rw [zero_add, zero_add, add_assoc]

theorem sends_take (h : w.Timed) :
    World.sends { w with clock := w.clock.turn.2 } w.clock.turn.1 = w.sends [] := by
  obtain ⟨hr, due, hj, -, hd, -⟩ := w.clock.turn_jobs
  have hn : sendsOf due = [] := by
    refine List.filterMap_eq_nil_iff.mpr fun j hj => ?_
    obtain ⟨t, ht, rfl⟩ := hd j hj
    exact Job.send?_none (h.unsent t ht)
  unfold sends
  rw [hr, hj]
  unfold sendsOf at hn ⊢
  rw [List.filterMap_append, hn]
  simp

variable {J J' : List Job} {a b : World}

/-- Fewer timers, and timers of animations that were known before. -/
theorem fewer (h : a.Timed) (ht : ∀ t ∈ b.clock.timers, ∃ u ∈ a.clock.timers, t.id = u.id ∧ t.job = u.job)
    (hn : b.clock.nextId = a.clock.nextId)
    (hl : ∀ x ∈ b.animations, x.timer = none ∨ ∃ y ∈ a.animations, y.timer = x.timer) : b.Timed where
  ids t hm := by
    obtain ⟨u, hu, hi, -⟩ := ht t hm
    rw [hi, hn]
    exact h.ids u hu
  known x hx n hk := by
    rcases hl x hx with h0 | ⟨y, hy, he⟩
    · cases h0.symm.trans hk
    · rw [hn]
      exact h.known y hy n (he.trans hk)
  owned x hx t hm hk := by
    obtain ⟨u, hu, hi, hj⟩ := ht t hm
    rcases hl x hx with h0 | ⟨y, hy, he⟩
    · cases h0.symm.trans hk
    · rw [hj]
      exact h.owned y hy u hu (by rw [he, hk, hi])
  unsent t hm d := by
    obtain ⟨u, hu, -, hj⟩ := ht t hm
    rw [hj]
    exact h.unsent u hu d

theorem congr (h : a.Timed) (hc : b.clock.timers = a.clock.timers)
    (hn : b.clock.nextId = a.clock.nextId) (hl : b.animations = a.animations) : b.Timed :=
  h.fewer (fun t ht => ⟨t, hc ▸ ht, rfl, rfl⟩) hn fun x hx => .inr ⟨x, hl ▸ hx, rfl⟩

/-- One more timer, for a job that is not to send anything; if it is for a task, it is none of an animation. -/
theorem after (h : a.Timed) {seconds : Binary64} {j : Job} (hj : ∀ d, j.task? ≠ some (.send d))
    (hc : b.clock = (a.clock.after seconds j).1)
    (hl : ∀ x ∈ b.animations, x ∈ a.animations ∨ (j.task? = none ∧ x.timer = some a.clock.nextId)) :
    b.Timed where
  ids t hm := by
    rw [hc] at hm ⊢
    rcases Clock.mem_after hm with ⟨hi, -⟩ | hm
    · exact hi ▸ Nat.lt_succ_self _
    · exact Nat.lt_succ_of_lt (h.ids t hm)
  known x hx n hk := by
    rw [hc]
    rcases hl x hx with hx | ⟨-, hi⟩
    · exact Nat.lt_succ_of_lt (h.known x hx n hk)
    · rw [← Option.some.inj (hi.symm.trans hk)]
      exact Nat.lt_succ_self _
  owned x hx t hm hk := by
    rw [hc] at hm
    rcases Clock.mem_after hm with ⟨hi, ht⟩ | hm <;> rcases hl x hx with hx | ⟨h0, hi'⟩
    · rw [hi] at hk
      exact absurd (h.known x hx _ hk) (Nat.lt_irrefl _)
    · rw [ht, h0]
    · exact h.owned x hx t hm hk
    · have hid : t.id = a.clock.nextId := Option.some.inj (hk.symm.trans hi')
      exact absurd (h.ids t hm) (by rw [hid]; exact Nat.lt_irrefl _)
  unsent t hm d := by
    rw [hc] at hm
    rcases Clock.mem_after hm with ⟨-, ht⟩ | hm
    · rw [ht]
      exact hj d
    · exact h.unsent t hm d

/-- Timers stay what they are for through every move. -/
theorem move (m : Move (J, a) (J', b)) (live : a.isLive) (h : a.Timed) : b.Timed := by
  cases m with
  | idle i => exact h.congr i.clock.2.1 i.clock.2.2 i.animations
  | animate seconds x =>
    refine h.after (fun d => by simp [Job.task?]) rfl fun y hy => ?_
    rcases Array.mem_push.mp hy with hy | rfl
    · exact .inl hy
    · exact .inr ⟨rfl, rfl⟩
  | change hl => exact h.fewer (fun t ht => ⟨t, ht, rfl, rfl⟩) rfl hl
  | cancel ha ht =>
    refine h.fewer (fun t hm => ?_) rfl fun x hx => .inr ⟨x, hx, rfl⟩
    obtain ⟨u, hu, rfl⟩ := Array.mem_map.mp hm
    refine ⟨u, hu, ?_⟩
    split <;> exact ⟨rfl, rfl⟩
  | take =>
    obtain ⟨-, due, -, -, -, hm⟩ := a.clock.turn_jobs
    exact h.fewer (fun t ht => ⟨t, hm t ht, rfl, rfl⟩) rfl fun x hx => .inr ⟨x, hx, rfl⟩
  | @later J w j seconds hj => exact h.after (j := j.wake) hj rfl fun x hx => .inl hx
  | fail n f e =>
    obtain ⟨log, hw⟩ := Run.failed_after n f e a
    rw [hw]
    exact h.congr rfl rfl rfl
  | missed batch getter f =>
    obtain ⟨log, hw⟩ := Run.missed_after live batch getter f
    rw [hw]
    exact h.congr rfl rfl rfl
  | conclude setter value o result =>
    obtain ⟨log, hw⟩ := Run.concludeDispatch_after live setter value o result
    rw [hw]
    exact h.congr rfl rfl rfl
  | call | ignore | soon | wake | drop | spread | ask | got | settle | finish | hand =>
    exact h.congr rfl rfl rfl

end Timed

/-! ### Waking -/

/-- The jobs that are in hand, ready, or waiting for their time. -/
def jobs (w : World) (J : List Job) : List Job :=
  J ++ (w.clock.ready ++ w.clock.timers.toList.map (·.job))

theorem mem_jobs {J : List Job} {j : Job} :
    j ∈ w.jobs J ↔ j ∈ J ∨ j ∈ w.clock.ready ∨ ∃ t ∈ w.clock.timers, t.job = j := by
  simp [jobs]

end World

/-- A job that wakes another one sends nothing. -/
def Job.isPatient : Job → Prop
  | .wake j => ∀ d, j.task? ≠ some (.send d)
  | _ => True

theorem Job.isPatient_of {j : Job} (h : ∀ d, j.task? ≠ some (.send d)) : j.isPatient := by
  cases j with
  | wake j => exact h
  | _ => trivial

namespace World

/-- Nothing that is to be sent waits for its time. -/
def Patient (w : World) (J : List Job) : Prop := ∀ j ∈ w.jobs J, j.isPatient

namespace Patient

variable {J J' : List Job} {a b : World} {i : Job}

theorem fewer (h : a.Patient J) (hj : ∀ j ∈ b.jobs J', j ∈ a.jobs J) : b.Patient J' :=
  fun j k => h j (hj j k)

theorem congr (h : a.Patient J) (hr : b.clock.ready = a.clock.ready)
    (ht : b.clock.timers = a.clock.timers) : b.Patient J :=
  h.fewer fun j hj => by rwa [mem_jobs, hr, ht, ← mem_jobs] at hj

theorem cons (h : a.Patient J) (hi : i.isPatient) : a.Patient (i :: J) := by
  intro j hj
  rcases List.mem_cons.mp hj with rfl | hj
  · exact hi
  · exact h j hj

theorem tail (h : a.Patient (i :: J)) : a.Patient J := h.fewer fun _ hj => List.mem_cons_of_mem _ hj

theorem soon (h : a.Patient J) (hi : i.isPatient) (hr : b.clock.ready = a.clock.ready ++ [i])
    (ht : b.clock.timers = a.clock.timers) : b.Patient J := by
  intro j hj
  rw [mem_jobs, hr, ht, List.mem_append, List.mem_singleton] at hj
  rcases hj with hj | (hj | rfl) | hj
  · exact h j (mem_jobs.mpr (.inl hj))
  · exact h j (mem_jobs.mpr (.inr (.inl hj)))
  · exact hi
  · exact h j (mem_jobs.mpr (.inr (.inr hj)))

theorem after (h : a.Patient J) (hi : i.isPatient) {seconds : Binary64}
    (hc : b.clock = (a.clock.after seconds i).1) : b.Patient J := by
  intro j hj
  rw [mem_jobs, hc] at hj
  rcases hj with hj | hj | ⟨t, ht, rfl⟩
  · exact h j (mem_jobs.mpr (.inl hj))
  · exact h j (mem_jobs.mpr (.inr (.inl hj)))
  · rcases Clock.mem_after ht with ⟨-, hj⟩ | ht
    · rw [hj]
      exact hi
    · exact h _ (mem_jobs.mpr (.inr (.inr ⟨t, ht, rfl⟩)))

theorem move (m : Move (J, a) (J', b)) (live : a.isLive) (h : a.Patient J) : b.Patient J' := by
  cases m with
  | idle i => exact h.congr i.clock.1 i.clock.2.1
  | animate => exact h.after (i := .finishAnimation a.animations.size) trivial rfl
  | cancel =>
    refine h.fewer fun j hj => mem_jobs.mpr ?_
    rcases mem_jobs.mp hj with hj | hj | ⟨t, ht, rfl⟩
    · exact .inl hj
    · exact .inr (.inl hj)
    · obtain ⟨u, hu, rfl⟩ := Array.mem_map.mp ht
      refine .inr (.inr ⟨u, hu, ?_⟩)
      split <;> rfl
  | take =>
    obtain ⟨hr, due, hj, -, hd, hm⟩ := a.clock.turn_jobs
    refine h.fewer fun j hk => mem_jobs.mpr ?_
    rw [mem_jobs, hr, hj, List.mem_append] at hk
    rcases hk with (hk | hk) | hk | ⟨t, ht, rfl⟩
    · exact .inr (.inl hk)
    · exact .inr (.inr (hd j hk))
    · cases hk
    · exact .inr (.inr ⟨t, hm t ht, rfl⟩)
  | spread batch =>
    intro j hj
    rcases mem_jobs.mp hj with hj | hj
    · rcases List.mem_append.mp hj with hj | hj
      · obtain ⟨getter, -, rfl⟩ := List.mem_map.mp hj
        trivial
      · exact h.tail j (mem_jobs.mpr (.inl hj))
    · exact h.tail j (mem_jobs.mpr (.inr hj))
  | settle batch =>
    split
    · exact h.tail.cons trivial
    · exact h.tail
  | @call J w id value observer setter => exact h.soon (i := .send setter value observer) trivial rfl rfl
  | soon hj => exact h.tail.soon (Job.isPatient_of hj) rfl rfl
  | @later J w j seconds hj => exact h.tail.after (i := .wake j) hj rfl
  | wake j => exact h.tail.soon (Job.isPatient_of (h _ (List.mem_cons_self ..))) rfl rfl
  | ask | got | hand => exact h.tail.cons trivial
  | drop | finish => exact h.tail
  | fail n f e =>
    obtain ⟨log, hw⟩ := Run.failed_after n f e a
    rw [hw]
    exact h
  | missed batch getter f =>
    obtain ⟨log, hw⟩ := Run.missed_after live batch getter f
    rw [hw]
    exact h.tail.cons trivial
  | conclude setter value o result =>
    obtain ⟨log, hw⟩ := Run.concludeDispatch_after live setter value o result
    rw [hw]
    exact h.tail
  | change | ignore => exact h

end Patient

end World

end LiveSvg
