import LiveSvg.Proofs.Due
import LiveSvg.Proofs.Punctual
/-!
How animations and the clock stand while a visual is used: every animation that has not ended holds back what it has
been asked for, and has a timer of its own that is to end it at the time for which it was started.
-/

namespace LiveSvg

open Number (Binary64)
open Script (Datum)

variable {a b w : World} {n m : Nat} {past : List Event} {e : Event}

/-! ### Clocks -/

/-- A clock whose jobs and timers are for tasks, or for ending animations at the times for which they were
started. -/
structure Clock.Sound (c : Clock Job) (past : List Event) : Prop where
  sorted : Clock.Sorted c.timers
  ids : ∀ t ∈ c.timers, t.id < c.nextId
  ready : ∀ j ∈ c.ready, j.isTask = true
  timers : ∀ t ∈ c.timers, t.job.isTask = true ∨ ∃ n, t.job = .finishAnimation n ∧ StartedFor n t.due past

namespace Clock.Sound

variable {c : Clock Job}

theorem cons (h : c.Sound past) (e : Event) : c.Sound (e :: past) where
  sorted := h.sorted
  ids := h.ids
  ready := h.ready
  timers t ht := (h.timers t ht).imp_right fun ⟨n, hj, hs⟩ => ⟨n, hj, startedFor_cons.mpr (.inr hs)⟩

theorem soon (h : c.Sound past) {j : Job} (hj : j.isTask = true) : (c.soon j).Sound past where
  sorted := h.sorted
  ids := h.ids
  ready i hi := by
    rcases List.mem_append.mp hi with hi | hi
    · exact h.ready i hi
    · rwa [List.mem_singleton.mp hi]
  timers := h.timers

theorem mem_after_iff {seconds : Binary64} {j : Job} {t : Timer Job} : t ∈ (c.after seconds j).1.timers ↔
    t = ⟨c.now.add seconds, c.nextId, j, true⟩ ∨ t ∈ c.timers := by
  have hp := Heap.push_perm sooner c.timers ⟨c.now.add seconds, c.nextId, j, true⟩
  rw [← Array.mem_toList_iff, ← Array.mem_toList_iff, ← List.mem_cons]
  exact hp.mem_iff

theorem after (h : c.Sound past) {seconds : Binary64} (hd : (c.now.add seconds).isNaN = false) {j : Job}
    (hj : j.isTask = true ∨ ∃ n, j = .finishAnimation n ∧ StartedFor n (c.now.add seconds) past) :
    (c.after seconds j).1.Sound past := by
  refine ⟨h.sorted.after hd j, fun t ht => ?_, h.ready, fun t ht => ?_⟩
  · rcases mem_after_iff.mp ht with rfl | ht
    · exact Nat.lt_succ_self _
    · exact Nat.lt_succ_of_lt (h.ids t ht)
  · rcases mem_after_iff.mp ht with rfl | ht
    · exact hj
    · exact h.timers t ht

theorem cancel (h : c.Sound past) (id : Nat) : (c.cancel id).Sound past := by
  have hmem : ∀ t ∈ (c.cancel id).timers, ∃ u ∈ c.timers, t.id = u.id ∧ t.due = u.due ∧ t.job = u.job := by
    intro t ht
    obtain ⟨u, hu, rfl⟩ := Array.mem_map.mp ht
    refine ⟨u, hu, ?_⟩
    split <;> exact ⟨rfl, rfl, rfl⟩
  refine ⟨h.sorted.cancel id, fun t ht => ?_, h.ready, fun t ht => ?_⟩
  · obtain ⟨u, hu, hi, -⟩ := hmem t ht
    rw [hi]
    exact h.ids u hu
  · obtain ⟨u, hu, -, hd, hj⟩ := hmem t ht
    rw [hd, hj]
    exact h.timers u hu

/-- Other timers are left alone when one is cancelled. -/
theorem mem_cancel {id : Nat} {t : Timer Job} (ht : t ∈ c.timers) (hi : t.id ≠ id) : t ∈ (c.cancel id).timers :=
  Array.mem_map.mpr ⟨t, ht, if_neg hi⟩

theorem turn (h : c.Sound past) : c.turn.2.Sound past where
  sorted := h.sorted.turn.sorted
  ids t ht := h.ids t (h.sorted.turn.left t ht)
  ready _ hj := absurd hj List.not_mem_nil
  timers t ht := h.timers t (h.sorted.turn.left t ht)

end Clock.Sound

/-! ### Animations -/

/-- An animation holds back what it has been asked for, and a timer is to end it. -/
structure Animation.Ticking (x : Animation) (n : Nat) (hand : List Job) (c : Clock Job) (past : List Event) : Prop where
  changes : x.changes = collect (Deed.asked? n) past
  timer : ∃ t : Timer Job, x.timer = some t.id ∧ t.isLive = true ∧ t.job = .finishAnimation n ∧
    StartedFor n t.due past ∧ (t ∈ c.timers ∨ t.job ∈ hand)

/-- An animation stands as it should after a past. -/
structure Animation.Timely (x : Animation) (n : Nat) (p : Pending) (c : Clock Job) (past : List Event) : Prop where
  started : ∃ due, ∀ d, StartedFor n d past ↔ d = due
  finished : x.isFinished = true ↔ Ceased n past
  settled : x.isSettled ∨ x.isFinished = true ∧ p.busy n
  known : ∀ i, x.timer = some i → i < c.nextId
  ticking : x.isFinished = false → x.Ticking n p.hand c past

/-- An animation that neither comes to be nor ends stands as it did, with what it is asked for added to what it
holds back. -/
theorem Animation.Timely.step {x y : Animation} {p q : Pending} {c d : Clock Job} (h : x.Timely n p c past)
    (hc : e.deed ≠ .cease n) (hs : ∀ id due, e.deed ≠ .animate n id due) (hf : y.isFinished = x.isFinished)
    (hr : y.isRunning = x.isRunning) (hi : y.timer = x.timer)
    (hch : x.isFinished = false → y.changes = x.changes ++ (e.deed.asked? n).toList) (hbusy : p.busy n → q.busy n)
    (hhand : q.hand = p.hand) (hnext : c.nextId ≤ d.nextId)
    (htimers : ∀ t ∈ c.timers, x.timer = some t.id → t ∈ d.timers) : y.Timely n q d (e :: past) := by
  have hceased : Ceased n (e :: past) ↔ Ceased n past := ceased_cons.trans (or_iff_right hc)
  have hstarted : ∀ due, StartedFor n due (e :: past) ↔ StartedFor n due past := fun due =>
    startedFor_cons.trans (or_iff_right fun ⟨id, hd⟩ => hs id _ hd)
  refine ⟨?_, ?_, ?_, fun i hti => (h.known i (hi ▸ hti)).trans_le hnext, fun hyf => ?_⟩
  · simp only [hstarted]
    exact h.started
  · rw [hf, hceased]
    exact h.finished
  · unfold Animation.isSettled
    rw [hf, hr]
    exact h.settled.imp_right fun hb => ⟨hb.1, hbusy hb.2⟩
  · rw [hf] at hyf
    obtain ⟨hchanges, t, htimer, hlive, hjob, hstart, hmem⟩ := h.ticking hyf
    refine ⟨?_, t, hi.trans htimer, hlive, hjob, (hstarted t.due).mpr hstart, ?_⟩
    · rw [hch hyf, collect_cons, hchanges]
    · rw [hhand]
      exact hmem.imp_left fun ht => htimers t ht htimer

/-- The animation that comes to be, is asked for a change, or ends with a deed. -/
def Deed.subject? : Deed → Option Nat
  | .animate n _ _ | .queue n _ | .cease n => some n
  | _ => none

/-- An animation that has just been started stands as it should, if nothing was told of it before. -/
theorem Animation.Timely.start (hfresh : ∀ q ∈ past, q.deed.subject? ≠ some n) {id : Nat} {duration delay : Datum}
    {t : Timer Job} {p : Pending} {c : Clock Job} (hd : e.deed = .animate n id (some t.due)) (hlive : t.isLive = true)
    (hjob : t.job = .finishAnimation n) (hid : t.id < c.nextId) (ht : t ∈ c.timers) :
    Animation.Timely { element := id, duration, delay, timer := some t.id } n p c (e :: past) := by
  have hceased : ¬ Ceased n (e :: past) := by
    rw [ceased_cons, hd]
    rintro (hc | ⟨q, hq, hc⟩)
    · cases hc
    · exact hfresh q hq (by rw [hc]; rfl)
  have hstarted : ∀ d, StartedFor n d (e :: past) ↔ d = t.due := by
    intro d
    rw [startedFor_cons, hd]
    constructor
    · rintro (⟨id', hs⟩ | ⟨q, hq, id', hs⟩)
      · cases hs
        rfl
      · exact absurd (by rw [hs]; rfl) (hfresh q hq)
    · rintro rfl
      exact .inl ⟨id, rfl⟩
  have hasked : collect (Deed.asked? n) (e :: past) = [] := by
    refine collect_eq_nil fun q hq => ?_
    rcases List.mem_cons.mp hq with rfl | hq
    · rw [hd]
      rfl
    · have hs := hfresh q hq
      generalize q.deed = d at hs
      cases d with
      | queue m c => exact if_neg fun hm => hs (congrArg some hm)
      | _ => rfl
  refine ⟨⟨t.due, hstarted⟩, iff_of_false Bool.false_ne_true hceased, .inl rfl, fun i hi => ?_, fun _ =>
    ⟨hasked.symm, t, rfl, hlive, hjob, (hstarted t.due).mpr rfl, .inl ht⟩⟩
  cases hi
  exact hid

/-! ### Worlds -/

/-- Animations and the clock stand as they should, and all has been in time. -/
structure World.Timely (p : Pending) (w : World) : Prop where
  hasLoop : w.hasLoop = true
  books : p.Books w.past
  clock : w.clock.Sound w.past
  hand : ∀ j ∈ p.hand, j.isTask = true ∨ ∃ n due, j = .finishAnimation n ∧ StartedFor n due w.past ∧
    w.clock.reaches due = true
  known : ∀ e ∈ w.past, ∀ n, e.deed.subject? = some n → n < w.animations.size
  animations : ∀ (n : Nat) (x : Animation), w.animations[n]? = some x → x.Timely n p w.clock w.past
  distinct : ∀ (m n : Nat) (x y : Animation) (i : Nat), w.animations[m]? = some x → w.animations[n]? = some y →
    x.timer = some i → y.timer = some i → m = n

namespace World.Timely

variable {p q : Pending} {x : Animation}

theorem stands (h : w.Timely p) {s : Situation} (hs : s.animations = w.animations) : s.Stands p :=
  fun n x hx => (h.animations n x (hs ▸ hx)).settled

theorem ceased_iff (h : w.Timely p) (hx : w.animations[n]? = some x) : Ceased n w.past ↔ x.isFinished = true :=
  (h.animations n x hx).finished.symm

theorem not_ceased (h : w.Timely p) (hx : w.animations[n]? = some x) (hf : x.isFinished = false) : ¬ Ceased n w.past := by
  rw [h.ceased_iff hx, hf]
  exact Bool.false_ne_true

/-- Only what is told of animations, the clock and the past matters. -/
theorem congr (h : a.Timely p) (hl : b.hasLoop = a.hasLoop) (hc : b.clock = a.clock) (hp : b.past = a.past)
    (hn : b.animations = a.animations) : b.Timely p where
  hasLoop := hl ▸ h.hasLoop
  books := hp ▸ h.books
  clock := by
    rw [hc, hp]
    exact h.clock
  hand := by
    rw [hc, hp]
    exact h.hand
  known := by
    rw [hp, hn]
    exact h.known
  animations := by
    rw [hc, hp, hn]
    exact h.animations
  distinct := by
    rw [hn]
    exact h.distinct

/-- What holds after an event, if animations stand as they should then. -/
theorem event (h : w.Timely p) {clock : Clock Job} {animations : Array Animation} (hbooks : q.Books (e :: w.past))
    (hclock : clock.Sound (e :: w.past)) (hnow : clock.now = w.clock.now) (hhand : q.hand = p.hand)
    (hknown : ∀ n, e.deed.subject? = some n → n < animations.size) (hsize : w.animations.size ≤ animations.size)
    (hn : ∀ (n : Nat) (y : Animation), animations[n]? = some y → y.Timely n q clock (e :: w.past))
    (hd : ∀ (m n : Nat) (y z : Animation) (i : Nat), animations[m]? = some y → animations[n]? = some z →
      y.timer = some i → z.timer = some i → m = n) :
    World.Timely q { w with past := e :: w.past, clock, animations } where
  hasLoop := h.hasLoop
  books := hbooks
  clock := hclock
  hand j hj := by
    rw [hhand] at hj
    refine (h.hand j hj).imp_right fun ⟨n, due, hj, hs, hr⟩ => ⟨n, due, hj, startedFor_cons.mpr (.inr hs), ?_⟩
    change clock.reaches due = true
    unfold Clock.reaches at hr ⊢
    rwa [hnow]
  known q hq n hs := by
    rcases List.mem_cons.mp hq with rfl | hq
    · exact hknown n hs
    · exact (h.known q hq n hs).trans_le hsize
  animations := hn
  distinct := hd

/-- What holds after an event by which no animation comes to be or ends. -/
theorem record (h : w.Timely p) {animations : Array Animation} (hbooks : q.Books (e :: w.past))
    (hbusy : q.busy = p.busy) (hhand : q.hand = p.hand) (hsize : animations.size = w.animations.size)
    (hn : ∀ (m : Nat) (y : Animation), animations[m]? = some y → ∃ x : Animation, w.animations[m]? = some x ∧
      y.isFinished = x.isFinished ∧ y.isRunning = x.isRunning ∧ y.timer = x.timer ∧
      (x.isFinished = false → y.changes = x.changes ++ (e.deed.asked? m).toList))
    (hc : ∀ n, e.deed ≠ .cease n) (hs : ∀ n id due, e.deed ≠ .animate n id due)
    (hk : ∀ n, e.deed.subject? = some n → n < w.animations.size) :
    World.Timely q { w with past := e :: w.past, animations } := by
  refine h.event hbooks (h.clock.cons e) rfl hhand (hsize ▸ hk) (hsize ▸ le_rfl) (fun m y hy => ?_)
    fun m n y z i hy hz => ?_
  · obtain ⟨x, hx, hf, hr, hi, hch⟩ := hn m y hy
    exact (h.animations m x hx).step (hc m) (hs m) hf hr hi hch (fun hb => hbusy ▸ hb) hhand le_rfl fun _ ht _ => ht
  · obtain ⟨x, hx, -, -, hxi, -⟩ := hn m y hy
    obtain ⟨x', hx', -, -, hxi', -⟩ := hn n z hz
    rw [hxi, hxi']
    exact h.distinct m n x x' i hx hx'

/-- What holds after an event that leaves animations alone. -/
theorem remember (h : w.Timely p) (hbooks : q.Books (e :: w.past)) (hbusy : q.busy = p.busy) (hhand : q.hand = p.hand)
    (hs : e.deed.subject? = none) : World.Timely q { w with past := e :: w.past } := by
  have hdeed : (∀ m, e.deed.asked? m = none) ∧ (∀ n, e.deed ≠ .cease n) ∧ ∀ n id due, e.deed ≠ .animate n id due := by
    generalize e.deed = d at hs
    cases d <;> first
      | exact absurd hs (Option.some_ne_none _)
      | exact ⟨fun _ => rfl, fun _ => Deed.noConfusion, fun _ _ _ => Deed.noConfusion⟩
  obtain ⟨hasked, hc, ha⟩ := hdeed
  refine h.record hbooks hbusy hhand rfl (fun m y hy => ⟨y, hy, rfl, rfl, rfl, fun _ => ?_⟩) hc ha fun n hd => ?_
  · rw [hasked]
    exact (List.append_nil _).symm
  · rw [hs] at hd
    cases hd

/-- What has nothing to do with animations leaves everything as it is. -/
theorem idle (h : w.Timely p) (hp : p.Clear) (hd : e.deed.isIdle = true)
    (hb : e.before.animations = w.animations) : World.Timely p { w with past := e :: w.past } := by
  obtain ⟨htacit, hordinary, hasks⟩ := Deed.tacit_of_isIdle hd
  have hdeed : (∀ n, e.deed ≠ .cease n) ∧ e.deed.subject? = none := by
    generalize e.deed = d at hd
    cases d <;> first | exact ⟨fun _ => Deed.noConfusion, rfl⟩ | cases hd
  exact h.remember (h.books.tacit (h.books.inTime hp (h.stands hb) hordinary) htacit hdeed.1 hasks) rfl rfl hdeed.2

theorem idles (hp : p.Clear) {new : List Event} (h : w.Timely p)
    (hn : ∀ e ∈ new, e.deed.isIdle = true ∧ e.before.animations = w.animations) :
    World.Timely p { w with past := new ++ w.past } := by
  induction new with
  | nil => exact h
  | cons e new ih =>
    obtain ⟨hd, hb⟩ := hn e (List.mem_cons_self ..)
    exact (ih fun e he => hn e (List.mem_cons_of_mem _ he)).idle hp hd hb

/-! ### Applying changes -/

/-- An animation that has ended applies the change that it owes next. -/
theorem applies {c : Change} {l : List Effect} (h : a.Timely { p with owed := owing n (.change c :: l) })
    (hn : Ceased n a.past) (hx : a.animations[n]? = some x) (k : Applies n x.element c a b) :
    b.Timely { p with owed := owing n l } := by
  obtain ⟨draws, s, hb, hrun, hs, hd⟩ := k.past
  have hstands : ∀ {s : Situation}, s.animations = a.animations → s.Stands p := fun hs => h.stands hs
  have hdraws : ∀ new : List Event, (∀ e ∈ new, (∃ d, e.deed = .draw d) ∧ e.before.animations = a.animations) →
      World.Timely { p with owed := owing n (.change c :: l) }
        { a with past := new ++ ⟨.effect n (.change c), a.toSituation⟩ :: a.past } ∧
      ∀ q r, new ++ ⟨.effect n (.change c), a.toSituation⟩ :: a.past = q :: r → q.deed.asks? = none := by
    intro new hnew
    induction new with
    | nil =>
      refine ⟨h.remember (h.books.begin hn (hstands rfl)) rfl rfl rfl, fun q r hq => ?_⟩
      cases hq
      rfl
    | cons e new ih =>
      obtain ⟨hold, hask⟩ := ih fun e he => hnew e (List.mem_cons_of_mem _ he)
      obtain ⟨⟨d, hdeed⟩, hbefore⟩ := hnew e (List.mem_cons_self ..)
      have ht : e.InTime _ := .applying (by rw [hdeed]; rfl) (hold.stands hbefore)
        (fun m f hd => by rw [hdeed] at hd; cases hd)
        (fun q r m f hq ha => by rw [hask q r hq] at ha; cases ha) fun m c hd => by rw [hdeed] at hd; cases hd
      refine ⟨hold.remember (hold.books.tacit ht ?_ ?_ ?_) rfl rfl ?_, fun q r hq => ?_⟩
      · rw [hdeed]
        exact fun m => ⟨rfl, rfl, rfl, rfl⟩
      · rw [hdeed]
        exact fun m => Deed.noConfusion
      · rw [hdeed]
        rfl
      · rw [hdeed]
        rfl
      · cases hq
        rw [hdeed]
        rfl
  obtain ⟨hold, hask⟩ := hdraws draws hd
  have hcarried : CarriedOut n c s (draws ++ ⟨.effect n (.change c), a.toSituation⟩ :: a.past) :=
    ⟨draws, x, a.toSituation, a.past, rfl, fun e he => (hd e he).1, hx, hrun⟩
  have hdone := hold.remember (hold.books.applied (hstands hs) hcarried hask) rfl rfl rfl
  exact hdone.congr k.hasLoop k.clock hb k.animations

/-! ### Beginning and ending -/

/-- An animation that is started stands as it should. -/
theorem add (h : w.Timely p) (hp : p.Clear) (id : Nat) (duration delay : Datum) {seconds : Binary64}
    (hd : (w.clock.now.add seconds).isNaN = false) :
    ((Run.addAnimation id duration delay (some seconds)).after w).Timely p := by
  obtain ⟨N, hN⟩ : ∃ N, N = w.animations.size := ⟨_, rfl⟩
  obtain ⟨t, ht⟩ : ∃ t : Timer Job, t = ⟨w.clock.now.add seconds, w.clock.nextId, .finishAnimation N, true⟩ := ⟨_, rfl⟩
  obtain ⟨e, he⟩ : ∃ e : Event, e = ⟨.animate N id (some t.due), w.toSituation⟩ := ⟨_, rfl⟩
  obtain ⟨x, hx⟩ : ∃ x : Animation, x = { element := id, duration, delay, timer := some t.id } := ⟨_, rfl⟩
  have hb : (Run.addAnimation id duration delay (some seconds)).after w = { w with
      past := e :: w.past
      clock := (w.clock.after seconds (.finishAnimation N)).1
      animations := w.animations.push x } := by
    subst hN ht he hx
    rfl
  have hdeed : e.deed = .animate N id (some t.due) := by rw [he]
  have hdue : w.clock.now.add seconds = t.due := by rw [ht]
  have hget : ∀ m, (w.animations.push x)[m]? = if m = N then some x else w.animations[m]? := fun m => by
    rw [hN, Array.getElem?_push]
  have hold : ∀ (k : Nat) (u : Animation), w.animations[k]? = some u → u.timer ≠ x.timer := fun k u hu hti => by
    rw [hx, ht] at hti
    exact Nat.lt_irrefl _ ((h.animations k u hu).known _ hti)
  have hbooks : p.Books (e :: w.past) := by
    refine h.books.tacit (h.books.inTime hp (h.stands (by rw [he])) (by rw [hdeed]; rfl)) ?_ ?_ (by rw [hdeed]; rfl) <;>
      rw [hdeed]
    · exact fun m => ⟨rfl, rfl, rfl, rfl⟩
    · exact fun m => Deed.noConfusion
  have hnew : x.Timely N p (w.clock.after seconds (.finishAnimation N)).1 (e :: w.past) := by
    rw [hx]
    refine .start (fun q hq hs => ?_) hdeed (by rw [ht]) (by rw [ht]) (by rw [ht]; exact Nat.lt_succ_self _) ?_
    · exact absurd (h.known q hq N hs) (by rw [hN]; exact Nat.lt_irrefl _)
    · exact Clock.Sound.mem_after_iff.mpr (.inl ht)
  have hjob : StartedFor N (w.clock.now.add seconds) (e :: w.past) := by
    rw [hdue]
    exact startedFor_cons.mpr (.inl ⟨id, hdeed⟩)
  rw [hb]
  refine h.event hbooks ((h.clock.cons e).after hd (.inr ⟨N, rfl, hjob⟩)) rfl rfl (fun n hs => ?_)
    (by rw [Array.size_push]; exact Nat.le_succ _) (fun n y hy => ?_) fun m n y z i hy hz hi hj => ?_
  · rw [hdeed] at hs
    cases hs
    rw [Array.size_push, hN]
    exact Nat.lt_succ_self _
  · rw [hget] at hy
    split at hy
    · subst n
      cases hy
      exact hnew
    · rename_i hnN
      refine (h.animations n y hy).step ?_ (fun id' d hs => ?_) rfl rfl rfl (fun _ => ?_) (fun hb => hb) rfl
        (Nat.le_succ _) fun t ht _ => Clock.Sound.mem_after_iff.mpr (.inr ht)
      · rw [hdeed]
        exact Deed.noConfusion
      · rw [hdeed] at hs
        cases hs
        exact hnN rfl
      · rw [hdeed]
        exact (List.append_nil _).symm
  · rw [hget] at hy hz
    split at hy <;> split at hz
    · rename_i hm hn
      rw [hm, hn]
    · cases hy
      exact absurd (hj.trans hi.symm) (hold n z hz)
    · cases hz
      exact absurd (hi.trans hj.symm) (hold m y hy)
    · exact h.distinct m n y z i hy hz hi hj

/-- An animation that ends owes what it has held back. -/
theorem cease (h : w.Timely p) (hp : p.Clear) (hx : w.animations[n]? = some x) (hf : x.isFinished = false)
    (hcause : Caused n w.clock w.past) :
    World.Timely { p with owed := owing n (x.changes.map .change), busy := fun m => p.busy m ∨ m = n }
      (w.ceased n x) := by
  have hstand := h.animations n x hx
  obtain ⟨hchanges, t, htimer, -⟩ := hstand.ticking hf
  have hw : w.ceased n x = { w with
      past := ⟨.cease n, w.toSituation⟩ :: w.past
      clock := w.clock.cancel t.id
      animations := w.animations.setIfInBounds n x.ended } := by
    unfold World.ceased
    rw [htimer]
  have hget : ∀ m, (w.animations.setIfInBounds n x.ended)[m]? = if n = m then some x.ended else w.animations[m]? :=
    World.getElem?_ceased hx
  have hbooks : Pending.Books
      { p with owed := owing n (x.changes.map .change), busy := fun m => p.busy m ∨ m = n }
      (⟨.cease n, w.toSituation⟩ :: w.past) := by
    have hb := h.books.ceased hp (h.stands rfl) (h.not_ceased hx hf) hcause
    rw [← hchanges] at hb
    exact ⟨hb.punctual, hb.account, hb.answered, hb.calls⟩
  rw [hw]
  refine h.event hbooks ((h.clock.cons _).cancel t.id) rfl rfl (fun m hs => ?_) (by rw [Array.size_setIfInBounds])
    (fun m y hy => ?_) fun m k y z i hy hz hi hj => ?_
  · cases hs
    rw [Array.size_setIfInBounds]
    exact (Array.getElem?_eq_some_iff.mp hx).1
  · rw [hget] at hy
    split at hy
    · subst m
      cases hy
      refine ⟨?_, iff_of_true rfl (ceased_cons.mpr (.inl rfl)), .inr ⟨rfl, .inr rfl⟩, fun i hi => (by cases hi),
        fun hend => (by cases hend)⟩
      obtain ⟨due, hdue⟩ := hstand.started
      exact ⟨due, fun d => (startedFor_cons.trans (or_iff_right fun ⟨id, hs⟩ => Deed.noConfusion hs)).trans (hdue d)⟩
    · rename_i hmn
      refine (h.animations m y hy).step (fun hc => ?_) (fun id d => Deed.noConfusion) rfl rfl rfl
        (fun _ => (List.append_nil _).symm) .inl rfl le_rfl fun u hu hut => ?_
      · cases hc
        exact hmn rfl
      · exact Clock.Sound.mem_cancel hu fun hid => hmn (h.distinct n m x y t.id hx hy htimer (by rw [hut, hid]))
  · rw [hget] at hy hz
    split at hy
    · cases hy
      cases hi
    · split at hz
      · cases hz
        cases hj
      · exact h.distinct m k y z i hy hz hi hj

/-- What changes of an animation that has ended, but for its end and its timer, matters only to whether it is
through. -/
theorem retouch (h : w.Timely p) (hn : Ceased n w.past) {f : Animation → Animation} {busy : Nat → Prop}
    (hf : ∀ x, (f x).isFinished = x.isFinished) (hi : ∀ x, (f x).timer = x.timer)
    (hs : ∀ x, x.isFinished = true → x.isSettled ∨ p.busy n → (f x).isSettled ∨ busy n)
    (hother : ∀ m, m ≠ n → p.busy m → busy m) :
    World.Timely { p with busy } { w with animations := w.animations.modify n f } := by
  have hget : ∀ m, (w.animations.modify n f)[m]? = if n = m then (w.animations[m]?).map f else w.animations[m]? :=
    fun m => Array.getElem?_modify ..
  have htimer : ∀ (m : Nat) (y : Animation), (w.animations.modify n f)[m]? = some y →
      ∃ x, w.animations[m]? = some x ∧ y.timer = x.timer := by
    intro m y hy
    rw [hget] at hy
    split at hy
    · obtain ⟨x, hx, rfl⟩ := Option.map_eq_some_iff.mp hy
      exact ⟨x, hx, hi x⟩
    · exact ⟨y, hy, rfl⟩
  have hbooks : Pending.Books { p with busy } w.past :=
    ⟨h.books.punctual, h.books.account, h.books.answered, h.books.calls⟩
  refine ⟨h.hasLoop, hbooks, h.clock, h.hand, fun q hq m hd => ?_, fun m y hy => ?_, fun m k y z i hy hz => ?_⟩
  · rw [Array.size_modify]
    exact h.known q hq m hd
  · rw [hget] at hy
    split at hy
    · subst m
      obtain ⟨x, hx, rfl⟩ := Option.map_eq_some_iff.mp hy
      have hold := h.animations n x hx
      have hend := hold.finished.mpr hn
      have hfend : (f x).isFinished = true := (hf x).trans hend
      refine ⟨hold.started, iff_of_true hfend hn, ?_, fun i hti => hold.known i (hi x ▸ hti), fun hopen => ?_⟩
      · exact (hs x hend (hold.settled.imp_right And.right)).imp_right fun hb => ⟨hfend, hb⟩
      · rw [hfend] at hopen
        cases hopen
    · rename_i hmn
      have hold := h.animations m y hy
      exact ⟨hold.started, hold.finished, hold.settled.imp_right fun hb => ⟨hb.1, hother m (Ne.symm hmn) hb.2⟩,
        hold.known, hold.ticking⟩
  · obtain ⟨x, hx, hxi⟩ := htimer m y hy
    obtain ⟨x', hx', hxi'⟩ := htimer k z hz
    rw [hxi, hxi']
    exact h.distinct m k x x' i hx hx'

/-! ### The clock -/

/-- More that the clock is to do, or less of what is in hand, if what is left for animations that have not ended is
still to come. -/
theorem reclock (h : w.Timely p) {clock : Clock Job} {hand : List Job} (hs : clock.Sound w.past)
    (hhand : ∀ j ∈ hand, j.isTask = true ∨ ∃ n due, j = .finishAnimation n ∧ StartedFor n due w.past ∧
      clock.reaches due = true)
    (hnext : w.clock.nextId ≤ clock.nextId)
    (hkept : ∀ (n : Nat) (t : Timer Job), ¬ Ceased n w.past → t.isLive = true → t.job = .finishAnimation n →
      t ∈ w.clock.timers ∨ t.job ∈ p.hand → t ∈ clock.timers ∨ t.job ∈ hand) :
    World.Timely { p with hand } { w with clock } := by
  have hbooks : Pending.Books { p with hand } w.past :=
    ⟨h.books.punctual, h.books.account, h.books.answered, h.books.calls⟩
  refine ⟨h.hasLoop, hbooks, hs, hhand, h.known, fun n x hx => ?_, h.distinct⟩
  have hold := h.animations n x hx
  refine ⟨hold.started, hold.finished, hold.settled, fun i hi => (hold.known i hi).trans_le hnext, fun hf => ?_⟩
  obtain ⟨hchanges, t, htimer, hlive, hjob, hstart, hmem⟩ := hold.ticking hf
  exact ⟨hchanges, t, htimer, hlive, hjob, hstart, hkept n t (h.not_ceased hx hf) hlive hjob hmem⟩

theorem soon (h : w.Timely p) {j : Job} (hj : j.isTask = true) : ((Run.soon j).after w).Timely p :=
  h.reclock (h.clock.soon hj) h.hand le_rfl fun _ _ _ _ _ ht => ht

theorem after (h : w.Timely p) {j : Job} (hj : j.isTask = true) {seconds : Binary64}
    (hd : (w.clock.now.add seconds).isNaN = false) :
    World.Timely p { w with clock := (w.clock.after seconds j).1 } :=
  h.reclock (h.clock.after hd (.inl hj)) h.hand (Nat.le_succ _) fun _ _ _ _ _ ht =>
    ht.imp_left fun ht => Clock.Sound.mem_after_iff.mpr (.inr ht)

/-- The jobs of a turn are taken in hand. -/
theorem take (h : w.Timely {}) : World.Timely { hand := w.clock.turn.1 } { w with clock := w.clock.turn.2 } := by
  have htakes := h.clock.sorted.turn
  refine h.reclock h.clock.turn (fun j hj => ?_) le_rfl fun n t _ hlive _ ht => ?_
  · rcases htakes.taken j hj with hj | ⟨t, ht, hd, rfl⟩
    · exact .inl (h.clock.ready j hj)
    · exact (h.clock.timers t ht).imp_right fun ⟨n, hj, hs⟩ => ⟨n, t.due, hj, hs, hd⟩
  · rcases ht with ht | ht
    · exact htakes.kept t ht hlive
    · exact absurd ht List.not_mem_nil

/-- A job is done with, if an animation that it ends has ended. -/
theorem drop {j : Job} {l : List Job} (h : w.Timely { hand := j :: l })
    (hj : ∀ n, j = .finishAnimation n → Ceased n w.past) : w.Timely { hand := l } := by
  refine h.reclock h.clock (fun i hi => h.hand i (List.mem_cons_of_mem _ hi)) le_rfl fun n t hn _ hjob ht => ?_
  refine ht.imp_right fun ht => ?_
  rcases List.mem_cons.mp ht with ht | ht
  · exact absurd (hj n (ht.symm.trans hjob)) hn
  · exact ht

/-- An animation that has been started for a time which the clock has come to has ended, or a turn takes the job to
end it. -/
theorem taken (h : w.Timely {}) {due : Binary64} (hs : StartedFor n due w.past) (hr : w.clock.reaches due = true) :
    Ceased n w.past ∨ .finishAnimation n ∈ w.clock.turn.1 := by
  obtain ⟨e, he, id, hd⟩ := hs
  have hn : n < w.animations.size := h.known e he n (by rw [hd]; rfl)
  obtain ⟨x, hx⟩ : ∃ x, w.animations[n]? = some x := ⟨_, Array.getElem?_eq_getElem hn⟩
  have hold := h.animations n x hx
  cases hf : x.isFinished with
  | true => exact .inl (hold.finished.mp hf)
  | false =>
    obtain ⟨-, t, -, hlive, hjob, hstart, ht⟩ := hold.ticking hf
    obtain ⟨due', hdue⟩ := hold.started
    have hsame : t.due = due := ((hdue _).mp hstart).trans ((hdue due).mp ⟨e, he, id, hd⟩).symm
    have hmem : t ∈ w.clock.timers := ht.resolve_right List.not_mem_nil
    rw [← hjob]
    exact .inr (h.clock.sorted.turn.due t hmem hlive (by rw [← hr, ← hsame]; rfl))

/-! ### Asking -/

/-- A change that an animation is asked for is held back until it ends. -/
theorem queue (h : w.Timely p) (hp : p.Clear) (hx : w.animations[n]? = some x) (hf : x.isFinished = false) (c : Change) :
    World.Timely p { w with
      past := ⟨.queue n c, w.toSituation⟩ :: w.past
      animations := w.animations.modify n fun y => { y with changes := y.changes ++ [c] } } := by
  have hbooks : p.Books (⟨.queue n c, w.toSituation⟩ :: w.past) := by
    refine h.books.asked hp (h.stands rfl) c fun m hm => ?_
    rw [hp.owed, if_neg]
    rintro rfl
    exact h.not_ceased hx hf hm
  refine h.record hbooks rfl rfl (Array.size_modify ..) (fun m y hy => ?_) (fun _ => Deed.noConfusion)
    (fun _ _ _ => Deed.noConfusion) fun m hm => ?_
  · rw [Array.getElem?_modify] at hy
    split at hy
    · subst m
      obtain ⟨z, hz, rfl⟩ := Option.map_eq_some_iff.mp hy
      have hself : (Deed.queue n c).asked? n = some c := if_pos rfl
      exact ⟨z, hz, rfl, rfl, rfl, fun _ => by rw [hself]; rfl⟩
    · rename_i hmn
      have hother : (Deed.queue n c).asked? m = none := if_neg hmn
      exact ⟨y, hy, rfl, rfl, rfl, fun _ => by rw [hother]; exact (List.append_nil _).symm⟩
  · cases hm
    exact (Array.getElem?_eq_some_iff.mp hx).1

/-- A change that an animation is asked for when it has ended is owed. -/
theorem queue_late (h : w.Timely p) (hp : p.Clear) (hx : w.animations[n]? = some x) (hf : x.isFinished = true)
    (c : Change) : World.Timely { p with owed := owing n [.change c] }
      { w with past := ⟨.queue n c, w.toSituation⟩ :: w.past } := by
  refine h.record (h.books.asked hp (h.stands rfl) c fun _ _ => rfl) rfl rfl rfl
    (fun m y hy => ⟨y, hy, rfl, rfl, rfl, fun hy' => ?_⟩) (fun _ => Deed.noConfusion) (fun _ _ _ => Deed.noConfusion)
    fun m hm => ?_
  · have hmn : n ≠ m := by
      rintro rfl
      rw [Option.some.inj (hy.symm.trans hx), hf] at hy'
      cases hy'
    have hother : (Deed.queue n c).asked? m = none := if_neg hmn
    rw [hother]
    exact (List.append_nil _).symm
  · cases hm
    exact (Array.getElem?_eq_some_iff.mp hx).1

/-- A callback that is let wait for the end of an animation changes nothing of when things come to pass. -/
theorem await (h : w.Timely p) (hp : p.Clear) (hx : w.animations[n]? = some x) (hf : x.isFinished = false)
    (callback : Datum) : World.Timely p { w with
      past := ⟨.await n callback, w.toSituation⟩ :: w.past
      animations := w.animations.modify n fun y => { y with callbacks := y.callbacks ++ [callback] } } := by
  have hbooks : p.Books (⟨.await n callback, w.toSituation⟩ :: w.past) := by
    refine h.books.awaited hp (h.stands rfl) callback fun m hm => ?_
    rw [hp.owed, if_neg]
    rintro rfl
    exact h.not_ceased hx hf hm
  refine h.record hbooks rfl rfl (Array.size_modify ..) (fun m y hy => ?_) (fun _ => Deed.noConfusion)
    (fun _ _ _ => Deed.noConfusion) fun m hm => (by cases hm)
  rw [Array.getElem?_modify] at hy
  split at hy
  · obtain ⟨z, hz, rfl⟩ := Option.map_eq_some_iff.mp hy
    exact ⟨z, hz, rfl, rfl, rfl, fun _ => (List.append_nil _).symm⟩
  · exact ⟨y, hy, rfl, rfl, rfl, fun _ => (List.append_nil _).symm⟩

/-- A callback that is to wait for the end of an animation that has ended is owed. -/
theorem await_late (h : w.Timely p) (hp : p.Clear) (callback : Datum) :
    World.Timely { p with owed := owing n [.call callback] }
      { w with past := ⟨.await n callback, w.toSituation⟩ :: w.past } :=
  h.remember (h.books.awaited hp (h.stands rfl) callback fun _ _ => rfl) rfl rfl rfl

end World.Timely

end LiveSvg
