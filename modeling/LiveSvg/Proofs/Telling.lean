import LiveSvg.Proofs.Timing
/-!
What happens to a visual in time. Whatever is done to it, animations and the clock go on standing as they should and
all that comes to pass is in time, as long as nothing that an animation brings about fails and no timer is set for a
time that is no number.
-/

namespace LiveSvg

open Number (Binary64)
open Script (Act Datum)

variable {a b w : World} {n : Nat}

/-- Whether a deed is no failure of what an animation brings about, and sets no timer for a time that is none. -/
def Deed.fits : Deed → Bool
  | .effected _ _ (.error _) => false
  | .animate _ _ (some due) | .delay due => !due.isNaN
  | _ => true

theorem Deed.isSmooth_of_fits {d : Deed} (h : d.fits = true) : d.isSmooth = true := by
  cases d with
  | effected n f result => cases result <;> first | rfl | cases h
  | _ => rfl

/-! ### Computations -/

/-- The past goes on, and if all fits that comes to pass, what held before brings about what holds after. -/
def Brings (I J : World → Prop) (a b : World) : Prop :=
  ∃ new, b.past = new ++ a.past ∧ ((∀ e ∈ new, e.deed.fits = true) → I a → J b)

namespace Brings

variable {I J K : World → Prop} {c : World}

theorem later (h : Brings I J a b) : Later a b := by
  obtain ⟨new, hb, -⟩ := h
  exact ⟨new, hb⟩

theorem comp (h : Brings I J a b) (k : Brings J K b c) : Brings I K a c := by
  obtain ⟨new, hb, h⟩ := h
  obtain ⟨more, hc, k⟩ := k
  refine ⟨more ++ new, by rw [hc, hb, List.append_assoc], fun hf i => ?_⟩
  exact k (fun e he => hf e (List.mem_append_left _ he)) (h (fun e he => hf e (List.mem_append_right _ he)) i)

theorem course (I : World → Prop) : Course (Brings I I) where
  refl _ := ⟨[], rfl, fun _ i => i⟩
  trans h k := h.comp k

theorem silent (hp : b.past = a.past) (h : I a → J b) : Brings I J a b := ⟨[], hp, fun _ => h⟩

theorem event {e : Event} (hp : b.past = e :: a.past) (h : e.deed.fits = true → I a → J b) : Brings I J a b :=
  ⟨[e], hp, fun hf => h (hf e (List.mem_singleton_self e))⟩

theorem of_stumbles (h : Stumbles a b) : Brings I J a b := by
  obtain ⟨new, hb, e, he, hs⟩ := h
  exact ⟨new, hb, fun hf => absurd (Deed.isSmooth_of_fits (hf e he)) (by simp [hs])⟩

/-- Only worlds of which something holds matter, where the past goes on in any case. -/
theorem of_later (h : Later a b) (k : I a → Brings I J a b) : Brings I J a b := by
  by_cases i : I a
  · exact k i
  · obtain ⟨new, hb⟩ := h
    exact ⟨new, hb, fun _ j => absurd j i⟩

theorem weaken {I' J' : World → Prop} (h : Brings I J a b) (hi : I' a → I a) (hj : J b → J' b) : Brings I' J' a b := by
  obtain ⟨new, hb, h⟩ := h
  exact ⟨new, hb, fun hf i => hj (h hf (hi i))⟩

theorem since (h : Brings I J a b) (hf : ∀ e ∈ b.since a, e.deed.fits = true) (i : I a) : J b := by
  obtain ⟨new, hb, h⟩ := h
  rw [World.since_eq hb] at hf
  exact h hf i

/-- Where a computation only fails with what an animation brings about, it is enough what it does when it does
not. -/
theorem smoothly {α : Type} {x : Run α} (h : Smoothly (Brings I J) x) : Along (Brings I J) x := by
  intro w
  cases hx : x w with
  | ok r w' =>
    rw [Run.after_ok hx]
    exact h.leads hx
  | error f w' =>
    rw [Run.after_error hx]
    exact of_stumbles (h.fails hx)

end Brings

/-- Whatever is under way, animations and the clock go on standing as they should. -/
def Tells (a b : World) : Prop := ∀ p : Pending, p.Clear → Brings (World.Timely p) (World.Timely p) a b

namespace Tells

theorem later (h : Tells a b) : Later a b := (h {} (.hand [])).later

theorem course : Course Tells where
  refl w _ _ := (Brings.course _).refl w
  trans h k p hp := (h p hp).comp (k p hp)

theorem aloof (h : Aloof a b) : Tells a b := by
  obtain ⟨⟨new, hb, hn⟩, ha, hc, hl⟩ := h
  exact fun p hp => ⟨new, hb, fun _ i => (i.idles hp hn).congr hl hc hb ha⟩

theorem add (id : Nat) (duration delay : Datum) (seconds : Option Binary64) (w : World)
    (h : w.hasLoop = true → seconds.isSome) : Tells w ((Run.addAnimation id duration delay seconds).after w) := by
  intro p hp
  cases seconds with
  | some seconds =>
    refine .event rfl fun hf i => i.add hp id duration delay ?_
    simpa [Deed.fits] using hf
  | none =>
    refine .of_later (Settles.add id duration delay none w).later fun i => ?_
    exact absurd (h i.hasLoop) Bool.false_ne_true

end Tells

/-! ### Bringing about -/

/-- An animation of an element has ended, and is still to apply changes. -/
structure World.Owes (p : Pending) (n id : Nat) (l : List Change) (w : World) : Prop where
  timely : w.Timely { p with owed := owing n (l.map .change) }
  ceased : Ceased n w.past
  element : ∃ x : Animation, w.animations[n]? = some x ∧ x.element = id

theorem World.Owes.all {p : Pending} {id : Nat} (hp : p.Clear) (h : w.Owes p n id []) : w.Timely p :=
  hp.owes_nothing n ▸ h.timely

theorem Applies.brings {p : Pending} {id : Nat} {c : Change} {l : List Change} (h : Applies n id c a b) :
    Brings (World.Owes p n id (c :: l)) (World.Owes p n id l) a b := by
  obtain ⟨new, hb⟩ := h.later
  refine ⟨new, hb, fun _ i => ?_⟩
  obtain ⟨x, hx, rfl⟩ := i.element
  refine ⟨i.timely.applies i.ceased hx h, hb ▸ ceased_append i.ceased, x, ?_, rfl⟩
  rw [h.animations, hx]

theorem change_brings {p : Pending} {id : Nat} {c : Change} {l : List Change} :
    Smoothly (Brings (World.Owes p n id (c :: l)) (World.Owes p n id l)) (Run.change n id c) where
  leads h := ((change_applies n id c).leads h).brings
  fails h := (change_applies n id c).fails h

/-- An animation that ends applies all that it has held back. -/
theorem changes_bring (p : Pending) (n id : Nat) (l : List Change) :
    Smoothly (Brings (World.Owes p n id l) (World.Owes p n id [])) (l.forM (Run.change n id)) :=
  .forM (R := fun l => Brings (World.Owes p n id l) (World.Owes p n id [])) (fun c => change_applies n id c)
    Applies.later (fun w => (Brings.course _).refl w) (fun h k => h.brings.comp k) l

namespace Tells

variable {play : Player}

theorem queue (n : Nat) (c : Change) : Along Tells (Run.queue n c) := by
  refine fun w => course.seq (aloof (Aloof.touches (Run.animation_touches n) w)) fun x w' h => ?_
  obtain ⟨rfl, hx⟩ := Run.animation_some h
  intro p hp
  rw [Run.after_record_bind]
  by_cases hf : x.isFinished = true
  · have hlate : Brings (World.Timely p) (World.Owes p n x.element [c]) w' ((Run.record (.queue n c)).after w') :=
      .event rfl fun _ i => by
        exact ⟨i.queue_late hp hx hf c, ceased_cons.mpr (.inr ((i.ceased_iff hx).mpr hf)), x, hx, rfl⟩
    rw [if_pos (by rw [hf]; rfl)]
    exact hlate.comp ((Brings.smoothly change_brings _).weaken (fun k => k) fun k => k.all hp)
  · rw [Bool.not_eq_true] at hf
    cases ht : x.timer.isNone with
    | true =>
      rw [if_pos (Bool.or_true _)]
      refine .of_later (Later.course.trans ⟨[_], rfl⟩ (Settles.change n x.element c _).later) fun i => ?_
      obtain ⟨t, htimer, -⟩ := ((i.animations n x hx).ticking hf).timer
      rw [htimer] at ht
      cases ht
    | false =>
      rw [if_neg (by rw [hf]; exact Bool.false_ne_true)]
      refine .event rfl fun _ i => (i.queue hp hx hf c).congr rfl rfl rfl ?_
      exact setIfInBounds_eq_modify (f := fun y : Animation => { y with changes := y.changes ++ [c] }) hx

variable (hp : ∀ act, Along Tells (play act))
include hp

/-- Calling what waits for the end of an animation. -/
theorem callBack {q : Pending} {callback : Datum} (howed : ∀ m f, f ∈ q.owed m → m = n ∧ f = .call callback)
    (hbusy : ∀ m, q.busy m → 0 < q.calls m ∨ m = n) :
    Smoothly (Brings (fun a => a.Timely q ∧ Ceased n a.past)
      (fun b => b.Timely { q with owed := fun _ => [] } ∧ Ceased n b.past)) (Run.callBack play n callback) := by
  have hclear := Pending.during_clear hbusy
  refine .effect (hp _).discard later fun {w w'} _ h => ?_
  have hcall : Brings (fun a => a.Timely q ∧ Ceased n a.past) (World.Timely (q.during n)) w
      ((Run.record (.effect n (.call callback))).after w) := .event rfl fun _ i =>
    i.1.remember (i.1.books.called i.2 (i.1.stands rfl) howed hbusy) rfl rfl rfl
  have hreturn : Brings (World.Timely (q.during n)) (World.Timely { q with owed := fun _ => [] }) w'
      ((Run.record (.effected n (.call callback) (.ok ()))).after w') := .event rfl fun _ i =>
    i.remember (i.books.returned hclear (i.stands rfl)) rfl rfl rfl
  obtain ⟨new, hb, k⟩ := (hcall.comp (h _ hclear)).comp hreturn
  exact ⟨new, hb, fun hf i => ⟨k hf i, hb ▸ ceased_append i.2⟩⟩

theorem afterwards (n : Nat) (callback : Datum) : Along Tells (Run.afterwards play n callback) := by
  refine fun w => course.seq (aloof (Aloof.touches (Run.animation_touches n) w)) fun x w' h => ?_
  obtain ⟨rfl, hx⟩ := Run.animation_some h
  intro p hc
  rw [Run.after_record_bind]
  by_cases hf : x.isFinished = true
  · have hlate : Brings (World.Timely p)
        (fun a => a.Timely { p with owed := owing n [.call callback] } ∧ Ceased n a.past) w'
        ((Run.record (.await n callback)).after w') := .event rfl fun _ i =>
      ⟨i.await_late hc callback, ceased_cons.mpr (.inr ((i.ceased_iff hx).mpr hf))⟩
    have hcall := callBack hp (n := n) (q := { p with owed := owing n [.call callback] })
      (fun m f hf => (mem_owing hf).imp_right List.mem_singleton.mp) fun m hm => .inl (hc.covered m hm)
    rw [if_pos hf]
    refine hlate.comp ((Brings.smoothly hcall _).weaken (fun k => k) fun k => ?_)
    have hk := k.1
    rw [← owing_nil n] at hk
    exact hc.owes_nothing n ▸ hk
  · rw [if_neg hf]
    rw [Bool.not_eq_true] at hf
    refine .event rfl fun _ i => (i.await hc hx hf callback).congr rfl rfl rfl ?_
    exact setIfInBounds_eq_modify (f := fun y : Animation => { y with callbacks := y.callbacks ++ [callback] }) hx

/-- Ending an animation, apart from that it is through. -/
theorem bringAbout {p : Pending} (hc : p.Clear) (n : Nat) (x : Animation) :
    Smoothly (Brings (World.Owes { p with busy := fun m => p.busy m ∨ m = n } n x.element x.changes)
      (fun b => b.Timely { p with busy := fun m => p.busy m ∨ m = n } ∧ Ceased n b.past)) (Run.bringAbout play n x) := by
  obtain ⟨q, hq⟩ : ∃ q : Pending, q = { p with busy := fun m => p.busy m ∨ m = n } := ⟨_, rfl⟩
  have howed : q.owed = fun _ => [] := by rw [hq, hc.owed]
  have hbusy : ∀ m, q.busy m → 0 < q.calls m ∨ m = n := fun m hm => by
    rw [hq] at hm ⊢
    exact hm.imp_left (hc.covered m)
  have hnothing : ({ q with owed := owing n [] } : Pending) = q := by rw [owing_nil, ← howed]
  rw [← hq]
  have hclear : Smoothly (Brings (World.Owes q n x.element []) (fun b => b.Timely q ∧ Ceased n b.past))
      (modify fun w => { w with animations := w.animations.modify n fun a => { a with changes := [] } } : Run Unit) := by
    refine .modify fun w => .silent rfl fun i => ⟨?_, i.ceased⟩
    have ht : w.Timely q := hnothing ▸ i.timely
    exact ht.retouch i.ceased (fun _ => rfl) (fun _ => rfl) (fun _ _ hs => hs) fun _ _ hm => hm
  have hcalls : Smoothly (Brings (fun b => b.Timely q ∧ Ceased n b.past) (fun b => b.Timely q ∧ Ceased n b.past))
      (x.callbacks.forM (Run.callBack play n)) := by
    have hcall : ∀ callback, Smoothly (Brings (fun a => a.Timely q ∧ Ceased n a.past)
        (fun b => b.Timely q ∧ Ceased n b.past)) (Run.callBack play n callback) := fun callback => by
      have hone : Smoothly (Brings (fun a => a.Timely q ∧ Ceased n a.past)
          (fun b => b.Timely { q with owed := fun _ => [] } ∧ Ceased n b.past)) (Run.callBack play n callback) :=
        callBack hp (fun m f hm => by rw [howed] at hm; cases hm) hbusy
      rwa [← howed] at hone
    exact .forM (R := fun _ => Brings (fun b => b.Timely q ∧ Ceased n b.past) (fun b => b.Timely q ∧ Ceased n b.past))
      hcall Brings.later (fun w => (Brings.course _).refl w) (fun h k => h.comp k) x.callbacks
  have hrest := hclear.bind (fun _ => hcalls) Brings.later fun h k => h.comp k
  exact (changes_bring q n x.element x.changes).bind (fun _ => hrest) Brings.later fun h k => h.comp k

/-- An animation that is finished for a reason has ended, if it is there. -/
theorem finish {p : Pending} (hc : p.Clear) (n : Nat) (w : World) :
    Brings (fun a => a.Timely p ∧ Caused n a.clock a.past)
      (fun b => b.Timely p ∧ (n < w.animations.size → Ceased n b.past)) w ((Run.finish play n).after w) := by
  by_cases hopen : ∃ x, w.animations[n]? = some x ∧ x.isFinished = false
  · obtain ⟨x, hx, hf⟩ := hopen
    have hcease : Brings (fun a => a.Timely p ∧ Caused n a.clock a.past)
        (World.Owes { p with busy := fun m => p.busy m ∨ m = n } n x.element x.changes) w (w.ceased n x) :=
      .event rfl fun _ i => ⟨i.1.cease hc hx hf i.2, ceased_cons.mpr (.inl rfl), x.ended,
        (World.getElem?_ceased hx n).trans (if_pos rfl), rfl⟩
    have hdone : Smoothly (Brings (fun b => b.Timely { p with busy := fun m => p.busy m ∨ m = n } ∧ Ceased n b.past)
        (fun b => b.Timely p ∧ (n < w.animations.size → Ceased n b.past)))
        (modify fun w => w.done n : Run Unit) := by
      refine .modify fun w => .silent rfl fun i => ⟨?_, fun _ => i.2⟩
      refine i.1.retouch i.2 (fun _ => rfl) (fun _ => rfl) (fun y hy _ => .inl ?_) fun m hm hb => hb.resolve_right hm
      change false = !y.isFinished
      rw [hy]
      rfl
    have hall := (bringAbout hp hc n x).bind (fun _ => hdone) Brings.later fun h k => h.comp k
    have hsame : (Run.finish play n).after w =
        (Run.bringAbout play n x >>= fun _ => modify fun w => w.done n : Run Unit).after (w.ceased n x) := by
      rw [Run.after_eq, Run.finish_open hx hf, ← Run.after_eq]
    rw [hsame]
    exact hcease.comp (Brings.smoothly hall _)
  · have hended : w.animations[n]? = none ∨ ∃ x, w.animations[n]? = some x ∧ x.isFinished = true := by
      cases hx : w.animations[n]? with
      | none => exact .inl rfl
      | some x => exact .inr ⟨x, rfl, by simpa using fun hf => hopen ⟨x, hx, hf⟩⟩
    rw [Run.finish_ended hended]
    refine .silent rfl fun i => ⟨i.1, fun hn => ?_⟩
    rcases hended with hx | ⟨x, hx, hf⟩
    · exact absurd hn (Nat.not_lt.mpr (Array.getElem?_eq_none_iff.mp hx))
    · exact (i.1.ceased_iff hx).mpr hf

theorem stop (n : Nat) : Along Tells (Run.stop play n) := by
  intro w p hc
  have hasked : Brings (World.Timely p) (fun a => a.Timely p ∧ Caused n a.clock a.past) w
      ((Run.record (.stop n)).after w) := .event rfl fun _ i =>
    ⟨i.idle hc rfl rfl, _, _, rfl, .inl rfl⟩
  exact hasked.comp ((finish hp hc n _).weaken id And.left)

omit hp

theorem tending : Tending Tells where
  toCourse := course
  aloof := aloof
  soon hj w p _ := .silent rfl fun i => i.soon hj
  postpone hj seconds w p hc := .event rfl fun hf i => by
    have ht := i.idle hc (e := ⟨.delay (w.clock.now.add seconds), w.toSituation⟩) rfl rfl
    exact ht.after (j := .wake _) hj (by simpa [Deed.fits] using hf)
  add := add
  queue := queue
  stop := stop
  afterwards := afterwards

end Tells

/-! ### Turns -/

namespace Tells

/-- A job that is in hand is done; if it is to end an animation, that has ended then. -/
theorem work (j : Job) (l : List Job) (w : World) : Brings (World.Timely { hand := j :: l })
    (fun b => b.Timely { hand := l } ∧ ∀ n, j = .finishAnimation n → Ceased n b.past) w
    ((Run.record (.work j)).after ((Run.work Run.play j).after w)) := by
  have hrecord : ∀ v : World, Tells v ((Run.record (.work j)).after v) := fun v => tending.record rfl v
  by_cases hj : j.isTask = true
  · have hnone : ∀ n, j ≠ .finishAnimation n := by
      rintro n rfl
      cases hj
    have hwork : Tells w _ := course.trans (tending.task hj w) (hrecord _)
    exact (hwork _ (.hand _)).weaken id fun k =>
      ⟨k.drop fun n hn => absurd hn (hnone n), fun n hn => absurd hn (hnone n)⟩
  · refine .of_later (Later.course.trans (Settles.work j w).later (hrecord _).later) fun i => ?_
    obtain ⟨n, due, rfl, hs, hr⟩ := (i.hand j (List.mem_cons_self ..)).resolve_left hj
    have hn : n < w.animations.size := by
      obtain ⟨e, he, id, hd⟩ := hs
      exact i.known e he n (by rw [hd]; rfl)
    have hexpire : Brings (World.Timely { hand := .finishAnimation n :: l })
        (fun a => a.Timely { hand := .finishAnimation n :: l } ∧ Caused n a.clock a.past) w
        ((Run.record (.expire n)).after w) := .event rfl fun _ i =>
      ⟨i.idle (.hand _) rfl rfl, _, _, rfl, .inr ⟨rfl, due, startedFor_cons.mpr (.inr hs), hr⟩⟩
    have hfinish := hexpire.comp (finish tending.plays (.hand _) n _)
    have hdone : ∀ v : World, Brings
        (fun b => b.Timely { hand := .finishAnimation n :: l } ∧ (n < w.animations.size → Ceased n b.past))
        (fun b => b.Timely { hand := l } ∧ ∀ m, Job.finishAnimation n = .finishAnimation m → Ceased m b.past) v
        ((Run.record (.work (.finishAnimation n))).after v) := fun v => .event rfl fun _ k => by
      have hceased : ∀ m, Job.finishAnimation n = .finishAnimation m → Ceased m
          ((Run.record (.work (.finishAnimation n))).after v).past := by
        rintro m ⟨rfl⟩
        exact ceased_cons.mpr (.inr (k.2 hn))
      exact ⟨(k.1.idle (.hand _) rfl rfl).drop hceased, hceased⟩
    exact hfinish.comp (hdone _)

/-- All jobs in hand are done, and the animations that they are to end have ended. -/
theorem works (l : List Job) (w : World) : Brings (World.Timely { hand := l })
    (fun b => b.Timely {} ∧ ∀ n, .finishAnimation n ∈ l → Ceased n b.past) w
    ((l.forM fun j => do discard (Run.attempt (Run.work Run.play j)); Run.record (.work j) : Run Unit).after w) := by
  induction l generalizing w with
  | nil => exact .silent rfl fun i => ⟨i, fun n hn => absurd hn List.not_mem_nil⟩
  | cons j l ih =>
    have hstep : (do discard (Run.attempt (Run.work Run.play j)); Run.record (.work j) : Run Unit) w =
        .ok () ((Run.record (.work j)).after ((Run.work Run.play j).after w)) := by
      rw [Run.bind_ok (Run.attempt_discard _ w)]
      rfl
    have hcons : ∀ {f : Job → Run Unit} {v : World}, f j w = .ok () v → ((j :: l).forM f).after w = (l.forM f).after v :=
      fun hf => Run.after_bind_ok hf
    rw [hcons hstep]
    obtain ⟨new, hb, h⟩ := work j l w
    obtain ⟨more, hc, k⟩ := ih ((Run.record (.work j)).after ((Run.work Run.play j).after w))
    refine ⟨more ++ new, by rw [hc, hb, List.append_assoc], fun hf i => ?_⟩
    obtain ⟨hrest, hj⟩ := h (fun e he => hf e (List.mem_append_right _ he)) i
    obtain ⟨hend, hl⟩ := k (fun e he => hf e (List.mem_append_left _ he)) hrest
    refine ⟨hend, fun n hn => ?_⟩
    rcases List.mem_cons.mp hn with hn | hn
    · rw [hc]
      exact ceased_append (hj n hn.symm)
    · exact hl n hn

/-- After a turn, animations have ended that were started for times to which the clock had come. -/
theorem turn (w : World) : Brings (World.Timely {}) (fun b => b.Timely {} ∧
    ∀ n due, StartedFor n due w.past → w.clock.reaches due = true → Ceased n b.past) w
    ((Run.turn Run.play).after w) := by
  obtain ⟨v, hv⟩ : ∃ v : World, v = { w with clock := w.clock.turn.2 } := ⟨_, rfl⟩
  have hturn : (Run.turn Run.play).after w = (w.clock.turn.1.forM fun j => do
      discard (Run.attempt (Run.work Run.play j))
      Run.record (.work j) : Run Unit).after v := by
    have htake : Run.takeJobs w = .ok w.clock.turn.1 v := by
      rw [hv]
      rfl
    unfold Run.turn
    rw [Run.after_bind_ok htake]
    exact Run.after_bind_pure _ _ _
  obtain ⟨new, hb, h⟩ := works w.clock.turn.1 v
  rw [hturn]
  refine ⟨new, by rw [hb, hv], fun hf i => ?_⟩
  obtain ⟨hend, hl⟩ := h hf (hv ▸ i.take)
  refine ⟨hend, fun n due hs hr => ?_⟩
  rcases i.taken hs hr with hn | hn
  · rw [hb, hv]
    exact ceased_append hn
  · exact hl n hn

/-! ### Whole runs -/

/-- Between steps, animations and the clock stand as they should. -/
theorem onward {unfolded : Bool} (h : a.Onward unfolded b) : Brings (World.Timely {}) (World.Timely {}) a b := by
  refine tending.onward (Brings.course _) (fun k => k _ (.hand [])) (fun w => (turn w).weaken id And.left)
    (fun w seconds => .silent rfl fun i => ?_) h
  exact i.reclock ⟨i.clock.sorted, i.clock.ids, i.clock.ready, i.clock.timers⟩ (fun j hj => absurd hj List.not_mem_nil)
    le_rfl fun _ _ _ _ _ ht => ht

end Tells

/-- A world in which nothing has happened yet, with a clock that has nothing to do. -/
structure World.Untouched (w : World) : Prop where
  past : w.past = []
  animations : w.animations = #[]
  ready : w.clock.ready = []
  timers : w.clock.timers = #[]
  hasLoop : w.hasLoop = true

theorem World.Untouched.timely (h : w.Untouched) : w.Timely {} := by
  have hnone : ∀ e, e ∉ w.past := by
    rw [h.past]
    exact fun _ => List.not_mem_nil
  have hempty : ∀ (n : Nat) (x : Animation), w.animations[n]? ≠ some x := by
    rw [h.animations]
    rintro n x ⟨⟩
  have htimers : ∀ t, t ∉ w.clock.timers := by
    rw [h.timers]
    exact Array.not_mem_empty
  have hopen : ∀ n, ¬ Ceased n w.past := fun n ⟨e, he, _⟩ => hnone e he
  have hbooks : Pending.Books {} w.past := by
    refine ⟨?_, fun n hn => absurd hn (hopen n), fun q r n f hq => ?_, fun n => ?_⟩
    · rw [h.past]
      trivial
    · rw [h.past] at hq
      cases hq
    · rw [h.past]
      rfl
  have hclock : w.clock.Sound w.past := by
    refine ⟨?_, fun t ht => absurd ht (htimers t), fun j hj => ?_, fun t ht => absurd ht (htimers t)⟩
    · rw [h.timers]
      exact .empty
    · rw [h.ready] at hj
      cases hj
  exact ⟨h.hasLoop, hbooks, hclock, fun j hj => absurd hj List.not_mem_nil, fun e he => absurd he (hnone e),
    fun n x hx => absurd hx (hempty n x), fun m n x y i hx => absurd hx (hempty m x)⟩

end LiveSvg
