import LiveSvg.Proofs.Accounts
import LiveSvg.Proofs.Fading
import LiveSvg.Proofs.Updates
/-!
A destroyed visual is silent: whatever is still under way, and whatever comes to it from outside
afterwards, it tells no one anything and starts nothing. Listeners and callbacks that scripts have set
up on their own are called all the same; where there are none, what scripts saw stays as it was.
-/

namespace LiveSvg

open Script (Act Ask Contents Datum Memory)

/-! ### Streams that come to their end -/

namespace Cell

variable {α ι : Type}

/-- What a stream holds for its reader. -/
def held (c : Cell α ι) (i : Nat) : List α := ((c.streams[i]?).map (·.pending)).getD []

/-- A cell has the value of another one, and its streams hold the last of what those of the other one
held, or nothing. -/
structure Drains (c c' : Cell α ι) : Prop where
  value : c'.value = c.value
  held (i : Nat) : c'.held i <:+ c.held i

theorem Drains.rfl {c : Cell α ι} : c.Drains c := ⟨.refl _, fun _ => List.suffix_refl _⟩

theorem Drains.trans {c c' c'' : Cell α ι} (h : c.Drains c') (k : c'.Drains c'') : c.Drains c'' :=
  ⟨k.value.trans h.value, fun i => (k.held i).trans (h.held i)⟩

/-- What readers do with the streams of a cell. -/
inductive Use where
  | openStream
  | read (i : Nat)
  | cancel (i : Nat)

def Use.on (c : Cell α ι) : Use → Cell α ι
  | .openStream => c.openStream.1
  | .read i => (c.read i).1
  | .cancel i => c.cancel i

/-- A cell one of whose streams holds the last of what it held. -/
theorem drains_set (c : Cell α ι) (i : Nat) {s : Stream α} (h : s.pending <:+ c.held i) :
    c.Drains { c with streams := c.streams.set i s } := by
  refine ⟨.refl _, fun j => ?_⟩
  change ((c.streams.set i s)[j]?.map (·.pending)).getD [] <:+ c.held j
  rw [List.getElem?_set]
  split
  · rename_i hij
    subst hij
    split
    · exact h
    · exact List.nil_suffix
  · exact List.suffix_refl _

/-- A closed cell gives its readers nothing new. -/
theorem Use.drains {c : Cell α ι} (closed : c.isClosed = true) (u : Use) :
    c.Drains (u.on c) ∧ (u.on c).isClosed = true := by
  cases u with
  | openStream =>
    refine ⟨⟨.refl _, fun i => ?_⟩, closed⟩
    change ((c.streams ++ [if c.isClosed then ⟨[], true⟩ else ⟨[c.value], false⟩])[i]?.map
      (·.pending)).getD [] <:+ c.held i
    rw [if_pos closed]
    rcases Nat.lt_or_ge i c.streams.length with hi | hi
    · rw [List.getElem?_append_left hi]
      exact List.suffix_refl _
    · rw [List.getElem?_append_right hi]
      cases i - c.streams.length <;> exact List.nil_suffix
  | read i =>
    change c.Drains (c.read i).1 ∧ (c.read i).1.isClosed = true
    unfold Cell.read
    split
    · exact ⟨.rfl, closed⟩
    · rename_i a rest isEnded hs
      refine ⟨drains_set c i ?_, closed⟩
      unfold held
      rw [hs]
      exact List.suffix_cons a rest
    · exact ⟨.rfl, closed⟩
    · exact ⟨.rfl, closed⟩
  | cancel i => exact ⟨drains_set c i List.nil_suffix, closed⟩

/-- Closing a cell adds nothing to its streams. -/
theorem complete_drains (c : Cell α ι) : c.Drains c.complete ∧ c.complete.isClosed = true := by
  unfold complete
  cases h : c.isClosed with
  | true => exact ⟨.rfl, h⟩
  | false =>
    refine ⟨⟨.refl _, fun i => ?_⟩, .refl _⟩
    change ((c.streams.map fun s => { s with isEnded := true })[i]?.map (·.pending)).getD [] <:+ c.held i
    rw [List.getElem?_map, Option.map_map]
    exact List.suffix_refl _

end Cell

/-! ### Nothing is told -/

/-- Whether a deed starts neither a script that renders or acts nor a dispatch nor an acquisition, and
gives scripts no new value. -/
def Deed.isMute : Deed → Bool
  | .start (.color _) => true
  | .start _ | .call .. | .beginBatch _ | .seed .. | .take .. | .change .. => false
  | _ => true

/-- In one world nothing more has been told or started than in an earlier one. -/
structure World.Silence (a b : World) : Prop where
  renders : b.visual.renders = a.visual.renders
  errors : b.visual.errors = a.visual.errors
  loading : a.visual.loading.Drains b.visual.loading
  busy : b.visual.busy = a.visual.busy
  verdicts : b.notes.filter (·.isVerdict) = a.notes.filter (·.isVerdict)
  actions : b.host.actions = a.host.actions
  past : ∃ new, b.past = new ++ a.past ∧ ∀ e ∈ new, e.deed.isMute

variable {a b w : World}

namespace World.Silence

/-- Where past, notes and host are the same and so is what the visual has told, nothing was told. -/
theorem of_eq (hp : b.past = a.past) (hv : b.visual = a.visual) (hn : b.notes = a.notes)
    (ha : b.host.actions = a.host.actions) : a.Silence b :=
  ⟨by rw [hv], by rw [hv], by rw [hv]; exact .rfl, by rw [hv], by rw [hn], ha, [], hp, by simp⟩

/-- One more deed that is mute. -/
theorem event {deed : Deed} (hd : deed.isMute) (hp : b.past = ⟨deed, a.toSituation⟩ :: a.past)
    (hv : b.visual = a.visual) (hn : b.notes = a.notes) (ha : b.host = a.host) : a.Silence b :=
  ⟨by rw [hv], by rw [hv], by rw [hv]; exact .rfl, by rw [hv], by rw [hn], by rw [ha], [_], hp,
    by simp [hd]⟩

theorem record (w : World) {deed : Deed} (hd : deed.isMute) : w.Silence ((Run.record deed).after w) :=
  event hd rfl rfl rfl rfl

theorem refl (w : World) : w.Silence w := of_eq rfl rfl rfl rfl

theorem trans {a b c : World} (h : a.Silence b) (k : b.Silence c) : a.Silence c where
  renders := k.renders.trans h.renders
  errors := k.errors.trans h.errors
  loading := h.loading.trans k.loading
  busy := k.busy.trans h.busy
  verdicts := k.verdicts.trans h.verdicts
  actions := k.actions.trans h.actions
  past := by
    obtain ⟨new, hb, hn⟩ := h.past
    obtain ⟨more, hc, hm⟩ := k.past
    refine ⟨more ++ new, by rw [hc, hb, List.append_assoc], fun e he => ?_⟩
    exact (List.mem_append.mp he).elim (hm e) (hn e)

/-- No dispatch is started. -/
theorem dispatches (h : a.Silence b) : (b.ledger []).calls = (a.ledger []).calls := by
  obtain ⟨new, hb, hn⟩ := h.past
  have hc : ∀ e ∈ new, (e.entry?.bind Entry.called?) = none := by
    intro e he
    have k := hn e he
    obtain ⟨deed, s⟩ := e
    cases deed <;> first | rfl | cases k
  have ht : ∀ past : List Event, (told Event.entry? past).filterMap Entry.called? =
      (past.filterMap fun e => e.entry?.bind Entry.called?).reverse := fun past => by
    unfold told
    rw [List.filterMap_reverse, List.filterMap_filterMap]
  unfold Ledger.calls World.ledger
  dsimp only
  rw [ht, ht, hb, List.filterMap_append, List.filterMap_eq_nil_iff.mpr hc, List.nil_append]

/-- No script is started but those that make colors. -/
theorem started (h : a.Silence b) : ∀ e ∈ b.since a, ∀ l, e.deed = .start l → ∃ n, l = .color n := by
  obtain ⟨new, hb, hn⟩ := h.past
  intro e he l hl
  rw [World.since_eq hb] at he
  have k := hn e he
  rw [hl] at k
  cases l with
  | color n => exact ⟨n, rfl⟩
  | _ => cases k

end World.Silence

theorem Deed.isMute_of_isLate {d : Deed} (h : d.isLate) : d.isMute := by
  cases d <;> first | rfl | cases h

theorem Deed.isMute_of_isHook {d : Deed} (h : d.isHook) : d.isMute := by
  cases d <;> first | rfl | cases h

theorem Deed.isMute_of_isTimely {d : Deed} (h : d.isTimely) : d.isMute := by
  cases d <;> first | rfl | cases h

theorem Ripple.silence (h : Ripple a b) : a.Silence b := by
  cases h with
  | grow | log | clock | mount => exact .of_eq rfl rfl rfl rfl
  | draw d => exact .event rfl rfl rfl rfl rfl
  | record h => exact .record a (Deed.isMute_of_isLate h)
  | host h => exact .of_eq rfl rfl rfl h
  | shape | batches => exact ⟨rfl, rfl, .rfl, rfl, rfl, rfl, [], rfl, by simp⟩

/-- From a destroyed visual one comes to a destroyed visual, and nothing is told on the way. -/
def Hushed (a b : World) : Prop := a.isGone → b.isGone ∧ a.Silence b

namespace Hushed

theorem course : Course Hushed where
  refl w g := ⟨g, .refl w⟩
  trans h k g := by
    obtain ⟨gb, sb⟩ := h g
    obtain ⟨gc, sc⟩ := k gb
    exact ⟨gc, sb.trans sc⟩

theorem fading (h : Fading a b) : Hushed a b := fun g =>
  (h g).lift course (fun s g => ⟨s.gone g, s.silence⟩) g

theorem mild : Mild Hushed where
  toCourse := course
  touch h g := by
    cases h with
    | draw | ask => exact ⟨⟨g.destroyed, g.closed⟩, .event rfl rfl rfl rfl rfl⟩
    | listen _ h =>
      exact ⟨⟨g.destroyed, g.closed⟩, .event (Deed.isMute_of_isHook h) rfl rfl rfl rfl⟩
    | note h =>
      exact ⟨⟨g.destroyed, g.closed⟩, rfl, rfl, .rfl, rfl, by simp [h], rfl, [], rfl, by simp⟩
    | _ => exact ⟨⟨g.destroyed, g.closed⟩, .of_eq rfl rfl rfl rfl⟩
  beat h g := by
    cases h with
    | record h =>
      exact ⟨⟨g.destroyed, g.closed⟩, .record _ (Deed.isMute_of_isTimely h)⟩
    | _ => exact ⟨⟨g.destroyed, g.closed⟩, .of_eq rfl rfl rfl rfl⟩
  host w _ h := fading (.ripple (.host w h))
  shape h := fading (Fading.framed.shape h)

/-- Whatever listeners and callbacks do, they find the visual destroyed. -/
theorem upheld : Upheld Hushed where
  toMild := mild
  store r c w g := by
    have hv := Run.store_visual r c w
    refine ⟨⟨by rw [hv]; exact g.destroyed, by rw [hv]; exact g.closed⟩,
      .event rfl (Run.store_past r c w) hv ?_ ?_⟩ <;> cases r <;> cases c <;> rfl
  action _ n event := (Fading.runAction n event).mono fading
  color hp n value := mild.updateColor n value (mild.script
    (fun w g => ⟨⟨g.destroyed, g.closed⟩, .record w rfl⟩)
    (fun _ w g => ⟨⟨g.destroyed, g.closed⟩, .record w rfl⟩) hp)
  propose _ id value := course.bind (fun w g => ⟨⟨g.destroyed, g.closed⟩, .record w rfl⟩) fun _ =>
    (Fading.setValue id value).mono fading
  call event id value observer := (Fading.callAction event id value observer).mono fading

theorem muffled : Muffled Hushed where
  toCourse := course
  fading := fading
  fire := upheld.fire upheld.plays
  finish := mild.finish upheld.plays

end Hushed

/-! ### Nothing is changed -/

/-- Whether a value is a method that is called on what it was taken from. -/
def Script.Datum.isMethod : Datum → Bool
  | .method .. => true
  | _ => false

/-- No method listens on an element or waits for the end of an animation: there are only actions of
the visual itself, what takes down what it is told, and what cannot be called. -/
structure World.Unhooked (w : World) : Prop where
  listeners : ∀ l ∈ w.listeners, ∀ t ∈ l.2, ∀ d ∈ t.2, d.isMethod = false
  callbacks : ∀ a ∈ w.animations, ∀ d ∈ a.callbacks, d.isMethod = false

/-- From a destroyed visual without such listeners and callbacks one comes to another one, and what
scripts saw is as it was. -/
def Frozen (a b : World) : Prop :=
  a.isGone ∧ a.Unhooked →
    (b.isGone ∧ b.Unhooked) ∧ b.values = a.values ∧ a.memory.Grows b.memory

namespace Frozen

open Run

theorem course : Course Frozen where
  refl w g := ⟨g, rfl, Memory.grows_refl _⟩
  trans h k g := by
    obtain ⟨gb, vb, mb⟩ := h g
    obtain ⟨gc, vc, mc⟩ := k gb
    exact ⟨gc, vc.trans vb, Memory.grows_trans mb mc⟩

/-- Where listeners and animations are as they were, it is enough to look at values and memory. -/
theorem of_eq (hg : a.isGone → b.isGone) (hl : b.listeners = a.listeners)
    (ha : b.animations = a.animations) (hv : b.values = a.values) (hm : a.memory.Grows b.memory) :
    Frozen a b :=
  fun ⟨g, u⟩ => ⟨⟨hg g, by rw [hl]; exact u.listeners, by rw [ha]; exact u.callbacks⟩, hv, hm⟩

theorem fading (h : Fading a b) : Frozen a b := fun g => by
  refine (h g.1).lift course (fun {a b} s => ?_) g
  cases s with
  | grow h => exact of_eq (fun g => ⟨g.destroyed, g.closed⟩) rfl rfl rfl h
  | _ => exact of_eq (fun g => ⟨g.destroyed, g.closed⟩) rfl rfl rfl (Memory.grows_refl _)

theorem fades {α : Type} {x : Run α} (h : Along Fading x) : Along Frozen x := h.mono fading

theorem record (deed : Deed) : Along Frozen (record deed) := fun _ =>
  of_eq (fun g => ⟨g.destroyed, g.closed⟩) rfl rfl rfl (Memory.grows_refl _)

theorem effect (n : Nat) (e : Effect) {x : Run Unit} (hx : Along Frozen x) : Along Frozen (effect n e x) :=
  course.effect (record _) (fun _ => record _) hx

/-- New animations call back no methods if the old ones do not. -/
theorem animations {new : Array Animation}
    (h : w.Unhooked → ∀ a ∈ new, ∀ d ∈ a.callbacks, d.isMethod = false) :
    Frozen w { w with animations := new } :=
  fun ⟨g, u⟩ => ⟨⟨⟨g.destroyed, g.closed⟩, u.listeners, h u⟩, rfl, Memory.grows_refl _⟩

/-- An animation that is changed calls back nothing that it did not call back before. -/
theorem modify (n : Nat) {f : Animation → Animation} (hf : ∀ a, ∀ d ∈ (f a).callbacks, d ∈ a.callbacks) :
    Along Frozen (modify fun w => { w with animations := w.animations.modify n f } : Run Unit) := by
  refine fun w => animations fun u b hb d hd => ?_
  obtain ⟨i, hi⟩ := Array.getElem?_of_mem hb
  rw [Array.getElem?_modify] at hi
  split at hi
  · obtain ⟨a, ha, rfl⟩ := Option.map_eq_some_iff.mp hi
    exact u.callbacks a (Array.mem_of_getElem? ha) d (hf a d hd)
  · exact u.callbacks b (Array.mem_of_getElem? hi) d hd

/-- What is no method changes nothing when it is called. -/
theorem call {d : Datum} (h : d.isMethod = false) (args : List Datum) :
    Along Frozen (Run.play.call d args) := by
  have C := course
  have hx : ∀ r : Except Failure Datum, Along Frozen
      ((Act.ofExcept r).run (answer (playWithin 139)) MonadExcept.throw : Run Datum) := fun r => by
    cases r with
    | ok d => exact C.pure d
    | error f => exact C.throw f
  change Along Frozen ((Script.callDatum d args).run (answer (playWithin 139)) MonadExcept.throw)
  cases d with
  | method owner name => cases h
  | function f => exact C.bind (C.bind C.get fun _ => C.pure _) fun v => hx _
  | errorClass c => exact C.pure _
  | entity e =>
    refine C.bind (Along.attempt ?_) fun r => hx r
    unfold Run.apply
    split
    · exact C.bind (fades (Fading.runAction _ _)) fun _ => C.pure _
    · exact C.bind (fun w => of_eq (fun g => ⟨g.destroyed, g.closed⟩) rfl rfl rfl
        (Memory.grows_refl _)) fun _ => C.pure _
    · exact C.bind (fun w => of_eq (fun g => ⟨g.destroyed, g.closed⟩) rfl rfl rfl
        (Memory.grows_refl _)) fun _ => C.pure _
    · exact C.throw _
  | _ => exact C.throw _

/-- What listens on an element is among the listeners of the world. -/
theorem listeners_ok {id : Nat} {trigger : Datum} {hs : List Datum} {w' : World}
    (h : listeners id trigger w = .ok hs w') (u : w.Unhooked) :
    w' = w ∧ ∀ d ∈ hs, d.isMethod = false := by
  unfold listeners needKey listenersOf at h
  cases hk : trigger.isKey with
  | false =>
    rw [hk] at h
    cases h
  | true =>
    rw [hk] at h
    cases h
    refine ⟨rfl, fun d hd => ?_⟩
    cases hf : w.listeners.find? (·.1 == id) with
    | none =>
      rw [hf] at hd
      cases hd
    | some l =>
      rw [hf] at hd
      dsimp only [Option.map_some, Option.getD_some] at hd
      cases hg : Script.Members.get? l.2 trigger with
      | none =>
        rw [hg] at hd
        cases hd
      | some t =>
        rw [hg] at hd
        obtain ⟨k, hk⟩ := Script.Members.mem_of_get? hg
        exact u.listeners l (List.mem_of_find?_eq_some hf) _ hk d hd

theorem fire (id : Nat) (trigger event : Datum) : Along Frozen (Run.fire Run.play id trigger event) := by
  intro w g
  refine course.seq ?_ (fun hs w' h => ?_) g
  · exact fades (Fading.guarded fun w _ => by unfold listeners needKey; split <;> rfl) w
  · obtain ⟨rfl, hm⟩ := listeners_ok h g.2
    exact course.forM (fun d hd => (call (hm d hd) _).discard) w'

theorem finish (n : Nat) : Along Frozen (Run.finish Run.play n) := by
  intro w g
  have C := course
  have hp : Plot Frozen :=
    { toCourse := C
      grow := fun w _ h => fading (Fading.framed.grow w h)
      draw := fun w d => fading (Fading.framed.draw w d) }
  refine C.seq (fades (Fading.guarded fun w _ => ?_) w) (fun a w' h => ?_) g
  · unfold animation
    rw [after_get_bind]
    split <;> rfl
  obtain ⟨rfl, ha⟩ := animation_ok h
  have hc : ∀ d ∈ a.callbacks, d.isMethod = false := g.2.callbacks a ha
  split
  · exact C.refl _
  have hset : Along Frozen (setAnimation n { a with isFinished := true, timer := none }) := by
    refine fun w => animations fun u b hb => ?_
    rcases Array.mem_or_eq_of_mem_setIfInBounds hb with hb | rfl
    · exact u.callbacks b hb
    · exact hc
  have hclear := modify n (f := fun a => { a with changes := [] }) fun _ _ h => h
  have hend := modify n (f := fun a => { a with callbacks := [], isRunning := false })
    fun _ _ h => absurd h List.not_mem_nil
  exact C.bind (record _) (fun _ => C.bind (fades (Fading.clock _)) fun _ => C.bind hset fun _ =>
    C.bind (C.forM fun c _ => effect n _ (hp.applyChange _ c)) fun _ => C.bind hclear fun _ =>
      C.bind (C.forM fun d hd => effect n _ (call (hc d hd) []).discard) fun _ => hend) w'

theorem muffled : Muffled Frozen where
  toCourse := course
  fading := fading
  fire := fire
  finish := finish

end Frozen

/-! ### After the end -/

/-- Worlds that follow when a visual has been destroyed: steps are taken from outside, and the streams
that tell whether it is busy are read. -/
inductive World.Afterwards (a : World) : World → Prop where
  | refl : Afterwards a a
  | step (s : Step) {w : World} : s.isOutside → Afterwards a w → Afterwards a (s.after w)
  | use (u : Cell.Use) {w : World} : Afterwards a w →
    Afterwards a { w with visual := { w.visual with loading := u.on w.visual.loading } }

theorem Hushed.use (u : Cell.Use) (w : World) :
    Hushed w { w with visual := { w.visual with loading := u.on w.visual.loading } } := fun g =>
  have hd := u.drains g.closed
  ⟨⟨g.destroyed, hd.2⟩, rfl, rfl, hd.1, rfl, rfl, rfl, [], rfl, by simp⟩

theorem Frozen.use (u : Cell.Use) (w : World) :
    Frozen w { w with visual := { w.visual with loading := u.on w.visual.loading } } :=
  .of_eq (fun g => ⟨g.destroyed, (u.drains g.closed).2⟩) rfl rfl rfl (Memory.grows_refl _)

/-- Destroying a visual tells nothing and changes nothing of what scripts saw. -/
theorem World.isLive.destroyed (live : w.isLive) : (Step.destroy.after w).isGone ∧
    w.Silence (Step.destroy.after w) ∧ (w.Unhooked → (Step.destroy.after w).Unhooked) ∧
      (Step.destroy.after w).values = w.values ∧ (Step.destroy.after w).memory = w.memory := by
  unfold Step.after Step.run Run.destroy
  rw [Run.after_get_bind, show w.visual.isDestroyed = false from live]
  obtain ⟨hd, hc⟩ := w.visual.loading.complete_drains
  exact ⟨⟨rfl, hc⟩, ⟨rfl, rfl, hd, rfl, rfl, rfl, [], rfl, by simp⟩, fun u => ⟨u.listeners, u.callbacks⟩,
    rfl, rfl⟩

theorem World.Afterwards.steps (h : a.Afterwards b) {steps : List Step} (hs : ∀ s ∈ steps, s.isOutside) :
    a.Afterwards (steps.foldl (fun w s => s.after w) b) := by
  induction steps generalizing b with
  | nil => exact h
  | cons s steps ih =>
    exact ih (h.step s (hs s List.mem_cons_self)) fun t ht => hs t (List.mem_cons_of_mem _ ht)

end LiveSvg
