import LiveSvg.Proofs.Steady
/-!
What still comes to pass once a visual has been destroyed. Jobs go on, and are written down, but each
entry point is guarded: no matter in which order they come, only small changes are left of them. What
listeners and callbacks do in addition is up to the relation that is followed.
-/

namespace LiveSvg

open Number (Binary64)
open Script (Datum Memory)

/-- The visual is destroyed, and the cell that tells whether it is busy is closed. -/
structure World.isGone (w : World) : Prop where
  destroyed : w.visual.isDestroyed = true
  closed : w.visual.loading.isClosed = true

/-- Whether a deed is one that is still done for a destroyed visual, without any script. -/
def Deed.isLate : Deed → Bool
  | .draw _ | .hand .. | .conclude .. | .acquire .. | .endBatch _ | .work _ => true
  | .delay _ | .expire _ => true
  | _ => false

/-- A small change that a destroyed visual still makes. -/
inductive Ripple : World → World → Prop where
  | grow (w : World) {m : Memory} : w.memory.Grows m → Ripple w { w with memory := m }
  | draw (w : World) (d : Drawing) : Ripple w ((Run.setDrawing d).after w)
  | log (w : World) (log : Log) : Ripple w { w with log }
  | record (w : World) {deed : Deed} : deed.isLate → Ripple w ((Run.record deed).after w)
  | clock (w : World) (clock : Clock Job) : Ripple w { w with clock }
  | host (w : World) {host : HostState} : host.actions = w.host.actions → Ripple w { w with host }
  | mount (w : World) (mounts : Nat) (isMounted : Bool) : Ripple w { w with mounts, isMounted }
  | shape (w : World) (box : Drawing.Box) (scale : Option Binary64) (target : Value × Value)
    (hasContainer : Bool) :
    Ripple w { w with visual := { w.visual with box, scale, target, hasContainer } }
  | batches (w : World) (batches : Array Batch) :
    Ripple w { w with visual := { w.visual with batches } }

def Ripples : World → World → Prop := Relation.ReflTransGen Ripple

/-- From a destroyed visual, small changes lead to another one. -/
def Fading (a b : World) : Prop := a.isGone → Ripples a b

variable {R : World → World → Prop} {play : Player} {a b w : World}

theorem Ripple.gone (h : Ripple a b) (g : a.isGone) : b.isGone := by
  cases h <;> exact ⟨g.destroyed, g.closed⟩

/-- A relation that can be composed and holds of small changes holds of any number of them. -/
theorem Ripples.lift (C : Course R) (h : ∀ {a b}, Ripple a b → R a b) (r : Ripples a b) : R a b := by
  induction r with
  | refl => exact C.refl a
  | tail _ s ih => exact C.trans ih (h s)

theorem Ripples.gone (h : Ripples a b) (g : a.isGone) : b.isGone :=
  h.lift (R := fun a b => a.isGone → b.isGone) (.keeps _) Ripple.gone g

namespace Fading

open Run

theorem course : Course Fading where
  refl _ _ := .refl
  trans h k g := (h g).trans (k ((h g).gone g))

theorem ripple (h : Ripple a b) : Fading a b := fun _ => .single h

theorem framed : Framed Fading where
  toCourse := course
  grow w _ h := ripple (.grow w h)
  draw w d := ripple (.draw w d)
  mount w _ _ := ripple (.mount w _ _)
  shape h := ripple (by cases h <;> exact .shape _ _ _ _ _)

theorem aimed : Aimed Fading := fun w _ => ripple (.shape w _ _ _ _)

/-- What leaves a destroyed visual as it is. -/
theorem guarded {α : Type} {x : Run α} (h : ∀ w, w.isGone → x.after w = w) : Along Fading x := by
  intro w g
  rw [h w g]
  exact .refl

theorem record {deed : Deed} (h : deed.isLate) : Along Fading (record deed) :=
  fun w => ripple (.record w h)

theorem logEntry (e : Log.Entry) : Along Fading (logEntry e) := fun w => ripple (.log w _)

theorem clock (f : World → Clock Job) :
    Along Fading (modify fun w => { w with clock := f w } : Run Unit) := fun w => ripple (.clock w _)

theorem soon (j : Job) : Along Fading (soon j) := clock _

theorem modifyHost {f : HostState → HostState} (h : ∀ host, (f host).actions = host.actions) :
    Along Fading (modifyHost f) := fun w => ripple (.host w (h _))

theorem modifyBatch (n : Nat) (f : Batch → Batch) : Along Fading (modifyBatch n f) :=
  fun w => ripple (.batches w _)

/-! ### Entry points -/

/-- A closed cell takes no value, and has no one to tell. -/
theorem setBusy (busy : Bool) : Along Fading (setBusy busy) := by
  refine guarded fun w g => ?_
  change { w with visual := { w.visual with
    loading := (w.visual.loading.next busy).1
    busy := w.visual.busy ++ (w.visual.loading.next busy).2.map fun _ => busy } } = w
  unfold Cell.next
  rw [if_pos g.closed]
  simp

theorem render : Along Fading (render play) := by
  refine guarded fun w g => ?_
  unfold Run.render
  rw [after_get_bind, g.destroyed, Bool.or_true]
  split <;> rfl

theorem setValue (id value : Datum) : Along Fading (setValue play id value) := by
  refine guarded fun w g => ?_
  unfold Run.setValue
  rw [after_get_bind, if_pos g.destroyed]
  rfl

theorem runAction (n : Nat) (event : Datum) : Along Fading (runAction play n event) := by
  refine guarded fun w g => ?_
  unfold Run.runAction
  rw [after_get_bind, if_pos g.destroyed]
  rfl

theorem callAction (event id value : Datum) (observer : Observer) :
    Along Fading (callAction event id value observer) := by
  refine guarded fun w g => ?_
  unfold Run.callAction
  rw [after_get_bind, if_pos g.destroyed]
  rfl

/-- A value that comes too late is dropped. -/
theorem onValue (behavior : Value) (value : Datum) : Along Fading (onValue play behavior value) := by
  intro w g
  unfold Run.onValue
  rw [after_get_bind, if_pos g.destroyed]
  exact logEntry _ w g

/-- So is the failure to get one. -/
theorem onAcquisitionError (f : Failure) : Along Fading (onAcquisitionError f) := by
  intro w g
  unfold Run.onAcquisitionError
  rw [after_get_bind, if_pos g.destroyed]
  exact logEntry _ w g

theorem tellOutcome (observer : Observer) (result : Except Failure Unit) :
    Along Fading (tellOutcome observer result) := by
  intro w g
  unfold Run.tellOutcome
  rw [after_get_bind, g.destroyed]
  cases result with
  | ok => exact .refl
  | error f => exact logEntry _ w g

theorem concludeAcquisition (batch getter : Nat) (behavior : Value) (result : Except Failure Datum) :
    Along Fading (concludeAcquisition play batch getter behavior result) := by
  refine course.bind (record rfl) fun _ => ?_
  cases result with
  | ok value => exact course.bind (onValue behavior value).attempt.discard fun _ => soon _
  | error f => exact course.bind (onAcquisitionError f) fun _ => soon _

end Fading

/-- A relation for whole runs of a destroyed visual: it can be composed, holds of the small changes
that such a visual still makes, and is kept to where listeners or callbacks are called. -/
structure Muffled (R : World → World → Prop) : Prop extends Course R where
  fading {a b : World} : Fading a b → R a b
  fire (id : Nat) (trigger event : Datum) : Along R (Run.fire Run.play id trigger event)
  finish (n : Nat) : Along R (Run.finish Run.play n)

/-- Whether a step is one that can come from outside once a visual is destroyed: it runs no code of
its own, and leaves to the host the actions that it was asked for. -/
def Step.isOutside : Step → Prop
  | .script _ => False
  | .host change => ∀ host, (change host).actions = host.actions
  | _ => True

namespace Muffled

open Run Fading

variable (M : Muffled R)
include M

theorem fades {α : Type} {x : Run α} (h : Along Fading x) : Along R x := h.mono M.fading

/-- Every job is guarded, whatever it has waited for in the meantime. -/
theorem diligent : Diligent R Run.play where
  toCourse := M.toCourse
  chore {deed} h := M.fades (record (by cases deed <;> first | rfl | cases h))
  clock w clock := M.fading (ripple (.clock w clock))
  host w _ h := M.fading (ripple (.host w h))
  batches w batches := M.fading (ripple (.batches w batches))
  setBusy busy := M.fades (Fading.setBusy busy)
  tellOutcome observer result := M.fades (Fading.tellOutcome observer result)
  concludeAcquisition _ batch result := M.fades (Fading.concludeAcquisition batch _ _ result) _
  finish := M.finish

theorem turn : Along R (turn Run.play) := M.diligent.turn fun _ => M.fades (record rfl)

theorem step {s : Step} (h : s.isOutside) : Along R s.run := by
  have F := Fading.framed
  cases s with
  | set id value => exact M.fades (F.bind (F.load _) fun _ => F.bind (F.load _) fun _ => setValue _ _)
  | call event id value observer =>
    exact M.fades (F.bind (F.load _) fun _ => F.bind (F.load _) fun _ => F.bind (F.load _) fun _ =>
      (Fading.callAction _ _ _ _).discard)
  | fire element trigger event =>
    exact M.bind (M.fades (F.load _)) fun _ => M.bind (M.fades (F.load _)) fun _ => M.fire _ _ _
  | script act => exact h.elim
  | render => exact M.fades Fading.render
  | size width height => exact M.fades (F.setSize Fading.aimed width height)
  | resize => exact M.fades F.resize
  | mount => exact M.fades F.addTo
  | host change => exact M.fades (modifyHost h)
  | turn => exact M.turn.discard
  | wait seconds => exact M.fades (clock _)
  | destroy =>
    refine M.fades (guarded fun w g => ?_)
    change Run.destroy.after w = w
    unfold Run.destroy
    rw [after_get_bind, if_pos g.destroyed]
    rfl

end Muffled

end LiveSvg
