import LiveSvg.Proofs.Along
/-!
What jobs do around what they are for: they wait for the host, ask it, and tell of the outcome. A
relation that holds of this is kept to by every job, if it is where an acquired value is taken and
where an animation ends.
-/

namespace LiveSvg

open Script (Datum)

/-- Whether a job does anything but end an animation. -/
def Job.isTask : Job → Bool
  | .finishAnimation _ => false
  | .wake j => j.isTask
  | _ => true

/-- Whether a deed is one of a job that asks the host, apart from acquiring a value. -/
def Deed.isChore : Deed → Bool
  | .hand .. | .conclude .. | .endBatch _ | .delay _ | .expire _ => true
  | _ => false

/-- A relation that can be composed, holds of what jobs do around what they are for, and is kept to by
taking an acquired value. -/
structure Willing (R : World → World → Prop) (play : Player) : Prop extends Course R where
  chore {deed : Deed} : deed.isChore → Along R (Run.record deed)
  soon {j : Job} : j.isTask → Along R (Run.soon j)
  postpone {j : Job} : j.isTask → ∀ seconds, Along R (Run.postpone seconds j)
  host (w : World) {host : HostState} : host.actions = w.host.actions → R w { w with host }
  batches (w : World) (batches : Array Batch) : R w { w with visual := { w.visual with batches } }
  setBusy (busy : Bool) : Along R (Run.setBusy busy)
  tellOutcome (observer : Observer) (result : Except Failure Unit) :
    Along R (Run.tellOutcome observer result)
  concludeAcquisition {w : World} {getter : Nat} {g : Getter} :
    w.visual.getters[getter]? = some g → ∀ batch result,
      R w ((Run.concludeAcquisition play batch getter g.behavior result).after w)

/-- Such a relation that holds of whatever happens to the clock as well, and is kept to by ending an
animation. -/
structure Diligent (R : World → World → Prop) (play : Player) : Prop extends Willing R play where
  clock (w : World) (clock : Clock Job) : R w { w with clock }
  finish (n : Nat) : Along R (Run.finish play n)
  soon _ w := clock w _
  postpone _ _ := toCourse.bind toCourse.get fun _ => toCourse.bind (chore rfl) fun _ w => clock w _

namespace Run

/-- A host that is asked for a value changes in no way that anyone is told of. -/
theorem hostValue_after (label : Value) (w : World) : ∃ host : HostState,
    host.actions = w.host.actions ∧ (hostValue label).after w = { w with host } := by
  have hm : modifyHost (fun h => { h with requests := h.requests ++ [label] }) w = .ok ()
      { w with host := { w.host with requests := w.host.requests ++ [label] } } := rfl
  refine ⟨{ w.host with requests := w.host.requests ++ [label] }, rfl, ?_⟩
  unfold hostValue
  rw [after_bind_ok hm, after_get_bind]
  dsimp only
  cases labelled w.host.getErrors label with
  | error f => rfl
  | ok found =>
    cases found with
    | some message => rfl
    | none => cases labelled w.host.values label <;> rfl

end Run

namespace Willing

open Run

variable {R : World → World → Prop} {play : Player} (D : Willing R play)
include D

theorem modifyBatch (n : Nat) (f : Batch → Batch) : Along R (modifyBatch n f) := fun w => D.batches w _

theorem delayed {delays : Host.Delays} {label : Value} {now : Run Unit} {later : Job}
    {lost : Failure → Run Unit} {w : World} (hj : later.isTask) (hn : R w (now.after w))
    (hl : ∀ f, R w ((lost f).after w)) : R w ((delayed delays label now later lost).after w) := by
  unfold Run.delayed
  split
  · exact hl _
  · exact hn
  · split
    · exact D.soon hj _
    · exact D.postpone hj _ _

/-! ### Acquisition -/

theorem fetchValue (batch getter : Nat) : Along R (fetchValue play batch getter) := by
  intro w
  unfold Run.fetchValue
  rw [after_get_bind]
  cases hg : w.visual.getters[getter]? with
  | none => exact D.refl w
  | some g =>
    obtain ⟨r, hr⟩ := attempt_after (hostValue g.settings.label) w
    obtain ⟨host, ha, hh⟩ := hostValue_after g.settings.label w
    rw [hh] at hr
    dsimp only
    rw [after_bind_ok hr]
    exact D.trans (D.host w ha) (D.concludeAcquisition (w := { w with host }) hg batch r)

theorem collect (batch getter : Nat) : Along R (work play (.collect batch getter)) := by
  intro w
  change R w (Run.after (get >>= _) w)
  rw [after_get_bind]
  cases hg : w.visual.getters[getter]? with
  | none => exact D.refl w
  | some g =>
    exact D.delayed rfl (D.fetchValue batch getter w) fun f => D.concludeAcquisition hg batch (.error f)

/-! ### Dispatch -/

theorem concludeDispatch (setter : Nat) (value : Datum) (observer : Observer)
    (result : Except Failure Unit) : Along R (concludeDispatch setter value observer result) :=
  D.bind (D.chore rfl) fun _ => D.bind (D.setBusy _) fun _ => D.tellOutcome observer result

theorem sendValue (label : Value) (value : Datum) : Along R (sendValue label value) := by
  refine D.bind D.get fun w => D.bind (D.ofExcept _) fun r => ?_
  split
  · exact D.throw _
  · exact fun w => D.host w rfl

theorem deliver (setter : Nat) (value : Datum) (observer : Observer) :
    Along R (deliver setter value observer) := by
  refine D.bind D.get fun w => ?_
  split
  · exact D.pure _
  · exact D.bind (D.sendValue _ _).attempt fun _ => D.concludeDispatch _ _ _ _

theorem send (setter : Nat) (value : Datum) (observer : Observer) :
    Along R (work play (.send setter value observer)) := by
  refine D.bind (D.chore rfl) fun _ => D.bind D.get fun w => ?_
  split
  · exact D.pure _
  · exact D.bind D.get fun _ w => D.delayed rfl (D.deliver _ _ _ w) fun f => D.concludeDispatch _ _ _ _ w

/-! ### Turns -/

/-- Such a relation is kept to by every task. -/
theorem task {j : Job} (h : j.isTask) : Along R (work play j) := by
  cases j with
  | acquire batch =>
    exact D.bind D.get fun w => D.bind (D.modifyBatch _ _) fun _ => D.forM fun _ _ => D.soon rfl
  | collect batch getter => exact D.collect batch getter
  | fetch batch getter => exact D.fetchValue batch getter
  | settled batch =>
    refine D.bind (D.modifyBatch _ _) fun _ => D.bind D.get fun w => ?_
    split
    · exact .ite (D.soon rfl) (D.pure _)
    · exact D.pure _
  | finishBatch batch =>
    exact D.bind (D.chore rfl) fun _ => D.bind (D.setBusy _) fun _ => D.modifyBatch _ _
  | send setter value observer => exact D.send setter value observer
  | deliver setter value observer => exact D.deliver setter value observer
  | finishAnimation n => cases h
  | wake j => exact D.soon h

end Willing

namespace Diligent

open Run

variable {R : World → World → Prop} {play : Player} (D : Diligent R play)
include D

theorem work (j : Job) : Along R (work play j) := by
  cases j with
  | finishAnimation n => exact D.bind (D.chore rfl) fun _ => D.finish n
  | wake j => exact fun w => D.clock w _
  | _ => exact D.task rfl

theorem turn (hw : ∀ j, Along R (record (.work j))) : Along R (turn play) :=
  D.bind (.modifyGet fun w => D.clock w _) fun _ =>
    D.bind (D.forM fun j _ => D.bind (D.work j).attempt.discard fun _ => hw j) fun _ => D.pure _

end Diligent

end LiveSvg
