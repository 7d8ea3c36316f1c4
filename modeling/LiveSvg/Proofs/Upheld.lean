import LiveSvg.Proofs.Touch
/-!
Relations that whatever scripts do goes along. It is enough that small changes are in the relation,
and that the few operations which run scripts keep to it as long as those scripts do.
-/

namespace LiveSvg

open Number (Binary64)
open Script (Datum Act Ask Entity)

variable {R : World → World → Prop} {play : Player}

namespace Run

open Touches (course)

/-! ### Animations -/

theorem animation_some {n : Nat} {a : Animation} {w w' : World} (h : animation n w = .ok a w') :
    w' = w ∧ w.animations[n]? = some a := by
  unfold animation at h
  rw [get_bind] at h
  cases hb : w.animations[n]? with
  | none =>
    rw [hb] at h
    cases h
  | some b =>
    rw [hb] at h
    cases h
    exact ⟨rfl, rfl⟩

theorem animation_ok {n : Nat} {a : Animation} {w w' : World} (h : animation n w = .ok a w') :
    w' = w ∧ a ∈ w.animations := by
  obtain ⟨hw, ha⟩ := animation_some h
  exact ⟨hw, Array.mem_of_getElem? ha⟩

theorem animation_touches (n : Nat) : Along Touches (animation n) :=
  course.bind course.get fun w => by
    split
    · exact course.pure _
    · exact course.throw _

theorem waiting_touches (duration delay : Datum) : Along Touches (waiting duration delay) :=
  course.bind view_touches fun _ => course.bind (course.ofExcept _) fun _ => by
    split
    · exact wrong_touches _
    · refine course.bind (course.ofExcept _) fun _ => course.bind (course.ofExcept _) fun _ => ?_
      split
      · exact course.pure _
      · exact wrong_touches _

theorem applyChange_touches (id : Nat) (c : Change) : Along Touches (applyChange id c) :=
  Touches.plot.applyChange id c

theorem running_touches (id : Nat) : Along Touches (running id) :=
  course.bind course.get fun _ => course.pure _

theorem changeOf_touches (args : List Datum) : Along Touches (changeOf args) := by
  unfold changeOf
  split
  · refine course.bind view_touches fun v => ?_
    split
    · exact course.pure _
    · exact course.pure _
  · refine course.bind view_touches fun v => ?_
    split
    · exact course.pure _
    · exact course.pure _
  · exact wrong_touches _

/-! ### The context -/

theorem needElement_touches (d : Datum) (wanted : String) : Along Touches (needElement d wanted) := by
  unfold needElement
  split
  · exact course.pure _
  · exact course.throw _

theorem elementsOf_touches (d : Datum) : Along Touches (elementsOf d) :=
  course.bind view_touches fun _ => course.pure _

theorem formatted_touches (value : Datum) (options : List Datum) :
    Along Touches (formatted value options) :=
  course.bind view_touches fun v => by
    dsimp only
    split
    · exact course.pure _
    · refine course.bind (course.ofExcept _) fun r => ?_
      split
      · exact course.pure _
      · exact course.pure _

theorem formatValue_touches (args : List Datum) : Along Touches (formatValue args) := by
  cases args with
  | nil => exact wrong_touches _
  | cons value options => exact .ite (wrong_touches _) (formatted_touches value options)

theorem textTarget_touches (id : Nat) : Along Touches (textTarget? id) :=
  course.bind (drawing_touches _) fun d => by
    split
    · split
      · exact course.pure _
      · exact course.pure _
    · split
      · exact course.pure _
      · exact course.pure _

theorem setTexts_touches (elements value : Datum) : Along Touches (setTexts elements value) :=
  course.bind (elementsOf_touches _) fun _ => course.forM fun _ _ =>
    course.bind (needElement_touches _ _) fun _ => course.bind (textTarget_touches _) fun target => by
      split
      · exact setText_touches _ _
      · exact course.pure _

theorem fontOf_touches (description : Datum) : Along Touches (fontOf description) :=
  course.bind view_touches fun v => by
    split
    · exact course.throw _
    · dsimp only
      split
      · exact course.bind (course.pure _) fun _ => course.pure _
      · exact course.bind (course.pure _) fun _ => course.pure _
      · exact course.bind (course.ofExcept _) fun _ => course.bind (course.ofExcept _) fun _ =>
          course.bind (course.pure _) fun _ => course.pure _

theorem setFonts_touches (elements description color : Datum) :
    Along Touches (setFonts elements description color) := by
  refine course.bind (elementsOf_touches _) fun _ => course.forM fun e _ => ?_
  refine course.bind (needElement_touches _ _) fun id => course.bind (drawing_touches _) fun d => ?_
  have h : Along Touches (do
      if (← view).truthy color then discard (fill id [color]) : Run Unit) :=
    course.bind view_touches fun v => .ite (fill_touches _ _).discard (course.pure _)
  split
  · refine course.bind view_touches fun v => ?_
    split
    · exact course.bind (fontOf_touches _) fun _ => course.bind (setFont_touches _ _ _) fun _ => h
    · exact h
  · exact course.pure _

theorem setEnabled_touches (elements : Datum) (isEnabled : Bool) :
    Along Touches (setEnabled elements isEnabled) :=
  course.bind (elementsOf_touches _) fun _ => course.forM fun _ _ =>
    course.bind (needElement_touches _ _) fun _ => setAttr_touches _ _ _

/-! ### Members -/

theorem colorOf_touches (n : Nat) : Along Touches (colorOf n) :=
  course.bind course.get fun w => by
    split
    · exact course.pure _
    · exact course.throw _

theorem field_touches (e : Entity) (name : String) : Along Touches (field e name) := by
  unfold field
  split
  case h_20 =>
    refine course.bind (colorOf_touches _) fun c => ?_
    split
    · exact course.pure _
    · exact course.pure _
    · exact course.pure _
    · exact course.throw _
  all_goals first
    | exact course.pure _
    | exact course.throw _
    | exact course.bind (drawing_touches _) fun _ => course.pure _
    | exact course.bind (animation_touches _) fun _ => course.pure _
    | exact course.bind (colorOf_touches _) fun _ => course.pure _
    | exact course.bind (colorOf_touches _) fun _ => newList_touches _
    | exact course.bind course.get fun _ => course.pure _

theorem member_touches (e : Entity) (name : String) : Along Touches (member e name) :=
  .ite (course.pure _) (field_touches e name)

theorem invokeScene_touches (name : String) (args : List Datum) :
    Along Touches (invokeScene name args) := by
  unfold invokeScene
  split
  · exact taggedElements_touches
  · exact course.bind (tagValue_touches _) fun _ => course.bind (findByTag_touches _) fun _ =>
      newList_touches _
  · exact tagOf_touches _
  · exact course.bind (drawing_touches _) fun _ => course.pure _
  · exact course.bind (size_touches _ _) fun _ => course.pure _
  · exact styleOf_touches _
  · exact course.bind (setStyle_touches _ _) fun _ => course.pure _
  · exact course.bind (scale_touches _) fun _ => course.pure _
  · exact course.bind mount_touches fun _ => course.pure _
  · exact course.throw _
  · exact course.bind (drawing_touches _) fun _ => course.pure _
  · exact wrong_touches _

end Run

/-- What an animation brings about goes along a relation if remembering it does. -/
theorem Course.effect (C : Course R) {n : Nat} {e : Effect} {x : Run Unit}
    (hb : Along R (Run.record (.effect n e)))
    (he : ∀ result, Along R (Run.record (.effected n e result))) (hx : Along R x) :
    Along R (Run.effect n e x) :=
  C.bind hb fun _ => C.bind hx.attempt fun _ => C.bind (he _) fun _ => C.ofExcept _

namespace Mild

open Run

variable (M : Mild R)
include M

theorem recordBeat {deed : Deed} (h : deed.isTimely) : Along R (record deed) := fun w => M.beat (.record w h)

theorem setAnimation (n : Nat) {a : Animation} {w : World}
    (h : a.timer = none ∨ ∃ b ∈ w.animations, b.timer = a.timer) : R w ((setAnimation n a).after w) := by
  refine M.beat (.change w fun x hx => ?_)
  rcases Array.mem_or_eq_of_mem_setIfInBounds hx with hx | rfl
  · exact .inr ⟨x, hx, rfl⟩
  · exact h

theorem modifyAnimation (n : Nat) {f : Animation → Animation} (h : ∀ a, (f a).timer = a.timer) :
    Along R (modify fun w => { w with animations := w.animations.modify n f } : Run Unit) := by
  refine .modify fun w => M.beat (.change w fun x hx => ?_)
  obtain ⟨i, hi⟩ := Array.getElem?_of_mem hx
  rw [Array.getElem?_modify] at hi
  split at hi
  · obtain ⟨b, hb, rfl⟩ := Option.map_eq_some_iff.mp hi
    exact .inr ⟨b, Array.mem_of_getElem? hb, (h b).symm⟩
  · exact .inr ⟨x, Array.mem_of_getElem? hi, rfl⟩

theorem addAnimation (id : Nat) (duration delay : Datum) (seconds : Option Binary64) :
    Along R (addAnimation id duration delay seconds) := by
  refine M.bind M.get fun _ => M.bind (M.recordBeat rfl) fun _ => .modifyGet fun w => ?_
  cases seconds with
  | some seconds => exact M.beat (.animate w seconds { element := id, duration, delay })
  | none =>
    refine M.beat (.change w fun x hx => ?_)
    rcases Array.mem_or_eq_of_mem_push hx with hx | rfl
    · exact .inr ⟨x, hx, rfl⟩
    · exact .inl rfl

theorem animate (id : Nat) (duration delay : Datum) : Along R (animate id duration delay) := by
  refine M.bind M.get fun w => ?_
  split
  · exact M.bind ((M.touches (waiting_touches _ _)).map _) fun _ => M.addAnimation _ _ _ _
  · exact M.bind (M.pure _) fun _ => M.addAnimation _ _ _ _

theorem effect (n : Nat) (e : Effect) {x : Run Unit} (hx : Along R x) : Along R (effect n e x) :=
  M.toCourse.effect (M.recordBeat rfl) (fun _ => M.recordBeat rfl) hx

theorem change (n id : Nat) (c : Change) : Along R (change n id c) :=
  M.effect n _ (M.touches (applyChange_touches id c))

theorem queue (n : Nat) (c : Change) : Along R (queue n c) := by
  refine fun w => M.seq (M.touches (animation_touches n) w) fun a w' h => ?_
  obtain ⟨rfl, ha⟩ := animation_ok h
  refine M.seq (M.recordBeat rfl w') fun _ w₁ h₁ => ?_
  cases h₁
  split
  · exact M.change _ _ _ _
  · exact M.setAnimation n (.inr ⟨a, ha, rfl⟩)

variable (hp : ∀ act, Along R (play act))
include hp

theorem callBack (n : Nat) (callback : Datum) : Along R (callBack play n callback) :=
  M.effect n _ (hp _).discard

theorem finish (n : Nat) : Along R (finish play n) := by
  refine fun w => M.seq (M.touches (animation_touches n) w) fun a w' h => ?_
  obtain ⟨rfl, ha⟩ := animation_ok h
  split
  · exact M.refl _
  refine M.seq (M.recordBeat rfl w') fun _ w₁ h₁ => ?_
  cases h₁
  refine M.seq ?_ fun _ w₂ _ => ?_
  · cases ht : a.timer with
    | none => exact M.refl _
    | some timer => exact M.beat (.cancel ((Run.record (.cease n)).after w') ha ht)
  · refine M.bind (fun w => M.setAnimation n (.inl rfl)) (fun _ => ?_) w₂
    refine M.bind (M.forM fun c _ => M.change n _ c) fun _ => ?_
    refine M.bind (M.modifyAnimation n fun _ => rfl) fun _ => ?_
    refine M.bind (M.forM fun callback _ => M.callBack hp n callback) fun _ => ?_
    exact M.modifyAnimation n fun _ => rfl

theorem stop (n : Nat) : Along R (stop play n) := M.bind (M.recordBeat rfl) fun _ => M.finish hp n

theorem afterwards (n : Nat) (callback : Datum) : Along R (afterwards play n callback) := by
  refine fun w => M.seq (M.touches (animation_touches n) w) fun a w' h => ?_
  obtain ⟨rfl, ha⟩ := animation_ok h
  refine M.seq (M.recordBeat rfl w') fun _ w₁ h₁ => ?_
  cases h₁
  split
  · exact M.callBack hp n callback _
  · exact M.setAnimation n (.inr ⟨a, ha, rfl⟩)

end Mild

/-- A relation for runs of scripts: it can be composed, holds of small changes that leave animations
alone, and is kept to by what is done with animations, and by what runs scripts if it is kept to by the
scripts. -/
structure Obeyed (R : World → World → Prop) : Prop extends Gentle R where
  store (r : Script.Ref) (c : Script.Contents) : Along R (Run.store r c)
  action {play : Player} : (∀ act, Along R (play act)) → ∀ n event, Along R (Run.runAction play n event)
  color {play : Player} : (∀ act, Along R (play act)) → ∀ n value, Along R (Run.updateColor play n value)
  propose {play : Player} : (∀ act, Along R (play act)) → ∀ id value, Along R (Run.propose play id value)
  call (event id value : Datum) (observer : Observer) : Along R (Run.callAction event id value observer)
  animate (id : Nat) (duration delay : Datum) : Along R (Run.animate id duration delay)
  queue (n : Nat) (c : Change) : Along R (Run.queue n c)
  stop {play : Player} : (∀ act, Along R (play act)) → ∀ n, Along R (Run.stop play n)
  afterwards {play : Player} : (∀ act, Along R (play act)) →
    ∀ n callback, Along R (Run.afterwards play n callback)

namespace Obeyed

open Run

variable (O : Obeyed R)
include O

variable (hp : ∀ act, Along R (play act))
include hp

theorem fire (id : Nat) (trigger event : Datum) : Along R (fire play id trigger event) :=
  O.bind (O.touches (listeners_touches _ _)) fun _ => O.forM fun _ _ => (hp _).discard

theorem finishAll (id : Nat) : Along R (finishAll play id) :=
  O.bind (O.touches (running_touches id)) fun _ => O.forM fun n _ => O.stop hp n

theorem animateNext (e duration : Datum) : Along R (animateNext play e duration) :=
  O.bind (O.touches (needElement_touches _ _)) fun _ => O.bind (O.finishAll hp _) fun _ =>
    O.bind (O.animate _ _ _) fun _ => O.pure _

theorem invokeElement (id : Nat) (name : String) (args : List Datum) :
    Along R (invokeElement play id name args) := by
  unfold Run.invokeElement
  split
  · exact O.touches (attr_touches _ _)
  · exact O.touches (children_touches _)
  · exact O.touches (parent_touches _)
  · exact O.touches (text_touches _ _)
  · exact O.touches (font_touches _ _)
  · exact O.touches (fill_touches _ _)
  · exact O.bind (O.touches (listen_touches _ _ _)) fun _ => O.pure _
  · exact O.bind (O.touches (ignore_touches _ _)) fun _ => O.pure _
  · exact O.bind (O.touches (listeners_touches _ _)) fun _ => O.touches (newList_touches _)
  · exact O.bind (O.fire hp _ _ _) fun _ => O.pure _
  · exact O.bind (O.fire hp _ _ _) fun _ => O.pure _
  · exact O.pure _
  · exact O.bind (O.animate _ _ _) fun _ => O.pure _
  · exact O.bind (O.animate _ _ _) fun _ => O.pure _
  · exact O.bind (O.animate _ _ _) fun _ => O.pure _
  · exact O.touches (wrong_touches _)

theorem invokeApi (name : String) (args : List Datum) : Along R (invokeApi play name args) := by
  unfold Run.invokeApi
  split
  · exact O.touches (formatValue_touches _)
  · exact O.bind (O.touches (setTexts_touches _ _)) fun _ => O.pure _
  · exact O.bind (O.touches (setFonts_touches _ _ _)) fun _ => O.pure _
  · exact O.bind (O.touches (setFonts_touches _ _ _)) fun _ => O.pure _
  · exact O.animateNext hp _ _
  · exact O.bind (O.touches (setEnabled_touches _ _)) fun _ => O.pure _
  · exact O.bind (O.touches (setEnabled_touches _ _)) fun _ => O.pure _
  · exact O.call _ _ _ _
  · exact O.call _ _ _ _
  · exact O.call _ _ _ _
  · exact O.bind (O.propose hp _ _) fun _ => O.pure _
  · exact O.touches (wrong_touches _)

theorem invokeAnimation (n : Nat) (name : String) (args : List Datum) :
    Along R (invokeAnimation play n name args) := by
  unfold Run.invokeAnimation
  dsimp only
  split
  · exact O.bind (O.touches (changeOf_touches _)) fun _ =>
      O.bind (O.queue _ _) fun _ => O.pure _
  · exact O.bind (O.queue _ _) fun _ => O.pure _
  · exact O.bind (O.afterwards hp _ _) fun _ => O.pure _
  · exact O.bind (O.stop hp _) fun _ => O.pure _
  · exact O.touches (wrong_touches _)

theorem invoke (e : Entity) (name : String) (args : List Datum) :
    Along R (invoke play e name args) := by
  unfold Run.invoke
  split
  · exact O.invokeElement hp _ _ _
  · exact O.touches (invokeScene_touches _ _)
  · exact O.invokeApi hp _ _
  · exact O.invokeAnimation hp _ _ _
  · exact O.bind (O.finishAll hp _) fun _ => O.pure _
  · exact O.color hp _ _
  · exact O.bind (fun w => O.touch (.mount w _ w.isMounted)) fun _ => O.pure _
  · exact O.touches (wrong_touches _)

theorem apply (e : Entity) (args : List Datum) : Along R (apply play e args) := by
  unfold Run.apply
  split
  · exact O.bind (O.action hp _ _) fun _ => O.pure _
  · exact O.bind (O.touches (note_touches rfl)) fun _ => O.pure _
  · exact O.bind (O.touches (note_touches rfl)) fun _ => O.pure _
  · exact O.touches (wrong_touches _)

theorem answer (q : Ask) : Along R (answer play q) := by
  cases q with
  | view => exact O.touches view_touches
  | create c => exact O.touches (make_touches c)
  | store r c => exact O.store r c
  | get e name => exact (O.touches (member_touches e name)).attempt
  | invoke e name args =>
    exact O.bind (fun w => O.touch (.ask w e name args)) fun _ => (O.invoke hp e name args).attempt
  | apply e args => exact (O.apply hp e args).attempt

omit hp

/-- Scripts keep to the relation, however deep they run one another. -/
theorem playWithin (levels : Nat) (act : Act Datum) : Along R (playWithin levels act) := by
  induction levels generalizing act with
  | zero => exact O.throw _
  | succ levels ih =>
    change Along R (act.run (Run.answer (Run.playWithin levels)) MonadExcept.throw)
    induction act with
    | done a => exact O.pure a
    | fail f => exact O.throw f
    | ask q next ih' => exact O.bind (O.answer ih q) ih'

theorem plays (act : Act Datum) : Along R (Run.play act) := O.playWithin _ act

end Obeyed

/-- A relation for runs of scripts: it can be composed, holds of small changes, and is kept to by
what runs scripts if it is kept to by the scripts. -/
structure Upheld (R : World → World → Prop) : Prop extends Mild R where
  store (r : Script.Ref) (c : Script.Contents) : Along R (Run.store r c)
  action {play : Player} : (∀ act, Along R (play act)) → ∀ n event, Along R (Run.runAction play n event)
  color {play : Player} : (∀ act, Along R (play act)) → ∀ n value, Along R (Run.updateColor play n value)
  propose {play : Player} : (∀ act, Along R (play act)) → ∀ id value, Along R (Run.propose play id value)
  call (event id value : Datum) (observer : Observer) : Along R (Run.callAction event id value observer)

namespace Upheld

variable (U : Upheld R)
include U

theorem obeyed : Obeyed R where
  toGentle := U.toGentle
  store := U.store
  action := U.action
  color := U.color
  propose := U.propose
  call := U.call
  animate := U.toMild.animate
  queue := U.toMild.queue
  stop := U.toMild.stop
  afterwards := U.toMild.afterwards

theorem plays (act : Act Datum) : Along R (Run.play act) := U.obeyed.plays act

theorem fire (hp : ∀ act, Along R (play act)) (id : Nat) (trigger event : Datum) :
    Along R (Run.fire play id trigger event) :=
  U.obeyed.fire hp id trigger event

end Upheld

end LiveSvg
