import LiveSvg.Proofs.Along
import LiveSvg.Proofs.Memory
import Mathlib.Logic.Relation
/-!
The small changes that scripts can make to a world without running other scripts. Everything that
scripts can ask for is made of them, apart from what runs scripts in turn and from storing into lists
and objects. Those of animations are a kind of their own.
-/

namespace LiveSvg

open Number (Binary64)
open Script (Datum Memory Contents)

/-- What an observer is told, in contrast to what scripts tell. -/
def Note.isVerdict : Note → Bool
  | .next => true
  | .error _ => true
  | _ => false

/-- Whether a deed is one by which listeners are changed. -/
def Deed.isHook : Deed → Bool
  | .listen .. | .ignore .. => true
  | _ => false

/-- Whether a deed is one of scripts around an animation. -/
def Deed.isTimely : Deed → Bool
  | .animate .. | .queue .. | .await .. | .stop _ | .cease _ | .effect .. | .effected .. => true
  | _ => false

/-- A small change that has nothing to do with animations. -/
inductive Touch : World → World → Prop where
  | ask (w : World) (e : Script.Entity) (name : String) (args : List Datum) :
    Touch w ((Run.record (.invoke e name args)).after w)
  | grow (w : World) {m : Memory} : w.memory.Grows m → Touch w { w with memory := m }
  | draw (w : World) (d : Drawing) : Touch w ((Run.setDrawing d).after w)
  | log (w : World) (log : Log) : Touch w { w with log }
  | note (w : World) {n : Note} : n.isVerdict = false → Touch w { w with notes := w.notes ++ [n] }
  | listen (w : World) {deed : Deed} (listeners : List (Nat × List (Datum × List Datum))) :
    deed.isHook → Touch w { w with listeners, past := ⟨deed, w.toSituation⟩ :: w.past }
  | color (w : World) (n : Nat) (current : Datum) :
    Touch w { w with colors := w.colors.modify n fun c => { c with current } }
  | mount (w : World) (mounts : Nat) (isMounted : Bool) : Touch w { w with mounts, isMounted }

/-- A small change of the animations. -/
inductive Beat : World → World → Prop where
  | record (w : World) {deed : Deed} : deed.isTimely → Beat w ((Run.record deed).after w)
  | animate (w : World) (seconds : Binary64) (a : Animation) :
    Beat w { w with
      clock := (w.clock.after seconds (.finishAnimation w.animations.size)).1
      animations := w.animations.push { a with timer := some w.clock.nextId } }
  | change (w : World) {animations : Array Animation} :
    (∀ a ∈ animations, a.timer = none ∨ ∃ b ∈ w.animations, b.timer = a.timer) →
      Beat w { w with animations }
  | cancel (w : World) {a : Animation} {timer : Nat} : a ∈ w.animations → a.timer = some timer →
    Beat w { w with clock := w.clock.cancel timer }

/-- Any number of small changes, one after another. -/
def Touches : World → World → Prop := Relation.ReflTransGen Touch

theorem Touches.course : Course Touches where
  refl _ := .refl
  trans := .trans

theorem Touch.touches {a b : World} (h : Touch a b) : Touches a b := .single h

/-- A relation that can be composed and holds of small changes holds of any number of them. -/
theorem Touches.lift {R : World → World → Prop} (C : Course R) (h : ∀ {a b}, Touch a b → R a b)
    {a b : World} (t : Touches a b) : R a b := by
  induction t with
  | refl => exact C.refl a
  | tail _ s ih => exact C.trans ih (h s)

/-- What changes the size and the place of a visual apart from the size that is asked for: it gets the box of
a drawing, the scale of that box for the size that is asked for, or a container. -/
inductive Reshape : World → World → Prop where
  | frame (w : World) (d : Drawing) : Reshape w { w with visual := { w.visual with box := d.box } }
  | fit (w : World) {x : Binary64} : w.visual.box.isEmpty = false →
    Run.scaleFor w.visual.box w.visual.target.1 w.visual.target.2 = .ok x →
      Reshape w { w with visual := { w.visual with scale := some x } }
  | contain (w : World) : Reshape w { w with visual := { w.visual with hasContainer := true } }

/-- A relation that holds when another size is asked for. -/
def Aimed (R : World → World → Prop) : Prop :=
  ∀ (w : World) (target : Value × Value), R w { w with visual := { w.visual with target } }

/-- A relation that can be composed and holds of small changes that leave animations alone, of what the
host does apart from being asked for an action, and of changes of the size and the place of the visual. -/
structure Gentle (R : World → World → Prop) : Prop extends Course R where
  touch {a b : World} : Touch a b → R a b
  host (w : World) {host : HostState} : host.actions = w.host.actions → R w { w with host }
  shape {a b : World} : Reshape a b → R a b

/-- Such a relation that holds of small changes of animations as well. -/
structure Mild (R : World → World → Prop) : Prop extends Gentle R where
  beat {a b : World} : Beat a b → R a b

/-- A relation that can be composed and holds of new lists and objects and of new drawings. -/
structure Plot (R : World → World → Prop) : Prop extends Course R where
  grow (w : World) {m : Memory} : w.memory.Grows m → R w { w with memory := m }
  draw (w : World) (d : Drawing) : R w ((Run.setDrawing d).after w)

/-- A relation that can be composed and holds of new lists, objects and drawings, and of changes of the
size and the place of the visual. -/
structure Framed (R : World → World → Prop) : Prop extends Plot R where
  mount (w : World) (mounts : Nat) (isMounted : Bool) : R w { w with mounts, isMounted }
  shape {a b : World} : Reshape a b → R a b

theorem Touches.plot : Plot Touches where
  toCourse := course
  grow w _ h := (Touch.grow w h).touches
  draw w d := (Touch.draw w d).touches

theorem Gentle.framed {R : World → World → Prop} (G : Gentle R) : Framed R where
  toCourse := G.toCourse
  grow w _ h := G.touch (.grow w h)
  draw w d := G.touch (.draw w d)
  mount w _ _ := G.touch (.mount w _ _)
  shape := G.shape

theorem Gentle.touches {R : World → World → Prop} (G : Gentle R) {α : Type} {x : Run α}
    (h : Along Touches x) : Along R x :=
  h.mono (Touches.lift G.toCourse G.touch)

namespace Plot

open Run

variable {R : World → World → Prop} (P : Plot R)
include P

theorem drawing (wanted : String) : Along R (drawing wanted) :=
  P.bind P.get fun w => by
    split
    · exact P.pure _
    · exact P.throw _

theorem view : Along R view := P.bind P.get fun _ => P.pure _

theorem make (c : Contents) : Along R (make c) := .modifyGet fun w => P.grow w (Memory.add_grows _ c)

theorem create (c : Contents) : Along R (create c) := P.bind (P.make c) fun _ => P.pure _

theorem load (v : Value) : Along R (load v) := .modifyGet fun w => P.grow w (Memory.load_grows _ v)

theorem needKey (d : Datum) : Along R (needKey d) := .ite (P.throw _) (P.pure _)

/-! ### Elements -/

theorem getAttr (id : Nat) (name : Datum) : Along R (getAttr id name) :=
  P.bind (P.drawing _) fun _ => P.bind (P.ofExcept _) fun _ => P.bind (P.ofExcept _) fun _ => P.pure _

theorem setAttr (id : Nat) (name value : Datum) : Along R (setAttr id name value) :=
  P.bind (P.drawing _) fun _ => P.bind (P.ofExcept _) fun _ => P.bind P.view fun _ =>
    P.bind (P.ofExcept _) fun _ => P.bind (P.ofExcept _) fun d w => P.draw w d

theorem allAttrs (id : Nat) : Along R (allAttrs id) := P.bind (P.drawing _) fun _ => P.create _

theorem attr (id : Nat) (args : List Datum) : Along R (attr id args) := by
  unfold Run.attr
  split
  · exact P.allAttrs id
  · refine P.bind P.view fun v => ?_
    split
    · exact P.allAttrs id
    · exact P.bind (P.forM fun _ _ => P.setAttr _ _ _) fun _ => P.pure _
    · exact P.getAttr _ _
    · exact P.bind (P.setAttr _ _ _) fun _ => P.pure _
    · exact P.throw _

theorem fill (id : Nat) (args : List Datum) : Along R (fill id args) := by
  unfold Run.fill
  split
  · exact P.getAttr _ _
  · exact P.getAttr _ _
  · exact P.bind (P.setAttr _ _ _) fun _ => P.pure _
  · exact P.throw _

theorem applyChange (id : Nat) (c : Change) : Along R (applyChange id c) := by
  cases c with
  | attr args => exact (P.attr id args).discard
  | fill color => exact (P.fill id [color]).discard

/-! ### The drawing as a whole -/

theorem setStyle (name value : Datum) : Along R (setStyle name value) :=
  P.bind (P.drawing _) fun _ => P.bind (P.needKey _) fun _ => by
    split
    · exact P.bind (P.ofExcept _) fun d w => P.draw w d
    · exact P.bind P.view fun _ => P.bind (P.ofExcept _) fun _ =>
        P.bind (P.ofExcept _) fun d w => P.draw w d
    · exact P.bind (P.ofExcept _) fun d w => P.draw w d
    · exact P.bind P.view fun _ => P.bind (P.ofExcept _) fun _ => P.bind (P.ofExcept _) fun _ =>
        P.bind (P.ofExcept _) fun d w => P.draw w d

theorem scale (factor : Datum) : Along R (scale factor) := P.bind (P.ofExcept _) fun _ => P.setStyle _ _

end Plot

namespace Framed

open Run

variable {R : World → World → Prop} (F : Framed R)
include F

theorem resize : Along R resize := by
  intro w
  unfold Run.resize
  rw [after_get_bind]
  dsimp only
  rw [after_ite]
  split
  · exact F.refl w
  · next hsize =>
    have hb : w.visual.box.isEmpty = false := by
      rw [Bool.or_eq_true, not_or] at hsize
      exact Bool.eq_false_iff.mpr hsize.2
    cases hx : scaleFor w.visual.box w.visual.target.1 w.visual.target.2 with
    | error f => exact F.refl w
    | ok x =>
      rw [after_ofExcept_ok_bind, after_modifyVisual_bind]
      exact F.trans (F.shape (.fit w hb hx)) (F.scale _ _)

theorem setSize (aim : Aimed R) (width height : Value) : Along R (setSize width height) :=
  F.bind (fun w => aim w (width, height)) fun _ => F.bind F.get fun _ => .ite F.resize (F.pure _)

theorem addTo : Along R addTo :=
  F.bind (fun w => F.shape (.contain w)) fun _ => F.bind F.get fun _ => .ite (fun w => F.mount w _ _) (F.pure _)

end Framed

namespace Run

open Touches (course plot)

/-! ### The parts of a world -/

theorem drawing_touches (wanted : String) : Along Touches (drawing wanted) := plot.drawing wanted

theorem view_touches : Along Touches view := plot.view

theorem make_touches (c : Contents) : Along Touches (make c) := plot.make c

theorem create_touches (c : Contents) : Along Touches (create c) := plot.create c

theorem newList_touches (items : List Datum) : Along Touches (newList items) := create_touches _

theorem load_touches (v : Value) : Along Touches (load v) := plot.load v

theorem setDrawing_touches (d : Drawing) : Along Touches (setDrawing d) := fun w => plot.draw w d

theorem note_touches {n : Note} (h : n.isVerdict = false) : Along Touches (note n) :=
  fun w => (Touch.note w h).touches

theorem logEntry_touches (e : Log.Entry) : Along Touches (logEntry e) :=
  fun w => (Touch.log w _).touches

theorem logged_touches {α : Type} (r : Log × Except Failure α) : Along Touches (logged r) :=
  course.bind (fun w => (Touch.log w _).touches) fun _ => course.ofExcept _

theorem wrong_touches {α : Type} (message : String) : Along Touches (wrong message : Run α) :=
  course.throw _

/-! ### Elements -/

theorem getAttr_touches (id : Nat) (name : Datum) : Along Touches (getAttr id name) :=
  plot.getAttr id name

theorem setAttr_touches (id : Nat) (name value : Datum) : Along Touches (setAttr id name value) :=
  plot.setAttr id name value

theorem attr_touches (id : Nat) (args : List Datum) : Along Touches (attr id args) := plot.attr id args

theorem children_touches (id : Nat) : Along Touches (children id) :=
  course.bind (drawing_touches _) fun _ => newList_touches _

theorem parent_touches (id : Nat) : Along Touches (parent id) :=
  course.bind (drawing_touches _) fun _ => by
    split
    · exact course.pure _
    · exact course.pure _

theorem putText_touches (id : Nat) (t : Except Failure String) : Along Touches (putText id t) :=
  course.bind (drawing_touches _) fun d => by
    split
    · exact course.bind (setDrawing_touches _) fun _ => course.ofExcept _
    · exact course.bind (setDrawing_touches _) fun _ => course.throw _

theorem setText_touches (id : Nat) (value : Datum) : Along Touches (setText id value) := by
  unfold setText
  split
  · exact putText_touches _ _
  · exact course.bind view_touches fun _ => putText_touches _ _

theorem text_touches (id : Nat) (args : List Datum) : Along Touches (text id args) := by
  unfold text
  split
  · exact course.bind (drawing_touches _) fun _ => course.pure _
  · exact course.bind (setText_touches _ _) fun _ => course.pure _
  · exact wrong_touches _

theorem setFont_touches (fuel id : Nat) (font : Font) : Along Touches (setFont fuel id font) := by
  induction fuel generalizing font with
  | zero => exact course.throw _
  | succ fuel ih =>
    refine course.bind view_touches fun v => ?_
    split
    · exact course.bind (course.ofExcept _) fun _ => ih _
    · refine course.forM fun (name, value) _ => ?_
      dsimp only
      split
      · exact course.pure _
      · exact setAttr_touches _ _ _

theorem font_touches (id : Nat) (args : List Datum) : Along Touches (font id args) := by
  unfold font
  split
  · exact course.bind (wrong_touches _) fun _ =>
      course.bind (setFont_touches _ _ _) fun _ => course.pure _
  · exact course.bind (setFont_touches _ _ _) fun _ => course.pure _

theorem fill_touches (id : Nat) (args : List Datum) : Along Touches (fill id args) := plot.fill id args

theorem needKey_touches (d : Datum) : Along Touches (needKey d) := plot.needKey d

theorem listenersOf_touches (id : Nat) : Along Touches (listenersOf id) :=
  course.bind course.get fun _ => course.pure _

theorem listeners_touches (id : Nat) (trigger : Datum) : Along Touches (listeners id trigger) :=
  course.bind (needKey_touches _) fun _ => course.bind (listenersOf_touches _) fun _ =>
    course.pure _

theorem listen_touches (id : Nat) (trigger handler : Datum) :
    Along Touches (listen id trigger handler) :=
  course.bind (needKey_touches _) fun _ => course.bind (listenersOf_touches _) fun _ w =>
    (Touch.listen w _ rfl).touches

theorem ignore_touches (id : Nat) (trigger : Datum) : Along Touches (ignore id trigger) :=
  course.bind (needKey_touches _) fun _ => course.bind (listenersOf_touches _) fun _ w =>
    (Touch.listen w _ rfl).touches

/-! ### The drawing as a whole -/

theorem tagValue_touches (d : Datum) : Along Touches (tagValue d) :=
  course.bind view_touches fun _ => by
    split
    · exact course.pure _
    · exact course.pure _
    · exact course.pure _

theorem findByTag_touches (tag : Value) : Along Touches (findByTag tag) :=
  course.bind (drawing_touches _) fun _ => course.ofExcept _

theorem tagOf_touches (d : Datum) : Along Touches (tagOf d) := by
  unfold tagOf
  split
  · exact course.bind (drawing_touches _) fun _ => course.pure _
  · exact course.throw _

theorem setRoot_touches (base : String) (value : Datum) : Along Touches (setRoot base value) :=
  course.bind (course.ofExcept _) fun _ => course.bind (drawing_touches _) fun _ =>
    course.bind (course.ofExcept _) fun _ => setDrawing_touches _

theorem size_touches (width height : Datum) : Along Touches (size width height) :=
  course.bind (setRoot_touches _ _) fun _ => setRoot_touches _ _

theorem styleOf_touches (name : Datum) : Along Touches (styleOf name) :=
  course.bind (needKey_touches _) fun _ => by
    split
    · exact course.bind (drawing_touches _) fun _ => course.pure _
    · exact course.pure _

theorem setStyle_touches (name value : Datum) : Along Touches (setStyle name value) :=
  plot.setStyle name value

theorem scale_touches (factor : Datum) : Along Touches (scale factor) := plot.scale factor

theorem mount_touches : Along Touches mount := fun w => (Touch.mount w _ _).touches

theorem taggedElements_touches : Along Touches taggedElements :=
  course.bind (drawing_touches _) fun _ => newList_touches _

end Run

end LiveSvg
