import LiveSvg.Proofs.Diligent
import LiveSvg.Proofs.Upheld
/-!
Relations for whole runs of a visual that is not destroyed. What happens around scripts changes
little that they can see; it is enough that a relation holds of that, and is kept to by the scripts
that are started, by new values and by passes.
-/

namespace LiveSvg

open Number (Binary64)
open Script (Datum Act)

variable {R : World → World → Prop} {play : Player}

/-- The same descriptor, settings, programs and cells, as much shown, as ready and as destroyed, with
as many to tell. -/
structure Visual.Alike (v v' : Visual) : Prop where
  overrides : v'.overrides = v.overrides
  descriptor : v'.descriptor = v.descriptor
  settings : v'.settings = v.settings
  programs : v'.programs = v.programs
  getters : v'.getters = v.getters
  setters : v'.setters = v.setters
  setterOf : v'.setterOf = v.setterOf
  cells : v'.cells = v.cells
  renders : v'.renders = v.renders
  isReady : v'.isReady = v.isReady
  isDestroyed : v'.isDestroyed = v.isDestroyed
  hasSink : v'.hasSink = v.hasSink

theorem Visual.Alike.rfl {v : Visual} : v.Alike v :=
  ⟨.refl _, .refl _, .refl _, .refl _, .refl _, .refl _, .refl _, .refl _, .refl _, .refl _, .refl _,
    .refl _⟩

/-- Alike, and of the same size. -/
structure Visual.Same (v v' : Visual) : Prop extends v.Alike v' where
  box : v'.box = v.box
  scale : v'.scale = v.scale
  target : v'.target = v.target

theorem Visual.Same.rfl {v : Visual} : v.Same v :=
  { Visual.Alike.rfl with box := .refl _, scale := .refl _, target := .refl _ }

/-- Whether a deed is one around the scripts. -/
def Deed.isPlain : Deed → Bool
  | .propose .. | .call .. | .hand .. | .conclude .. | .beginBatch .. | .endBatch .. => true
  | .invoke .. | .listen .. | .ignore .. | .delay _ | .expire _ => true
  | deed => deed.isTimely

/-- Whether a script is one that renders. -/
def Launch.isRender : Launch → Bool
  | .root => true
  | .tag .. => true
  | _ => false

/-- A small change, one of the size or the place of the visual, or one around the scripts. -/
inductive Stir : World → World → Prop where
  | touch {a b : World} : Touch a b → Stir a b
  | beat {a b : World} : Beat a b → Stir a b
  | record (w : World) {deed : Deed} : deed.isPlain → Stir w ((Run.record deed).after w)
  | clock (w : World) (clock : Clock Job) : Stir w { w with clock }
  | note (w : World) (n : Note) : Stir w ((Run.note n).after w)
  | host (w : World) (host : HostState) : Stir w { w with host }
  | visual (w : World) {visual : Visual} : w.visual.Same visual → Stir w { w with visual }
  | shape {a b : World} : Reshape a b → Stir a b

namespace Gentle

open Run

variable (G : Gentle R)
include G

theorem logEntry (e : Log.Entry) : Along R (logEntry e) := G.touches (logEntry_touches e)

theorem normalize (value : Datum) (type : Value) : Along R (normalize value type) := by
  unfold Run.normalize
  split
  · split
    · exact G.touches (load_touches _)
    · exact G.throw _
    · exact G.throw _
    · exact G.pure _
  · exact G.pure _

theorem script {l : Launch} (hd : Along R (record (.start l)))
    (he : ∀ result, Along R (record (.finish l result))) (hp : ∀ act, Along R (play act))
    (act : Act Datum) : Along R (script play l act) :=
  G.bind hd fun _ => G.bind (hp act).attempt fun _ => G.bind (he _) fun _ => G.pure _

theorem updateColor (n : Nat) (value : Datum) (hs : ∀ act, Along R (Run.script play (.color n) act)) :
    Along R (updateColor play n value) := by
  refine G.bind (G.touches (colorOf_touches n)) fun c => G.bind (hs _) fun result =>
    G.bind (G.ofExcept _) fun current => ?_
  exact G.bind (fun w => G.touch (.color w n current)) fun _ => G.pure _

theorem modifyHost {f : HostState → HostState} (h : ∀ host, (f host).actions = host.actions) :
    Along R (modifyHost f) := fun w => G.host w (h _)

theorem resize : Along R resize := G.framed.resize

theorem setSize (aim : Aimed R) (width height : Value) : Along R (setSize width height) :=
  G.framed.setSize aim width height

theorem addTo : Along R addTo := G.framed.addTo

/-! ### Passes -/

theorem renderOne {l : Launch} (hs : ∀ act, Along R (Run.script play l act)) (p : Script.Program)
    (target : Datum) (label : String) : Along R (renderOne play l p target label) := by
  refine G.bind (hs _) fun result => ?_
  split
  · exact G.pure _
  · exact G.logEntry _

theorem renderTag (hs : ∀ {l : Launch}, l.isRender → ∀ act, Along R (Run.script play l act)) (ps : Script.Programs) (t : Tag) :
    Along R (renderTag play ps t) := by
  unfold Run.renderTag
  split
  · exact G.throw _
  · exact G.bind (G.touches (findByTag_touches _)) fun ids => G.forM fun id _ =>
      G.renderOne (hs rfl) _ _ _

theorem render (hs : ∀ {l : Launch}, l.isRender → ∀ act, Along R (Run.script play l act))
    (hr : Along R (modifyVisual fun v => { v with renders := v.renders + 1 })) :
    Along R (render play) := by
  refine G.bind G.get fun w => ?_
  split
  · exact .ite (G.pure _) (G.bind hr fun _ => G.bind (G.renderOne (hs rfl) _ _ _) fun _ =>
      G.forM fun t _ => G.renderTag hs _ t)
  · exact G.pure _

end Gentle

/-- A relation that can be composed and holds of changes around the scripts that have nothing to do with
animations; of the clock only that tasks are added to it. -/
structure Placid (R : World → World → Prop) : Prop extends Gentle R where
  plain (w : World) {deed : Deed} : deed.isPlain → deed.isTimely = false → R w ((Run.record deed).after w)
  task (w : World) {j : Job} : j.isTask → R w ((Run.soon j).after w)
  told (w : World) (n : Note) : R w ((Run.note n).after w)
  asked (w : World) (host : HostState) : R w { w with host }
  same (w : World) {visual : Visual} : w.visual.Same visual → R w { w with visual }
  host w host _ := asked w host

namespace Placid

open Run

variable (C : Placid R)
include C

theorem visual {f : Visual → Visual} (h : ∀ v : Visual, v.Same (f v)) : Along R (modifyVisual f) :=
  fun w => C.same w (h _)

theorem anyHost (f : HostState → HostState) : Along R (Run.modifyHost f) := fun w => C.asked w _

theorem note (n : Note) : Along R (note n) := fun w => C.told w n

theorem report (f : Failure) : Along R (report f) :=
  C.bind C.get fun _ => C.bind (C.logEntry _) fun _ =>
    .ite (C.visual fun _ => { Visual.Same.rfl with }) (C.pure _)

theorem setBusy (busy : Bool) : Along R (setBusy busy) := C.visual fun _ => { Visual.Same.rfl with }

theorem tellOutcome (observer : Observer) (result : Except Failure Unit) :
    Along R (tellOutcome observer result) := by
  have hn : ∀ n, Along R (notify observer n) := fun n =>
    C.bind (C.note n) fun _ => .ite (C.logEntry _) (C.pure _)
  refine C.bind C.get fun w => ?_
  dsimp only
  cases result with
  | error f =>
    exact .ite (C.logEntry _) <| .ite (C.bind (hn _) fun _ => C.report f) (C.report f)
  | ok _ => exact .ite (hn _) (C.pure _)

theorem startAcquisition : Along R startAcquisition := by
  refine C.bind C.get fun w => .ite (C.pure _) (C.bind C.get fun w =>
    C.bind (fun w => C.plain w rfl rfl) fun _ => C.bind (C.setBusy _) fun _ => C.bind ?_ fun _ w => C.task w rfl)
  exact C.visual fun _ => { Visual.Same.rfl with }

theorem runAction {n : Nat} (hs : ∀ act, Along R (script play (.action n) act)) (event : Datum) :
    Along R (runAction play n event) := by
  refine C.bind C.get fun w => .ite (C.pure _) ?_
  split
  · exact C.pure _
  · refine C.bind (hs _) fun result => ?_
    split
    · exact C.pure _
    · exact C.bind (C.logEntry _) fun _ => C.report _

theorem callAction (event id value : Datum) (observer : Observer) :
    Along R (callAction event id value observer) := by
  refine C.bind C.get fun w => .ite (C.pure _) ?_
  refine C.bind (fun w => C.plain w rfl rfl) fun _ => C.bind (C.bind C.get fun _ => C.pure _) fun b => ?_
  split
  · exact C.pure _
  · refine C.bind C.get fun w => ?_
    dsimp only
    split
    · split
      · exact C.pure _
      · exact C.bind (C.setBusy true) fun _ => C.bind (fun w => C.task w rfl) fun _ => C.pure _
    · split
      · exact C.bind (C.anyHost _) fun _ => C.pure _
      · exact C.bind (C.throw _) fun _ => C.pure _
    · exact C.pure _

theorem onAcquisitionError (f : Failure) : Along R (onAcquisitionError f) :=
  C.bind C.get fun _ => .ite (C.logEntry _) (C.report f)

theorem onValue (hv : ∀ id value, Along R (setValue play id value)) (behavior : Value) (value : Datum) :
    Along R (onValue play behavior value) := by
  refine C.bind C.get fun w => .ite (C.logEntry _) ?_
  refine C.bind (C.bind C.get fun _ => C.pure _) fun b => ?_
  split
  · split
    · exact C.bind (C.ofExcept _) fun _ => C.bind (C.normalize _ _) fun _ => hv _ _
    · exact C.pure _
  · exact C.pure _

theorem concludeAcquisition (hv : ∀ id value, Along R (setValue play id value)) {batch getter : Nat}
    {result : Except Failure Datum} (ha : Along R (record (.acquire batch getter result)))
    (behavior : Value) : Along R (concludeAcquisition play batch getter behavior result) := by
  refine C.bind ha fun _ => ?_
  cases result with
  | ok value => exact C.bind (C.onValue hv behavior value).attempt.discard fun _ w => C.task w rfl
  | error f => exact C.bind (C.onAcquisitionError f) fun _ w => C.task w rfl

end Placid

/-- A relation that can be composed and holds of changes around the scripts. -/
structure Calm (R : World → World → Prop) : Prop extends Placid R where
  stir {a b : World} : Stir a b → R a b
  touch h := stir (.touch h)
  plain w _ h _ := stir (.record w h)
  task w _ _ := stir (.clock w _)
  told w n := stir (.note w n)
  asked w host := stir (.host w host)
  same w _ h := stir (.visual w h)
  shape h := stir (.shape h)

namespace Calm

open Run

variable (C : Calm R)
include C

theorem toMild : Mild R where
  toGentle := C.toGentle
  beat h := C.stir (.beat h)

theorem record {deed : Deed} (h : deed.isPlain) : Along R (record deed) := fun w => C.stir (.record w h)

theorem clock (f : World → Clock Job) : Along R (modify fun w => { w with clock := f w } : Run Unit) :=
  .modify fun _ => C.stir (.clock _ _)

theorem soon (j : Job) : Along R (soon j) := C.clock _

end Calm

/-- Whether a step neither gives a value nor asks for a pass nor destroys the visual. -/
def Step.isAside : Step → Bool
  | .set .. | .render | .destroy => false
  | _ => true

/-- A relation that can be composed, holds of changes around the scripts, and is kept to by scripts
that do not render if it is kept to by what they run. -/
structure Steady (R : World → World → Prop) : Prop extends Calm R where
  store (r : Script.Ref) (c : Script.Contents) : Along R (Run.store r c)
  script {play : Player} : (∀ act, Along R (play act)) → ∀ {l : Launch}, l.isRender = false →
    ∀ act, Along R (Run.script play l act)
  propose {play : Player} : (∀ act, Along R (play act)) → ∀ id value, Along R (Run.propose play id value)

namespace Steady

open Run

variable (S : Steady R)
include S

/-- Such a relation is kept to by whatever scripts do. -/
theorem toUpheld : Upheld R where
  toMild := S.toMild
  store := S.store
  action hp _ event := S.toPlacid.runAction (S.script hp rfl) event
  color hp n value := S.toGentle.updateColor n value (S.script hp rfl)
  propose := S.propose
  call := S.callAction

theorem plays (act : Act Datum) : Along R (Run.play act) := S.toUpheld.plays act

/-- Jobs keep to such a relation if taking an acquired value does. -/
theorem diligent (hp : ∀ act, Along R (play act))
    (ha : ∀ {w : World} {getter : Nat} {g : Getter}, w.visual.getters[getter]? = some g →
      ∀ batch result, R w ((concludeAcquisition play batch getter g.behavior result).after w)) :
    Diligent R play where
  toCourse := S.toCourse
  chore {deed} h := S.record (by cases deed <;> first | rfl | cases h)
  clock w clock := S.stir (.clock w clock)
  host w host _ := S.stir (.host w host)
  batches w _ := S.stir (.visual w { Visual.Same.rfl with })
  setBusy := S.setBusy
  tellOutcome := S.tellOutcome
  concludeAcquisition := ha
  finish := S.toMild.finish hp

/-- Every step keeps to such a relation that does not give a value, ask for a pass or destroy the
visual, if turns do and the ones by which a size is asked for. -/
theorem step {s : Step} (h : s.isAside) (hs : ∀ width height, s = .size width height → Along R s.run)
    (ht : s = .turn → Along R (Run.turn Run.play)) : Along R s.run := by
  have hl : ∀ v, Along R (load v) := fun v => S.touches (load_touches v)
  cases s with
  | call event id value observer =>
    exact S.bind (hl _) fun _ => S.bind (hl _) fun _ => S.bind (hl _) fun _ =>
      (S.callAction _ _ _ _).discard
  | fire element trigger event =>
    exact S.bind (hl _) fun _ => S.bind (hl _) fun _ => S.toUpheld.fire S.plays _ _ _
  | script act => exact (S.plays act).discard
  | size width height => exact hs width height rfl
  | resize => exact S.resize
  | mount => exact S.addTo
  | host change => exact S.anyHost change
  | turn => exact (ht rfl).discard
  | wait seconds => exact S.clock _
  | set | render | destroy => cases h

end Steady

/-- A relation for whole runs apart from the sizes that are asked for: it is kept to by acquired values, by new
ones and by passes as well. -/
structure Led (R : World → World → Prop) : Prop extends Calm R where
  store (r : Script.Ref) (c : Script.Contents) : Along R (Run.store r c)
  script {play : Player} : (∀ act, Along R (play act)) → ∀ {l : Launch}, l.isRender = false →
    ∀ act, Along R (Run.script play l act)
  acquire (batch getter : Nat) (result : Except Failure Datum) :
    Along R (Run.record (.acquire batch getter result))
  value {play : Player} : (∀ act, Along R (play act)) → ∀ id value, Along R (Run.setValue play id value)
  render {play : Player} : (∀ act, Along R (play act)) → Along R (Run.render play)

/-- A relation for whole runs. -/
structure Driven (R : World → World → Prop) : Prop extends Led R where
  aim : Aimed R

namespace Led

open Run

variable (D : Led R)
include D

theorem steady : Steady R where
  toCalm := D.toCalm
  store := D.store
  script := D.script
  propose hp id value := D.bind (D.record rfl) fun _ => D.value hp id value

variable (hp : ∀ act, Along R (play act))
include hp

/-! ### Jobs -/

theorem diligent : Diligent R play :=
  D.steady.diligent hp fun _ _ _ => D.toPlacid.concludeAcquisition (D.value hp) (D.acquire _ _ _) _ _

theorem work (j : Job) : Along R (work play j) := (D.diligent hp).work j

theorem turn (hw : ∀ j, Along R (record (.work j))) : Along R (turn play) := (D.diligent hp).turn hw

omit hp

/-! ### Steps -/

/-- Such a relation is kept to by every step that does not destroy the visual, if it is by turns and by the
steps by which a size is asked for. -/
theorem step_apart {s : Step} (h : s ≠ .destroy) (hs : ∀ width height, s = .size width height → Along R s.run)
    (ht : s = .turn → Along R (Run.turn Run.play)) : Along R s.run := by
  have S := D.steady
  have hl : ∀ v, Along R (load v) := fun v => D.touches (load_touches v)
  cases s with
  | set id value => exact D.bind (hl _) fun _ => D.bind (hl _) fun _ => D.value S.plays _ _
  | render => exact D.render S.plays
  | destroy => exact absurd rfl h
  | _ => exact S.step rfl hs ht

theorem present : Along R (present Run.play) :=
  D.bind (D.render D.steady.plays) fun _ => D.bind D.startAcquisition fun _ =>
    D.bind D.get fun _ => D.logEntry _

end Led

/-- A relation for whole runs is kept to by every step that does not destroy the visual, if it is by turns. -/
theorem Driven.step (D : Driven R) {s : Step} (h : s ≠ .destroy) (ht : s = .turn → Along R (Run.turn Run.play)) :
    Along R s.run :=
  D.step_apart h (fun width height k => k ▸ D.setSize D.aim width height) ht

end LiveSvg
