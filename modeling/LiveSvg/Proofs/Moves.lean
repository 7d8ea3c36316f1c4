import LiveSvg.Proofs.Loading
import LiveSvg.Proofs.Values
/-!
What becomes of the tasks of a visual. Everything that happens to a visual in place is a sequence of
moves; jobs that have been taken from the clock and are still to be done are in hand in the meantime.
-/

namespace LiveSvg

open Number (Binary64)
open Script (Act Datum)

/-- A value on its way to a setter, with whom to tell of the outcome. -/
structure Dispatch where
  setter : Nat
  value : Datum
  observer : Observer

/-- A part of a dispatch or of the acquisition of values that is still to be done. -/
inductive Task where
  | send (d : Dispatch)
  | deliver (d : Dispatch)
  | begin (batch : Nat)
  | get (batch getter : Nat)
  | settle (batch : Nat)
  | finish (batch : Nat)

/-- The task that a job does; ending an animation is none. -/
def Job.task? : Job → Option Task
  | .acquire batch => some (.begin batch)
  | .collect batch getter => some (.get batch getter)
  | .fetch batch getter => some (.get batch getter)
  | .settled batch => some (.settle batch)
  | .finishBatch batch => some (.finish batch)
  | .send setter value observer => some (.send ⟨setter, value, observer⟩)
  | .deliver setter value observer => some (.deliver ⟨setter, value, observer⟩)
  | .finishAnimation _ => none
  | .wake j => j.task?

/-- Whether the getter or setter of a task is there. -/
def Task.isServed (v : Visual) : Task → Prop
  | .send d => d.setter < v.setters.size
  | .deliver d => d.setter < v.setters.size
  | .get _ getter => getter < v.getters.size
  | _ => True

/-- The setter to which the action behavior with an id sends values. -/
def Situation.setterFor? (s : Situation) (id : Datum) : Option Nat :=
  match s.visual.descriptor.behaviors.find? fun b => (Datum.ofName b.id).sameKey id with
  | some b =>
    match b.kind with
    | .action .. => s.visual.setterOf.get? b.id
    | _ => none
  | none => none

/-- Whether a deed is one of those that are accounted for. -/
def Deed.isCounted : Deed → Bool
  | .call .. | .hand .. | .conclude .. | .beginBatch .. | .acquire .. | .endBatch .. => true
  | .finish (.action _) (.error _) => true
  | _ => false

theorem Deed.isCounted_of_isHook {d : Deed} (h : d.isHook) : d.isCounted = false := by
  cases d <;> first | rfl | cases h

theorem Deed.isCounted_of_isTimely {d : Deed} (h : d.isTimely) : d.isCounted = false := by
  cases d <;> first | rfl | cases h

/-- The same getters, setters and batches, as busy as before, and with the same errors. -/
structure Visual.Settled (v v' : Visual) : Prop where
  descriptor : v'.descriptor = v.descriptor
  getters : v'.getters = v.getters
  setters : v'.setters = v.setters
  setterOf : v'.setterOf = v.setterOf
  batches : v'.batches = v.batches
  loading : v'.loading = v.loading
  busy : v'.busy = v.busy
  errors : v'.errors = v.errors
  hasSink : v'.hasSink = v.hasSink
  isDestroyed : v'.isDestroyed = v.isDestroyed

theorem Visual.Settled.rfl {v : Visual} : v.Settled v :=
  ⟨.refl _, .refl _, .refl _, .refl _, .refl _, .refl _, .refl _, .refl _, .refl _, .refl _⟩

/-- Nothing has happened that is accounted for, and no job has been added or taken. -/
structure Idle (a b : World) : Prop where
  past : ∃ new, b.past = new ++ a.past ∧ ∀ e ∈ new, e.deed.isCounted = false
  clock : b.clock.ready = a.clock.ready ∧ b.clock.timers = a.clock.timers ∧
    b.clock.nextId = a.clock.nextId
  animations : b.animations = a.animations
  verdicts : b.notes.filter (·.isVerdict) = a.notes.filter (·.isVerdict)
  visual : a.visual.Settled b.visual

/-- One step in which tasks are begun, done, or made to wait. The list is that of the jobs in hand. -/
inductive Move : List Job × World → List Job × World → Prop where
  | idle {J : List Job} {a b : World} : Idle a b → Move (J, a) (J, b)
  | animate {J : List Job} {w : World} (seconds : Binary64) (anim : Animation) :
    Move (J, w) (J, { w with
      clock := (w.clock.after seconds (.finishAnimation w.animations.size)).1
      animations := w.animations.push { anim with timer := some w.clock.nextId } })
  | change {J : List Job} {w : World} {animations : Array Animation} :
    (∀ a ∈ animations, a.timer = none ∨ ∃ b ∈ w.animations, b.timer = a.timer) →
      Move (J, w) (J, { w with animations })
  | cancel {J : List Job} {w : World} {anim : Animation} {timer : Nat} : anim ∈ w.animations →
    anim.timer = some timer → Move (J, w) (J, { w with clock := w.clock.cancel timer })
  | call {J : List Job} {w : World} {id value : Datum} {observer : Observer} {setter : Nat} :
    w.setterFor? id = some setter → Move (J, w) (J, (do
      Run.record (.call id value observer)
      Run.setBusy true
      Run.soon (.send setter value observer) : Run Unit).after w)
  | ignore {J : List Job} {w : World} {id value : Datum} {observer : Observer} :
    w.setterFor? id = none → Move (J, w) (J, (Run.record (.call id value observer)).after w)
  | fail {J : List Job} {w : World} (n : Nat) (f : Failure) (e : Log.Entry) : Move (J, w) (J, (do
      Run.record (.finish (.action n) (.error f))
      Run.logEntry e
      Run.report f : Run Unit).after w)
  | take {w : World} : Move ([], w) (w.clock.turn.1, { w with clock := w.clock.turn.2 })
  | soon {J : List Job} {w : World} {j : Job} : (∀ d, j.task? ≠ some (.send d)) →
    Move (j :: J, w) (J, (Run.soon j).after w)
  | later {J : List Job} {w : World} {j : Job} (seconds : Binary64) :
    (∀ d, j.task? ≠ some (.send d)) →
      Move (j :: J, w) (J, { w with clock := (w.clock.after seconds (.wake j)).1 })
  | wake {J : List Job} {w : World} (j : Job) : Move (.wake j :: J, w) (J, (Run.soon j).after w)
  | drop {J : List Job} {w : World} {j : Job} :
    (∀ t, j.task? = some t → ¬ t.isServed w.visual) → Move (j :: J, w) (J, w)
  | spread {J : List Job} {w : World} (batch : Nat) : Move (.acquire batch :: J, w)
    ((List.range w.visual.getters.size).map (.collect batch) ++ J,
      (Run.modifyBatch batch fun b => { b with outstanding := w.visual.getters.size }).after w)
  | ask {J : List Job} {w : World} (batch getter : Nat) :
    Move (.collect batch getter :: J, w) (.fetch batch getter :: J, w)
  | got {J : List Job} {w : World} (batch getter : Nat) (value : Datum) :
    Move (.fetch batch getter :: J, w)
      (.settled batch :: J, (Run.record (.acquire batch getter (.ok value))).after w)
  | missed {J : List Job} {w : World} (batch getter : Nat) (f : Failure) :
    Move (.fetch batch getter :: J, w) (.settled batch :: J, (do
      Run.record (.acquire batch getter (.error f))
      Run.onAcquisitionError f : Run Unit).after w)
  | settle {J : List Job} {w : World} (batch : Nat) : Move (.settled batch :: J, w)
    (if ((w.visual.batches[batch]?).map (·.outstanding - 1)) = some 0 then .finishBatch batch :: J
      else J,
      (Run.modifyBatch batch fun b => { b with outstanding := b.outstanding - 1 }).after w)
  | finish {J : List Job} {w : World} (batch : Nat) : Move (.finishBatch batch :: J, w) (J, (do
      Run.record (.endBatch batch)
      Run.setBusy false
      Run.modifyBatch batch fun b => { b with isDone := true } : Run Unit).after w)
  | hand {J : List Job} {w : World} (setter : Nat) (value : Datum) (observer : Observer) :
    Move (.send setter value observer :: J, w)
      (.deliver setter value observer :: J, (Run.record (.hand setter value)).after w)
  | conclude {J : List Job} {w : World} (setter : Nat) (value : Datum) (observer : Observer)
    (result : Except Failure Unit) : Move (.deliver setter value observer :: J, w)
      (J, (Run.concludeDispatch setter value observer result).after w)

variable {play : Player} {J : List Job} {a b w : World}

namespace Idle

/-- Where past, clock, animations, notes and visual are the same, nothing has happened that counts. -/
theorem of_eq (hp : b.past = a.past) (hc : b.clock = a.clock) (hl : b.animations = a.animations)
    (hn : b.notes = a.notes) (hv : a.visual.Settled b.visual) : Idle a b :=
  ⟨⟨[], hp, by simp⟩, by rw [hc]; exact ⟨rfl, rfl, rfl⟩, hl, by rw [hn], hv⟩

theorem event {deed : Deed} (hd : deed.isCounted = false)
    (hp : b.past = ⟨deed, a.toSituation⟩ :: a.past) (hc : b.clock = a.clock)
    (hl : b.animations = a.animations) (hn : b.notes = a.notes) (hv : a.visual.Settled b.visual) :
    Idle a b :=
  ⟨⟨[_], hp, by simp [hd]⟩, by rw [hc]; exact ⟨rfl, rfl, rfl⟩, hl, by rw [hn], hv⟩

theorem record (w : World) {deed : Deed} (hd : deed.isCounted = false) :
    Idle w ((Run.record deed).after w) :=
  event hd rfl rfl rfl rfl .rfl

theorem note {n : Note} (h : n.isVerdict = false) : Idle w { w with notes := w.notes ++ [n] } :=
  ⟨⟨[], rfl, by simp⟩, ⟨rfl, rfl, rfl⟩, rfl, by simp [h], .rfl⟩

theorem store (r : Script.Ref) (c : Script.Contents) (w : World) : Idle w ((Run.store r c).after w) := by
  refine event rfl (Run.store_past r c w) ?_ ?_ ?_ (by rw [Run.store_visual]; exact .rfl) <;>
    cases r <;> cases c <;> rfl

end Idle

/-- Any number of moves. -/
def Moves : List Job × World → List Job × World → Prop := Relation.ReflTransGen Move

/-- Moves lead from one world to another, whatever jobs are in hand. -/
def Free (a b : World) : Prop := ∀ J, Moves (J, a) (J, b)

namespace Free

theorem course : Course Free where
  refl _ _ := .refl
  trans h k J := (h J).trans (k J)

theorem move (h : ∀ J, Move (J, a) (J, b)) : Free a b := fun J => .single (h J)

theorem idle (h : Idle a b) : Free a b := move fun _ => .idle h

theorem mild : Mild Free where
  toCourse := course
  touch h := by
    cases h with
    | grow | log | color | mount => exact idle (.of_eq rfl rfl rfl rfl .rfl)
    | draw | ask => exact idle (.event rfl rfl rfl rfl rfl .rfl)
    | listen _ h => exact idle (.event (Deed.isCounted_of_isHook h) rfl rfl rfl rfl .rfl)
    | note h => exact idle (.note h)
  beat h := by
    cases h with
    | record h => exact idle (.record _ (Deed.isCounted_of_isTimely h))
    | animate seconds a => exact move fun _ => .animate seconds a
    | change h => exact move fun _ => .change h
    | cancel h ht => exact move fun _ => .cancel h ht
  host w host _ := idle (.of_eq rfl rfl rfl rfl .rfl)
  shape h := idle (by cases h <;> exact .of_eq rfl rfl rfl rfl { Visual.Settled.rfl with })

theorem aimed : Aimed Free := fun _ _ => idle (.of_eq rfl rfl rfl rfl { Visual.Settled.rfl with })

theorem script (hp : ∀ act, Along Free (play act)) {l : Launch} (hl : ∀ n, l ≠ .action n) (act : Act Datum) :
    Along Free (Run.script play l act) := by
  refine mild.script (fun w => idle (.record w rfl)) (fun result w => idle (.record w ?_)) hp act
  cases l with
  | action n => exact absurd rfl (hl n)
  | _ => rfl

theorem render (hp : ∀ act, Along Free (play act)) : Along Free (Run.render play) := by
  refine mild.render (fun {l} hl => script hp fun n k => ?_) fun w =>
    idle (.of_eq rfl rfl rfl rfl { Visual.Settled.rfl with })
  subst k
  cases hl

theorem setValue (hp : ∀ act, Along Free (play act)) (id value : Datum) :
    Along Free (Run.setValue play id value) :=
  mild.setValue (fun _ _ _ _ _ => idle (.event rfl rfl rfl rfl rfl { Visual.Settled.rfl with }))
    (mild.takeValue (fun _ _ _ _ => idle (.event rfl rfl rfl rfl rfl .rfl)) (render hp)) id value

/-- An action that fails is reported. -/
theorem runAction (hp : ∀ act, Along Free (play act)) (n : Nat) (event : Datum) :
    Along Free (Run.runAction play n event) := by
  refine course.bind course.get fun w => .ite (course.pure _) ?_
  split
  · exact course.pure _
  · rename_i handler _
    intro w
    obtain ⟨result, hs⟩ := Run.script_ok play (.action n)
      (handler.program.call [event, .entity .context]) w
    have hstart : Free w ((Run.record (.start (.action n))).after w) := idle (.record w rfl)
    rw [Run.after_bind_ok hs]
    refine course.trans hstart (course.trans (hp (handler.program.call [event, .entity .context]) _) ?_)
    cases result with
    | ok d => exact idle (.record _ rfl)
    | error f => exact move fun _ => .fail n f _

theorem callAction (event id value : Datum) (observer : Observer) :
    Along Free (Run.callAction event id value observer) := by
  intro w
  have hcall : w.setterFor? id = none → Free w ((Run.record (.call id value observer)).after w) :=
    fun h => move fun _ => .ignore h
  have hset : ∀ setter, w.setterFor? id = some setter → Free w ((do
      Run.record (.call id value observer)
      Run.setBusy true
      Run.soon (.send setter value observer) : Run Unit).after w) := fun _ h => move fun _ => .call h
  unfold Run.callAction Run.behavior?
  rw [Run.after_get_bind]
  cases w.visual.isDestroyed with
  | true => exact course.refl w
  | false =>
    unfold Situation.setterFor? at hcall hset
    rw [if_neg Bool.false_ne_true, Run.after_record_bind, bind_assoc, Run.after_get_bind, pure_bind]
    dsimp only
    cases hb : w.visual.descriptor.behaviors.find? fun b => (Datum.ofName b.id).sameKey id with
    | none =>
      rw [hb] at hcall
      exact hcall rfl
    | some b =>
      rw [hb] at hcall hset
      dsimp only at hcall hset ⊢
      rw [Run.after_get_bind]
      dsimp only
      cases hk : b.kind with
      | action dataType constant function =>
        rw [hk] at hcall hset
        dsimp only at hcall hset ⊢
        cases hs : w.visual.setterOf.get? b.id with
        | none => exact hcall hs
        | some setter => exact hset setter hs
      | widget =>
        rw [hk] at hcall
        dsimp only at hcall ⊢
        cases w.visual.settings.get? b.id with
        | none => exact hcall rfl
        | some entry => exact course.trans (hcall rfl) (idle (.of_eq rfl rfl rfl rfl .rfl))
      | value =>
        rw [hk] at hcall
        exact hcall rfl

/-- Whatever scripts do is made of moves. -/
theorem upheld : Upheld Free where
  toMild := mild
  store r c w := idle (.store r c w)
  action := runAction
  color hp n value := mild.updateColor n value (script hp fun _ => Launch.noConfusion)
  propose hp id value := course.bind (fun w => idle (.record w rfl)) fun _ => setValue hp id value
  call := callAction

theorem plays (act : Act Datum) : Along Free (Run.play act) := upheld.plays act

end Free

/-- A computation moves tasks from one list in hand to another one. -/
def Does {α : Type} (J : List Job) (x : Run α) (J' : List Job) : Prop :=
  ∀ w, Moves (J, w) (J', x.after w)

namespace Does

variable {α : Type} {j : Job} {J' : List Job}

theorem of_free {x : Run α} (h : Along Free x) : Does J x J := fun w => h w J

theorem soons {β : Type} (l : List β) {f : β → Job} (hf : ∀ b d, (f b).task? ≠ some (.send d))
    (J : List Job) : Does (l.map f ++ J) (l.forM fun b => Run.soon (f b)) J := by
  induction l with
  | nil => exact fun w => .refl
  | cons b l ih => exact fun w => .head (.soon (hf b)) (ih ((Run.soon (f b)).after w))

theorem drop {x : Run α} {t : Task} (ht : j.task? = some t) (h : Along Free x) :
    ∀ w, ¬ t.isServed w.visual → Moves (j :: J, w) (J, x.after w) := fun w hs =>
  .head (.drop fun t' ht' => by rwa [Option.some.inj (ht'.symm.trans ht)]) (h w J)

/-- What is delayed does its task now, or leaves it to the clock. -/
theorem delayed {delays : Host.Delays} {label : Value} {now : Run Unit} {lost : Failure → Run Unit}
    (hj : ∀ d, j.task? ≠ some (.send d)) (hn : Does (j :: J) now J)
    (hl : ∀ f, Does (j :: J) (lost f) J) : Does (j :: J) (Run.delayed delays label now j lost) J := by
  unfold Run.delayed
  split
  · exact hl _
  · exact hn
  · split
    · exact fun w => .single (.soon hj)
    · exact fun w => .head (.idle (.record w rfl)) (.single (.later _ hj))

/-! ### Jobs -/

variable (hp : ∀ act, Along Free (play act))
include hp

theorem onValue (behavior : Value) (value : Datum) : Along Free (Run.onValue play behavior value) := by
  have M := Free.mild
  refine M.bind M.get fun w => .ite (M.logEntry _) ?_
  refine M.bind (M.bind M.get fun _ => M.pure _) fun b => ?_
  split
  · split
    · exact M.bind (M.ofExcept _) fun _ => M.bind (M.normalize _ _) fun _ => Free.setValue hp _ _
    · exact M.pure _
  · exact M.pure _

omit hp in
theorem report_ok (f : Failure) (w : World) : ∃ w', Run.report f w = .ok () w' := by
  have hl : ∀ e, Run.logEntry e w = .ok () ((Run.logEntry e).after w) := fun _ => rfl
  unfold Run.report
  rw [Run.get_bind, Run.bind_ok (hl _)]
  cases w.visual.hasSink with
  | true => exact ⟨_, rfl⟩
  | false => exact ⟨_, rfl⟩

omit hp in
theorem onAcquisitionError_ok (f : Failure) (w : World) :
    Run.onAcquisitionError f w = .ok () ((Run.onAcquisitionError f).after w) := by
  obtain ⟨w', h⟩ : ∃ w', Run.onAcquisitionError f w = .ok () w' := by
    unfold Run.onAcquisitionError
    rw [Run.get_bind]
    cases w.visual.isDestroyed with
    | true => exact ⟨_, rfl⟩
    | false => exact report_ok f w
  rw [Run.after_ok h, h]

theorem concludeAcquisition (batch getter : Nat) (behavior : Value) (result : Except Failure Datum) :
    Does (.fetch batch getter :: J) (Run.concludeAcquisition play batch getter behavior result) J := by
  intro w
  unfold Run.concludeAcquisition
  rw [Run.after_record_bind]
  cases result with
  | ok value =>
    refine .head (.got batch getter value) ?_
    dsimp only
    rw [Run.after_bind_ok (Run.attempt_discard _ _)]
    exact (onValue hp behavior value _ _).trans (.single (.soon fun _ => by simp [Job.task?]))
  | error f =>
    refine .head (.missed batch getter f) ?_
    dsimp only
    rw [Run.after_bind_ok (onAcquisitionError_ok f _)]
    exact .single (.soon fun _ => by simp [Job.task?])

omit hp in
theorem hostValue (label : Value) : Along Free (Run.hostValue label) := by
  have M := Free.mild
  refine M.bind (M.modifyHost fun _ => rfl) fun _ => M.bind M.get fun w => M.bind (M.ofExcept _) fun r => ?_
  split
  · exact M.throw _
  · exact M.bind (M.ofExcept _) fun _ => M.pure _

theorem fetchValue (batch getter : Nat) :
    Does (.fetch batch getter :: J) (Run.fetchValue play batch getter) J := by
  intro w
  unfold Run.fetchValue
  rw [Run.after_get_bind]
  cases hg : w.visual.getters[getter]? with
  | none => exact .single (.drop fun t ht => by cases ht; simpa [Task.isServed] using hg)
  | some g =>
    obtain ⟨r, hr⟩ := Run.attempt_after (Run.hostValue g.settings.label) w
    dsimp only
    rw [Run.after_bind_ok hr]
    exact (hostValue _ _ _).trans (concludeAcquisition hp batch getter g.behavior r _)

omit hp in
theorem concludeDispatch (setter : Nat) (value : Datum) (observer : Observer)
    (result : Except Failure Unit) :
    Does (.deliver setter value observer :: J) (Run.concludeDispatch setter value observer result) J :=
  fun _ => .single (.conclude setter value observer result)

omit hp in
theorem sendValue (label : Value) (value : Datum) : Along Free (Run.sendValue label value) := by
  have M := Free.mild
  refine M.bind M.get fun w => M.bind (M.ofExcept _) fun r => ?_
  split
  · exact M.throw _
  · exact M.modifyHost fun _ => rfl

omit hp in
theorem deliver (setter : Nat) (value : Datum) (observer : Observer) :
    Does (.deliver setter value observer :: J) (Run.deliver setter value observer) J := by
  intro w
  unfold Run.deliver
  rw [Run.after_get_bind]
  cases hs : w.visual.setters[setter]? with
  | none => exact .single (.drop fun t ht => by cases ht; simpa [Task.isServed] using hs)
  | some s =>
    obtain ⟨r, hr⟩ := Run.attempt_after (Run.sendValue s.settings.label value) w
    dsimp only
    rw [Run.after_bind_ok hr]
    exact (sendValue _ _ _ _).trans (concludeDispatch setter value observer r _)

/-- Doing a job moves its task, and no other one that is in hand. -/
theorem work (j : Job) : Does (j :: J) (Run.work play j) J := by
  cases j with
  | acquire batch =>
    exact fun w => .head (.spread batch) (soons _ (fun _ _ => by simp [Job.task?]) J _)
  | collect batch getter =>
    intro w
    change Moves _ (J, Run.after (get >>= _) w)
    rw [Run.after_get_bind]
    cases hg : w.visual.getters[getter]? with
    | none => exact .single (.drop fun t ht => by cases ht; simpa [Task.isServed] using hg)
    | some g =>
      refine .head (.ask batch getter) ?_
      exact delayed (fun _ => by simp [Job.task?]) (fetchValue hp batch getter)
        (fun f => concludeAcquisition hp batch getter g.behavior (.error f)) w
  | fetch batch getter => exact fetchValue hp batch getter
  | settled batch =>
    intro w
    refine .head (.settle batch) ?_
    change Moves _ (J, Run.after (Run.modifyBatch batch _ >>= fun _ => get >>= _) w)
    unfold Run.modifyBatch
    rw [Run.after_modifyVisual_bind, Run.after_get_bind]
    dsimp only
    rw [Array.getElem?_modify, if_pos rfl]
    cases w.visual.batches[batch]? with
    | none => exact .refl
    | some b =>
      dsimp only [Option.map_some]
      rw [Run.after_ite]
      by_cases h : b.outstanding - 1 = 0
      · rw [if_pos (congrArg some h), if_pos h]
        exact .single (.soon fun _ => by simp [Job.task?])
      · rw [if_neg fun k => h (Option.some.inj k), if_neg h]
        exact .refl
  | finishBatch batch => exact fun w => .single (.finish batch)
  | send setter value observer =>
    intro w
    refine .head (.hand setter value observer) ?_
    change Moves _ (J, Run.after (Run.record _ >>= fun _ => get >>= _) w)
    rw [Run.after_record_bind, Run.after_get_bind]
    dsimp only
    cases hs : w.visual.setters[setter]? with
    | none => exact .single (.drop fun t ht => by
        cases ht
        exact Nat.not_lt.mpr (Array.getElem?_eq_none_iff.mp hs))
    | some s =>
      exact delayed (fun _ => by simp [Job.task?]) (deliver setter value observer)
        (fun f => concludeDispatch setter value observer (.error f)) _
  | deliver setter value observer => exact deliver setter value observer
  | finishAnimation n =>
    exact fun w => .head (.drop fun t ht => by cases ht)
      (.head (.idle (.record w rfl)) (Free.mild.finish hp n _ J))
  | wake j => exact fun w => .single (.wake j)

/-- Doing all jobs in hand, one after the other, leaves none in hand. -/
theorem works (jobs : List Job) : Does jobs (jobs.forM fun j => do
    discard (Run.attempt (Run.work play j))
    Run.record (.work j)) [] := by
  induction jobs with
  | nil => exact fun w => .refl
  | cons j jobs ih =>
    intro w
    refine (work hp (J := jobs) j w).trans ?_
    have h : Idle ((Run.work play j).after w) ((Run.record (.work j)).after ((Run.work play j).after w)) :=
      .record _ rfl
    change Moves _ ([], Run.after ((discard (Run.attempt (Run.work play j)) >>= fun _ => _) >>= _) w)
    rw [bind_assoc, Run.after_bind_ok (Run.attempt_discard _ _), Run.after_record_bind]
    exact .head (.idle h) (ih _)

/-- A turn takes its jobs from the clock and does them all. -/
theorem turn : Does [] (Run.turn play) [] := by
  intro w
  have hj : Run.takeJobs w = .ok w.clock.turn.1 { w with clock := w.clock.turn.2 } := rfl
  unfold Run.turn
  rw [Run.after_bind_ok hj, Run.after_bind_pure]
  exact .head .take (works hp _ _)

end Does

/-- Every step that does not destroy the visual is made of moves, and leaves no job in hand. -/
theorem Step.moves {s : Step} (h : s ≠ .destroy) : Does [] s.run [] := by
  have M := Free.mild
  have U := Free.upheld
  have hl : ∀ v, Along Free (Run.load v) := fun v => M.touches (Run.load_touches v)
  cases s with
  | set id value =>
    exact .of_free (M.bind (hl _) fun _ => M.bind (hl _) fun _ => Free.setValue Free.plays _ _)
  | call event id value observer =>
    exact .of_free (M.bind (hl _) fun _ => M.bind (hl _) fun _ => M.bind (hl _) fun _ =>
      (Free.callAction _ _ _ _).discard)
  | fire element trigger event =>
    exact .of_free (M.bind (hl _) fun _ => M.bind (hl _) fun _ => U.fire Free.plays _ _ _)
  | script act => exact .of_free (Free.plays act).discard
  | render => exact .of_free (Free.render Free.plays)
  | size width height => exact .of_free (M.setSize Free.aimed width height)
  | resize => exact .of_free M.resize
  | mount => exact .of_free M.addTo
  | host change => exact .of_free fun w => Free.idle (.of_eq rfl rfl rfl rfl .rfl)
  | turn =>
    intro w
    change Moves _ ([], Run.after (_ <$> Run.turn Run.play) w)
    rw [Run.after_map]
    exact Does.turn Free.plays w
  | wait seconds =>
    exact fun w => .single (.idle ⟨⟨[], rfl, by simp⟩, ⟨rfl, rfl, rfl⟩, rfl, rfl, .rfl⟩)
  | destroy => exact absurd rfl h

end LiveSvg
