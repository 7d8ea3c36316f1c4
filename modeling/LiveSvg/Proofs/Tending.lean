import LiveSvg.Proofs.Release
/-!
Relations that tell of animations. It is enough that such a relation holds of what has nothing to do with them
and of the few operations that are theirs; then everything that happens to a visual keeps to it, apart from
turns and from the time that passes.
-/

namespace LiveSvg

open Number (Binary64)
open Script (Act Datum)

variable {R S : World → World → Prop} {play : Player} {a b : World}

/-- Whether a deed is none by which an animation is begun, asked for something, ended or brought about. -/
def Deed.isIdle : Deed → Bool
  | .animate .. | .queue .. | .await .. | .cease _ | .effect .. | .effected .. => false
  | _ => true

/-- Nothing has become of animations and of the clock. -/
structure Aloof (a b : World) : Prop where
  past : ∃ new, b.past = new ++ a.past ∧
    ∀ e ∈ new, e.deed.isIdle = true ∧ e.before.animations = a.animations
  animations : b.animations = a.animations
  clock : b.clock = a.clock
  hasLoop : b.hasLoop = a.hasLoop

namespace Aloof

/-- Where past, animations, clock and loop are the same, nothing has become of them. -/
theorem of_eq (hp : b.past = a.past) (hn : b.animations = a.animations) (hc : b.clock = a.clock)
    (hl : b.hasLoop = a.hasLoop) : Aloof a b :=
  ⟨⟨[], hp, fun _ h => absurd h List.not_mem_nil⟩, hn, hc, hl⟩

theorem event {deed : Deed} (hd : deed.isIdle = true) (hp : b.past = ⟨deed, a.toSituation⟩ :: a.past)
    (hn : b.animations = a.animations) (hc : b.clock = a.clock) (hl : b.hasLoop = a.hasLoop) : Aloof a b :=
  ⟨⟨[_], hp, fun e h => by rw [List.mem_singleton.mp h]; exact ⟨hd, rfl⟩⟩, hn, hc, hl⟩

theorem record (w : World) {deed : Deed} (hd : deed.isIdle = true) : Aloof w ((Run.record deed).after w) :=
  event hd rfl rfl rfl rfl

theorem course : Course Aloof where
  refl _ := of_eq rfl rfl rfl rfl
  trans := by
    rintro a b c ⟨⟨new, hb, h⟩, hn, hc, hl⟩ ⟨⟨more, hc', k⟩, kn, kc, kl⟩
    refine ⟨⟨more ++ new, by rw [hc', hb, List.append_assoc], fun e he => ?_⟩, kn.trans hn, kc.trans hc, kl.trans hl⟩
    rcases List.mem_append.mp he with he | he
    · exact ⟨(k e he).1, (k e he).2.trans hn⟩
    · exact h e he

theorem touch (h : Touch a b) : Aloof a b := by
  cases h with
  | ask | draw => exact event rfl rfl rfl rfl rfl
  | @listen deed listeners h =>
    refine event ?_ rfl rfl rfl rfl
    cases deed <;> first | rfl | cases h
  | _ => exact of_eq rfl rfl rfl rfl

theorem touches {α : Type} {x : Run α} (h : Along Touches x) : Along Aloof x :=
  h.mono (Touches.lift course touch)

theorem store (r : Script.Ref) (c : Script.Contents) : Along Aloof (Run.store r c) := fun w => by
  refine event rfl (Run.store_past r c w) ?_ ?_ ?_ <;> cases r <;> cases c <;> rfl

end Aloof

theorem Deed.isIdle_of_isPlain {d : Deed} (h : d.isPlain = true) (ht : d.isTimely = false) : d.isIdle = true := by
  cases d <;> first | rfl | exact absurd ht Bool.true_eq_false.mp

/-- A relation that can be composed, holds of what has nothing to do with animations, and is kept to by tasks
that are left to the clock and by what is done with animations. -/
structure Tending (R : World → World → Prop) : Prop extends Course R where
  aloof {a b : World} : Aloof a b → R a b
  soon {j : Job} : j.isTask → Along R (Run.soon j)
  postpone {j : Job} : j.isTask → ∀ seconds, Along R (Run.postpone seconds j)
  add (id : Nat) (duration delay : Datum) (seconds : Option Binary64) (w : World) :
    (w.hasLoop = true → seconds.isSome) → R w ((Run.addAnimation id duration delay seconds).after w)
  queue (n : Nat) (c : Change) : Along R (Run.queue n c)
  stop {play : Player} : (∀ act, Along R (play act)) → ∀ n, Along R (Run.stop play n)
  afterwards {play : Player} : (∀ act, Along R (play act)) →
    ∀ n callback, Along R (Run.afterwards play n callback)

namespace Tending

open Run

variable (T : Tending R)
include T

theorem record {deed : Deed} (h : deed.isIdle = true) : Along R (record deed) := fun w => T.aloof (.record w h)

theorem same {f : World → World} (hp : ∀ w, (f w).past = w.past) (hn : ∀ w, (f w).animations = w.animations)
    (hc : ∀ w, (f w).clock = w.clock) (hl : ∀ w, (f w).hasLoop = w.hasLoop) : Along R (modify f : Run Unit) :=
  .modify fun w => T.aloof (.of_eq (hp w) (hn w) (hc w) (hl w))

theorem placid : Placid R where
  toCourse := T.toCourse
  touch h := T.aloof (.touch h)
  plain w _ h ht := T.aloof (.record w (Deed.isIdle_of_isPlain h ht))
  task w _ h := T.soon h w
  told _ _ := T.aloof (.of_eq rfl rfl rfl rfl)
  asked _ _ := T.aloof (.of_eq rfl rfl rfl rfl)
  same _ _ _ := T.aloof (.of_eq rfl rfl rfl rfl)
  shape h := T.aloof (by cases h <;> exact .of_eq rfl rfl rfl rfl)

theorem animate (id : Nat) (duration delay : Datum) : Along R (animate id duration delay) := by
  intro w
  unfold Run.animate
  rw [after_get_bind]
  split
  · refine T.seq ((T.placid.touches (waiting_touches duration delay)).map some w) fun seconds w' h =>
      T.add id duration delay seconds w' fun _ => ?_
    change EStateM.map some _ w = _ at h
    unfold EStateM.map at h
    split at h <;> cases h
    rfl
  · rename_i hl
    exact T.seq (T.pure none w) fun seconds w' h => by
      cases h
      exact T.add id duration delay none w fun hl' => absurd hl' hl

variable (hp : ∀ act, Along R (play act))
include hp

theorem script (l : Launch) (act : Act Datum) : Along R (script play l act) :=
  T.placid.script (T.record rfl) (fun _ => T.record rfl) hp act

theorem render : Along R (render play) :=
  T.placid.render (fun _ => T.script hp _) fun _ => T.aloof (.of_eq rfl rfl rfl rfl)

theorem setValue (id value : Datum) : Along R (setValue play id value) :=
  T.placid.setValue (fun _ _ _ _ _ => T.aloof (.event rfl rfl rfl rfl rfl))
    (T.placid.takeValue (fun _ _ _ _ => T.aloof (.event rfl rfl rfl rfl rfl)) (T.render hp)) id value

omit hp

theorem obeyed : Obeyed R where
  toGentle := T.placid.toGentle
  store r c w := T.aloof (Aloof.store r c w)
  action hp n event := T.placid.runAction (T.script hp (.action n)) event
  color hp n value := T.placid.updateColor n value (T.script hp (.color n))
  propose hp id value := T.bind (T.record rfl) fun _ => T.setValue hp id value
  call := T.placid.callAction
  animate := T.animate
  queue := T.queue
  stop := T.stop
  afterwards := T.afterwards

theorem plays (act : Act Datum) : Along R (Run.play act) := T.obeyed.plays act

/-! ### Tasks -/

theorem willing : Willing R Run.play where
  toCourse := T.toCourse
  chore {deed} h := T.record (by cases deed <;> first | rfl | cases h)
  soon := T.soon
  postpone := T.postpone
  host _ _ _ := T.aloof (.of_eq rfl rfl rfl rfl)
  batches _ _ := T.aloof (.of_eq rfl rfl rfl rfl)
  setBusy := T.placid.setBusy
  tellOutcome := T.placid.tellOutcome
  concludeAcquisition _ _ _ := T.placid.concludeAcquisition (T.setValue T.plays) (T.record rfl) _ _

theorem task {j : Job} (h : j.isTask) : Along R (work Run.play j) := T.willing.task h

/-! ### Loading -/

theorem adopting : Adopting R where
  toGentle := T.placid.toGentle
  known _ _ _ _ _ := T.aloof (.of_eq rfl rfl rfl rfl)
  adopt _ _ _ _ _ _ := T.aloof (.of_eq rfl rfl rfl rfl)
  clear _ := T.aloof (.of_eq rfl rfl rfl rfl)

theorem setUp (b : Behavior) : Along R (setUp b) := by
  refine T.bind T.get fun w => ?_
  dsimp only
  split
  · refine T.bind (T.placid.touches (load_touches _)) fun _ => T.bind (T.placid.normalize _ _) fun _ => ?_
    refine T.bind (T.bind (T.ofExcept _) fun _ => T.bind (T.record rfl) fun _ => ?_) fun _ => fun w => ?_
    · exact T.bind (fun w => T.aloof (.of_eq rfl rfl rfl rfl)) fun _ => fun w => T.aloof (.of_eq rfl rfl rfl rfl)
    · exact T.aloof (.of_eq rfl rfl rfl rfl)
  · exact fun w => T.aloof (.of_eq rfl rfl rfl rfl)
  · exact T.pure _
  · exact T.throw _

theorem unfold (content : String) : Along R (Run.unfold content) := by
  refine T.bind (T.adopting.loadContent T.setUp content) fun _ => T.bind (T.render T.plays) fun _ => ?_
  exact T.bind T.placid.startAcquisition fun _ => T.bind T.get fun _ => T.placid.logEntry _

/-! ### Whole runs -/

/-- A wider relation is kept to by every step, if it is by turns and as time passes. -/
theorem step (h : ∀ {a b}, R a b → S a b) (ht : Along S (turn Run.play))
    (hw : ∀ (w : World) (seconds : Binary64), S w { w with clock := w.clock.advance seconds }) (s : Step) :
    Along S s.run := by
  have hl : ∀ v, Along R (load v) := fun v => T.placid.touches (load_touches v)
  cases s with
  | set id value =>
    exact .mono (T.bind (hl _) fun _ => T.bind (hl _) fun _ => T.setValue T.plays _ _) h
  | call event id value observer =>
    exact .mono (T.bind (hl _) fun _ => T.bind (hl _) fun _ => T.bind (hl _) fun _ =>
      (T.placid.callAction _ _ _ _).discard) h
  | fire element trigger event =>
    exact .mono (T.bind (hl _) fun _ => T.bind (hl _) fun _ => T.obeyed.fire T.plays _ _ _) h
  | script act => exact .mono (T.plays act).discard h
  | render => exact .mono (T.render T.plays) h
  | size width height => exact .mono (T.placid.setSize (fun _ _ => T.aloof (.of_eq rfl rfl rfl rfl)) width height) h
  | resize => exact .mono T.placid.resize h
  | mount => exact .mono T.placid.addTo h
  | host change => exact .mono (T.placid.anyHost change) h
  | turn => exact ht.discard
  | wait seconds => exact fun w => hw w seconds
  | destroy =>
    refine .mono (T.bind T.get fun w => .ite (T.pure _) ?_) h
    exact T.bind (fun w => T.aloof (.of_eq rfl rfl rfl rfl)) fun _ => T.bind T.get fun _ => T.placid.logEntry _

/-- A wider relation is kept to by whole runs, if it is by turns and as time passes. -/
theorem onward (C : Course S) (h : ∀ {a b}, R a b → S a b) (ht : Along S (turn Run.play))
    (hw : ∀ (w : World) (seconds : Binary64), S w { w with clock := w.clock.advance seconds })
    {unfolded : Bool} (ho : a.Onward unfolded b) : S a b := by
  induction ho with
  | refl => exact C.refl a
  | step s _ ih => exact C.trans ih (T.step h ht hw s _)
  | fetch _ ih => exact C.trans ih (h (T.adopting.fetchDocument _))
  | unfold content _ ih => exact C.trans ih (h (T.unfold content _))

end Tending

end LiveSvg
