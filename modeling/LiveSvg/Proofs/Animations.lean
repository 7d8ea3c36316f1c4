import LiveSvg.Proofs.Telling
/-!
What becomes of animations while a visual is used, in whatever order they are asked for changes and callbacks, are
finished, and come to their times.
-/

namespace LiveSvg

open Number (Binary64)
open Script (Act Datum)

variable {a b w : World} {n : Nat}

/-- What has become of an animation, and what is still to become of it. -/
structure World.Accounts (w : World) (n : Nat) (x : Animation) : Prop where
  /-- It has been started for one time. -/
  started : ∃ due, ∀ d, StartedFor n d w.past ↔ d = due
  finished : x.isFinished = true ↔ Ceased n w.past
  running : x.isRunning = !x.isFinished
  /-- Once it has ended, all changes that it was asked for have been applied, in that order, … -/
  applied : Ceased n w.past → collect (Deed.applied? n) w.past = collect (Deed.asked? n) w.past
  /-- … and all callbacks that were to wait for its end have been called. -/
  called : Ceased n w.past → (collect (Deed.called? n) w.past).Perm (collect (Deed.awaited? n) w.past)
  /-- Until then it has applied and called nothing. -/
  waiting : ¬ Ceased n w.past → collect (Deed.applied? n) w.past = [] ∧ collect (Deed.called? n) w.past = []

theorem World.Timely.settled {x : Animation} (h : w.Timely {}) (hx : w.animations[n]? = some x) : x.isSettled :=
  (h.animations n x hx).settled.resolve_right And.right

/-- The callbacks of an animation that has ended are those that were to wait for its end. -/
theorem World.Untouched.called {unfolded : Bool} (h₀ : a.Untouched) (h : a.Onward unfolded w)
    (hf : ∀ e ∈ w.past, e.deed.fits = true) {x : Animation} (hx : w.animations[n]? = some x)
    (hend : x.isFinished = true) :
    (collect (Deed.called? n) w.past).Perm (collect (Deed.awaited? n) w.past) := by
  obtain ⟨new, hp, hsettling⟩ := Settles.onward h
  rw [h₀.past, List.append_nil] at hp
  rw [← hp] at hsettling
  have hcalled := (hsettling fun e he => Deed.isSmooth_of_fits (hf e he)).called n
  have hfirst : a.awaiting n = 0 := by
    unfold Situation.awaiting
    rw [h₀.animations]
    rfl
  have hlast : w.awaiting n = 0 := by
    have hnone : x.awaiting = [] := if_pos hend
    rw [Situation.awaiting_of hx, hnone]
    rfl
  rw [hfirst, hlast, Pi.zero_apply, zero_add, zero_add, add_zero] at hcalled
  exact (Multiset.coe_eq_coe.mp hcalled).symm

theorem World.Untouched.accounts {unfolded : Bool} (h₀ : a.Untouched) (h : a.Onward unfolded w)
    (hf : ∀ e ∈ w.past, e.deed.fits = true) (ht : w.Timely {}) {x : Animation} (hx : w.animations[n]? = some x) :
    w.Accounts n x where
  started := (ht.animations n x hx).started
  finished := (ht.ceased_iff hx).symm
  running := ht.settled hx
  applied := ht.books.caughtUp fun _ => rfl
  called hn := h₀.called h hf hx ((ht.ceased_iff hx).mp hn)
  waiting hn := ⟨ht.books.punctual.unapplied hn, ht.books.punctual.uncalled hn⟩

/-- The animations of an element that are under way are those that have not ended. -/
theorem World.Timely.running (h : w.Timely {}) (id : Nat) : ∃ l, Run.running id w = .ok l w ∧
    ∀ m, m ∈ l ↔ ∃ x : Animation, w.animations[m]? = some x ∧ x.element = id ∧ x.isFinished = false := by
  refine ⟨_, Run.running_eq id w, fun m => ?_⟩
  rw [(Run.mem_running (Run.running_eq id w)).2 m]
  refine exists_congr fun x => and_congr_right fun hx => and_congr_right fun _ => ?_
  have hs : x.isRunning = !x.isFinished := h.settled hx
  rw [hs, Bool.not_eq_true']

/-- On a running loop, in whatever way a visual is used: all that comes to pass is in time; each animation has
applied what it was asked for and called what was to wait for its end once it has ended, and nothing before; those of
an element that are under way are those that have not ended; a turn ends each whose time has come; and when a script
has asked for the next animation of an element, that is the only one, unless one is started or called back for
meanwhile. -/
theorem animations_in_time {unfolded : Bool} (h₀ : a.Untouched) (h : a.Onward unfolded w)
    (hf : ∀ e ∈ w.past, e.deed.fits = true) :
    (∀ e r, e :: r <:+ w.past → e.InTime r) ∧
    (∀ (n : Nat) (x : Animation), w.animations[n]? = some x → w.Accounts n x) ∧
    (∀ id, ∃ l, Run.running id w = .ok l w ∧
      ∀ m, m ∈ l ↔ ∃ x : Animation, w.animations[m]? = some x ∧ x.element = id ∧ x.isFinished = false) ∧
    ((∀ e ∈ (Step.turn.after w).since w, e.deed.fits = true) → ∀ n due, StartedFor n due w.past →
      w.clock.reaches due = true → Ceased n (Step.turn.after w).past) ∧
    (∀ e r element duration levels d b, e :: r <:+ w.past → e.deed = .invoke .api "animate" [element, duration] →
      Run.animateNext (Run.playWithin levels) element duration ⟨e.before, e :: r⟩ = .ok d b →
      (∀ e' ∈ b.since ⟨e.before, e :: r⟩, e'.deed.fits = true) →
      ∃ id n, element = World.element id ∧ d = .entity (.animation n) ∧
        ((∀ (m : Nat) (x : Animation), e.before.animations[m]? = some x → x.element = id → ¬ Calling m r) →
          (∀ e' ∈ b.since ⟨e.before, e :: r⟩, ∀ m due, e'.deed = .animate m id due → m = n) →
          Run.running id b = .ok [n] b)) := by
  have ht : w.Timely {} := by
    obtain ⟨new, hp, hw⟩ := Tells.onward h
    rw [h₀.past, List.append_nil] at hp
    exact hw (hp ▸ hf) h₀.timely
  refine ⟨fun e r => ht.books.punctual.inTime, fun n x hx => h₀.accounts h hf ht hx, ht.running, fun hfits => ?_,
    fun e r element duration levels d b hr hd hb hfits => ?_⟩
  · have hturn : Step.turn.after w = (Run.turn Run.play).after w := Run.after_map _ _ _
    rw [hturn] at hfits ⊢
    exact ((Tells.turn w).since hfits ht).2
  · obtain ⟨id, n, he, hn, halone⟩ := animateNext_alone hb fun e he => Deed.isSmooth_of_fits (hfits e he)
    refine ⟨id, n, he, hn, fun hcalm honly => halone (fun m x hx hxe => ?_) honly⟩
    rcases (ht.books.punctual.inTime hr).settled m x hx with hs | ⟨-, hc | ha | ⟨callback, hc⟩⟩
    · exact hs
    · exact absurd hc (hcalm m x hx hxe)
    · rw [hd] at ha
      cases ha
    · rw [hd] at hc
      cases hc

/-! ### Runs of a blank drawing -/

/-- A drawing of nothing but its root, with a clock. -/
def blankWorld : World := World.ofDrawing (none : Option (Markup.Element Nat)) true

theorem blankWorld_untouched : blankWorld.Untouched := ⟨rfl, rfl, rfl, rfl, rfl⟩

/-- The root is filled when a second has passed, and once more afterwards; its next animation comes to its time. -/
def fillingSteps : List Step :=
  [.script (.invoke (.element 0) "animate" [.int 1000]), .script (.invoke (.animation 0) "fill" [.text "red"]),
    .script (.invoke (.animation 0) "after" [.method (.entity (.animation 0)) "finish"]), .wait (Binary64.ofInt 1),
    .turn, .script (.invoke (.animation 0) "fill" [.text "blue"]),
    .script (.invoke .api "animate" [World.element 0, .int 2000]), .wait (Binary64.ofInt 2)]

set_option maxRecDepth 100000 in
/-- It is so when the root is filled. -/
theorem animations_in_time_filling : ∃ w : World, blankWorld.Untouched ∧ blankWorld.Onward false w ∧
    (∀ e ∈ w.past, e.deed.fits = true) ∧ Ceased 0 w.past ∧ (collect (Deed.asked? 0) w.past).length = 2 ∧
    (collect (Deed.awaited? 0) w.past).length = 1 ∧
    (∀ x : Animation, w.animations[0]? = some x → w.Accounts 0 x) ∧ ¬ Ceased 1 w.past ∧
    Ceased 1 (Step.turn.after w).past := by
  have h := (World.Onward.refl (a := blankWorld)).steps fillingSteps
  obtain ⟨w, hw⟩ : ∃ w, w = fillingSteps.foldl (fun w s => s.after w) blankWorld := ⟨_, rfl⟩
  have hrun : w.past.all (·.deed.fits) = true ∧ ((Step.turn.after w).since w).all (·.deed.fits) = true ∧
      Ceased 0 w.past ∧ (collect (Deed.asked? 0) w.past).length = 2 ∧
      (collect (Deed.awaited? 0) w.past).length = 1 ∧ StartedFor 1 (Binary64.ofInt 3) w.past ∧ ¬ Ceased 1 w.past ∧
      w.clock.reaches (Binary64.ofInt 3) = true := by
    rw [hw]
    decide +kernel
  rw [← hw] at h
  obtain ⟨hfits, hturn, hceased, hasked, hawaited, hstarted, hopen, hreached⟩ := hrun
  obtain ⟨-, haccounts, -, hdue, -⟩ := animations_in_time blankWorld_untouched h (List.all_eq_true.mp hfits)
  exact ⟨w, blankWorld_untouched, h, List.all_eq_true.mp hfits, hceased, hasked, hawaited, haccounts 0, hopen,
    hdue (List.all_eq_true.mp hturn) 1 _ hstarted hreached⟩

/-- The root is to be filled when a second has passed, after an animation of it has been asked for that is to take a
time which is no number. -/
def hiddenSteps : List Step :=
  [.script (.invoke (.element 0) "animate" [.int 5000]), .script (.invoke (.element 0) "animate" [.float .nan]),
    .script (.invoke (.element 0) "animate" [.int 7000]), .script (.invoke (.element 0) "animate" [.int 1000]),
    .script (.invoke (.animation 3) "fill" [.text "red"]), .wait (Binary64.ofInt 1)]

set_option maxRecDepth 100000 in
/-- Nothing fails, but a timer for no time hides one that is due, and a change is not applied in time; and while a
callback of an animation is called, that is under way though it has ended. -/
theorem animations_hidden :
    (∃ w : World, blankWorld.Onward false w ∧ (∀ e ∈ (Step.turn.after w).past, e.deed.isSmooth = true) ∧
      StartedFor 3 (Binary64.ofInt 1) w.past ∧ w.clock.reaches (Binary64.ofInt 1) = true ∧
      (collect (Deed.asked? 3) w.past).length = 1 ∧ (collect (Deed.applied? 3) (Step.turn.after w).past).length = 0 ∧
      ¬ Ceased 3 (Step.turn.after w).past) ∧
    ∃ w : World, blankWorld.Onward false w ∧ (∀ e ∈ w.past, e.deed.isSmooth = true) ∧
      ∃ e ∈ w.past, ∃ x : Animation, e.before.animations[0]? = some x ∧ x.isFinished = true ∧ x.isRunning = true := by
  refine ⟨⟨_, World.Onward.refl.steps hiddenSteps, List.all_eq_true.mp ?_, ?_⟩,
    ⟨_, World.Onward.refl.steps fillingSteps, List.all_eq_true.mp ?_, ?_⟩⟩
  · decide +kernel
  · decide +kernel
  · decide +kernel
  · have hany : (fillingSteps.foldl (fun w s => s.after w) blankWorld).past.any (fun e =>
        e.before.animations[0]?.any fun x => x.isFinished && x.isRunning) = true := by decide +kernel
    obtain ⟨e, he, hx⟩ := List.any_eq_true.mp hany
    cases hfound : e.before.animations[0]? with
    | none =>
      rw [hfound] at hx
      cases hx
    | some x =>
      rw [hfound] at hx
      exact ⟨e, he, x, hfound, Bool.and_eq_true_iff.mp hx⟩

end LiveSvg
