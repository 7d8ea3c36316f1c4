import LiveSvg.Proofs.Pass
import LiveSvg.Proofs.Seeding
/-!
Nothing on show is stale. A script in the middle of a pass can bring about a whole pass of its own;
what a pass has shown before that is shown again by the inner one, and what it shows afterwards is
later still.
-/

namespace LiveSvg

open Script (Act Datum)

variable {play : Player} {p : Pass} {past : List Event} {l : Launch}

/-- Whether a value that scripts see has changed, or has been given for the first time. -/
def Event.isChange (e : Event) : Prop :=
  (∃ id value, e.deed = .change id value) ∨ ∃ id value, e.deed = .seed id value

/-- A script has been started, and no value has changed since. -/
def StartedLast (past : List Event) (l : Launch) : Prop :=
  ∃ later e earlier, past = later ++ e :: earlier ∧ e.deed = .start l ∧ ∀ x ∈ later, ¬ x.isChange

theorem StartedLast.now (s : Situation) (past : List Event) (l : Launch) :
    StartedLast (⟨.start l, s⟩ :: past) l :=
  ⟨[], _, past, rfl, rfl, fun x hx => absurd hx (by simp)⟩

theorem StartedLast.cons (h : StartedLast past l) {e : Event} (he : ¬ e.isChange) :
    StartedLast (e :: past) l := by
  obtain ⟨later, x, earlier, rfl, hx, hl⟩ := h
  refine ⟨e :: later, x, earlier, rfl, hx, fun y hy => ?_⟩
  rcases List.mem_cons.mp hy with rfl | hy
  · exact he
  · exact hl y hy

/-- Some scripts of a pass that stands have been started since the last change of a value. -/
structure Covers (p : Pass) (done : List Launch) (w : World) : Prop where
  stands : p.Stands w.toSituation
  within : ∀ l ∈ done, l ∈ p.launches
  started : ∀ l ∈ done, StartedLast w.past l

namespace Covers

variable {done : List Launch} {a b : World}

theorem cons (h : Covers p done a) {e : Event} (hp : b.past = e :: a.past) (he : ¬ e.isChange)
    (hs : p.Stands b.toSituation) : Covers p done b where
  stands := hs
  within := h.within
  started l hl := by rw [hp]; exact (h.started l hl).cons he

theorem silent (h : Covers p done a) (hp : b.past = a.past) (hs : p.Stands b.toSituation) :
    Covers p done b where
  stands := hs
  within := h.within
  started := by rw [hp]; exact h.started

theorem subset (h : Covers p done a) {fewer : List Launch} (hf : ∀ l ∈ fewer, l ∈ done) :
    Covers p fewer a where
  stands := h.stands
  within l hl := h.within l (hf l hl)
  started l hl := h.started l (hf l hl)

/-- Starting one more script of the pass adds to what is covered. -/
theorem start (h : Covers p done a) (hl : l ∈ p.launches) :
    Covers p (done ++ [l]) ((Run.record (.start l)).after a) where
  stands := h.stands
  within k hk := by
    rcases List.mem_append.mp hk with hk | hk
    · exact h.within k hk
    · obtain rfl := List.mem_singleton.mp hk
      exact hl
  started k hk := by
    rcases List.mem_append.mp hk with hk | hk
    · refine (h.started k hk).cons ?_
      rintro (⟨_, _, hc⟩ | ⟨_, _, hc⟩) <;> cases hc
    · obtain rfl := List.mem_singleton.mp hk
      exact .now _ _ _

end Covers

/-- What has been started since the last change of a value still has. -/
def KeepsUp (p : Pass) (a b : World) : Prop :=
  ∀ done, Under Event.keepsTags (Covers p done) a b

namespace KeepsUp

theorem course (p : Pass) : Course (KeepsUp p) where
  refl w _ := (Under.course _ _).refl w
  trans h k done := (Under.course _ _).trans (h done) (k done)

theorem event {a b : World} {deed : Deed} (h : b.past = ⟨deed, a.toSituation⟩ :: a.past)
    (hd : ¬ Event.isChange ⟨deed, a.toSituation⟩)
    (hs : Event.keepsTags ⟨deed, a.toSituation⟩ → p.Stands a.toSituation → p.Stands b.toSituation) :
    KeepsUp p a b :=
  fun _ => .event h fun k i => i.cons h hd (hs k i.stands)

theorem silent {a b : World} (h : b.past = a.past)
    (hs : p.Stands a.toSituation → p.Stands b.toSituation) : KeepsUp p a b :=
  fun _ => .silent h fun i => i.silent h (hs i.stands)

theorem calm (p : Pass) : Calm (KeepsUp p) where
  toCourse := course p
  stir {a b} h := by
    rcases h.past with ⟨hp, hd⟩ | ⟨deed, hp, ⟨hk, hd⟩ | ⟨d, rfl, hd⟩⟩
    · exact silent hp fun s => s.alike h.alike hd
    · refine event hp ?_ fun _ s => s.alike h.alike hd
      rintro (⟨_, _, rfl⟩ | ⟨_, _, rfl⟩) <;> cases hk
    · refine event hp ?_ fun k s => ?_
      · rintro (⟨_, _, hc⟩ | ⟨_, _, hc⟩) <;> cases hc
      · exact s.redraw h.alike hd k

theorem script (hp : ∀ act, Along (KeepsUp p) (play act)) (l : Launch) (act : Act Datum) :
    Along (KeepsUp p) (Run.script play l act) := by
  refine (calm p).script (fun w => event rfl ?_ fun _ => id) (fun r w => event rfl ?_ fun _ => id)
    hp act
  · rintro (⟨_, _, hc⟩ | ⟨_, _, hc⟩) <;> cases hc
  · rintro (⟨_, _, hc⟩ | ⟨_, _, hc⟩) <;> cases hc

/-- A pass starts all its scripts, whatever they bring about and whichever of them fail. -/
theorem pass (hp : ∀ act, Along (KeepsUp p) (play act)) :
    Leads Event.keepsTags (Covers p []) (Run.render play) fun _ => Covers p p.launches := by
  refine Pass.leads (J := Covers p) (fun act w => (hp act w []).later) (fun _ _ i => i.stands) ?_
    (fun _ i => i.stands) fun w i => i.silent rfl { i.stands with }
  intro l hl done prog target label
  have hlog : ∀ e, Along (KeepsUp p) (Run.logEntry e) := (calm p).logEntry
  refine .bind (J := fun _ => Covers p (done ++ [l])) ?_ fun result => ?_
  · refine .bind (.record fun w _ i => i.start hl) fun _ => .bind (.attempt fun w => hp _ w _) fun r => ?_
    refine .bind (.record fun w _ i => ?_) fun _ => .pure fun w i => i
    refine i.cons rfl ?_ i.stands
    rintro (⟨_, _, hc⟩ | ⟨_, _, hc⟩) <;> cases hc
  · cases result with
    | ok d => exact .pure fun w i => i
    | error f => exact .modify (fun _ => rfl) fun w i => i.silent rfl (i.stands.alike .rfl rfl)

theorem render (hp : ∀ act, Along (KeepsUp p) (play act)) : Along (KeepsUp p) (Run.render play) := by
  intro w done
  obtain ⟨new, hn, hk⟩ := (pass hp).under w
  exact ⟨new, hn, fun q i => (hk q (i.subset fun _ h => absurd h (by simp))).subset i.within⟩

theorem takeValue (hp : ∀ act, Along (KeepsUp p) (play act)) (id : Value) (value : Datum) :
    Along (KeepsUp p) (Run.takeValue play id value) := by
  intro w done
  rw [Run.takeValue_after]
  cases w.changed? id value with
  | none => exact (course p).refl w done
  | some key =>
    obtain ⟨new, hn, hk⟩ := (pass hp).under (w.changed id key value)
    refine ⟨new ++ [⟨.change id value, w.toSituation⟩], by rw [hn, List.append_assoc]; rfl, fun q i => ?_⟩
    -- what was covered before the change is covered anew by the pass that follows it
    refine (hk (fun e he => q e (by simp [he])) ⟨?_, ?_, ?_⟩).subset i.within
    · exact i.stands.alike .rfl rfl
    · exact fun _ h => absurd h (by simp)
    · exact fun _ h => absurd h (by simp)

theorem driven (p : Pass) : Driven (KeepsUp p) where
  toCalm := calm p
  store r c w := by
    refine event (Run.store_past r c w) ?_ fun _ s => ?_
    · rintro (⟨_, _, hc⟩ | ⟨_, _, hc⟩) <;> cases hc
    · exact s.alike (by rw [Run.store_visual]; exact .rfl) (Run.store_drawing r c w)
  script hp _ _ := script hp _
  acquire _ _ _ w := event rfl (by rintro (⟨_, _, hc⟩ | ⟨_, _, hc⟩) <;> cases hc) fun _ => id
  value hp := (calm p).setValue
    (fun w id cell value _ => event rfl (by rintro (⟨_, _, hc⟩ | ⟨_, _, hc⟩) <;> cases hc)
      fun _ s => { s with }) (takeValue hp)
  render := render
  aim _ _ := silent rfl fun s => { s with }

end KeepsUp

/-! ### Jobs -/

/-- Nothing has come to pass that is the end of a job. -/
def Workless (a b : World) : Prop :=
  ∃ new, b.past = new ++ a.past ∧ ∀ e ∈ new, ∀ j, e.deed ≠ .work j

theorem Workless.driven : Driven Workless := by
  have one : ∀ {a b : World} {deed : Deed}, b.past = ⟨deed, a.toSituation⟩ :: a.past →
      (∀ j, deed ≠ .work j) → Workless a b := fun h hd =>
    ⟨[_], h, fun e he j => by
      obtain rfl := List.mem_singleton.mp he
      exact hd j⟩
  have C : Calm Workless :=
    { refl := fun _ => ⟨[], rfl, fun e he => absurd he (by simp)⟩
      trans := by
        rintro a b c ⟨new, hb, h⟩ ⟨more, hc, k⟩
        refine ⟨more ++ new, by rw [hc, hb, List.append_assoc], fun e he => ?_⟩
        rcases List.mem_append.mp he with he | he
        · exact k e he
        · exact h e he
      stir := fun h => by
        rcases h.past with ⟨hp, -⟩ | ⟨deed, hp, ⟨hk, -⟩ | ⟨d, rfl, -⟩⟩
        · exact ⟨[], hp, fun e he => absurd he (by simp)⟩
        · refine one hp fun j => ?_
          rintro rfl
          cases hk
        · exact one hp fun j => Deed.noConfusion }
  exact C.driven (fun _ _ => ⟨[], rfl, fun e he => absurd he (by simp)⟩)
    (fun _ _ => one rfl fun _ => Deed.noConfusion)
    (fun _ _ _ => one rfl fun _ => Deed.noConfusion) (fun _ _ _ _ => one rfl fun _ => Deed.noConfusion)
    (fun r c w => one (Run.store_past r c w) fun _ => Deed.noConfusion)
    (fun _ => ⟨[], rfl, fun e he => absurd he (by simp)⟩)
    (fun _ _ _ _ => one rfl fun _ => Deed.noConfusion)
    fun _ _ _ _ _ => one rfl fun _ => Deed.noConfusion

/-- All scripts of a pass have been started since the last change, and had been at the end of every
job that came after the first so many events. -/
def FreshJobs (p : Pass) (first : Nat) : List Event → Prop
  | [] => True
  | e :: past => (first ≤ past.length → (∃ j, e.deed = .work j) →
      p.Stands e.before ∧ ∀ l ∈ p.launches, StartedLast past l) ∧ FreshJobs p first past

structure FreshSince (p : Pass) (first : Nat) (w : World) : Prop where
  covers : Covers p p.launches w
  jobs : FreshJobs p first w.past

namespace FreshJobs

variable {first : Nat}

theorem of_short (h : past.length ≤ first) : FreshJobs p first past := by
  induction past with
  | nil => trivial
  | cons e past ih =>
    rw [List.length_cons] at h
    exact ⟨fun k => absurd k (by omega), ih (by omega)⟩

theorem append (h : FreshJobs p first past) {new : List Event}
    (hn : ∀ e ∈ new, ∀ j, e.deed ≠ .work j) : FreshJobs p first (new ++ past) := by
  induction new with
  | nil => exact h
  | cons e new ih =>
    refine ⟨fun _ k => ?_, ih fun x hx => hn x (by simp [hx])⟩
    obtain ⟨j, hj⟩ := k
    exact absurd hj (hn e (by simp) j)

theorem at_job {later earlier : List Event} {e : Event}
    (h : FreshJobs p first (later ++ e :: earlier)) (hf : first ≤ earlier.length)
    (hj : ∃ j, e.deed = .work j) : p.Stands e.before ∧ ∀ l ∈ p.launches, StartedLast earlier l := by
  induction later with
  | nil => exact h.1 hf hj
  | cons x later ih => exact ih h.2

end FreshJobs

theorem FreshSince.step {first : Nat} {a b : World} (h : KeepsUp p a b) (hw : Workless a b) :
    Under Event.keepsTags (FreshSince p first) a b := by
  obtain ⟨new, hn, hk⟩ := h p.launches
  obtain ⟨new', hn', hk'⟩ := hw
  obtain rfl : new = new' := List.append_cancel_right (hn.symm.trans hn')
  refine ⟨new, hn, fun q i => ⟨hk q i.covers, ?_⟩⟩
  rw [hn]
  exact i.jobs.append hk'

theorem FreshSince.turn (p : Pass) (first : Nat) :
    Along (Under Event.keepsTags (FreshSince p first)) (Run.turn Run.play) := by
  have D := KeepsUp.driven p
  have C : Course (Under Event.keepsTags (FreshSince p first)) := Under.course _ _
  have hstir : ∀ {a b}, Stir a b → Under Event.keepsTags (FreshSince p first) a b :=
    fun h => FreshSince.step (D.stir h) (Workless.driven.stir h)
  refine C.bind (.modifyGet fun w => hstir (.clock w _)) fun jobs => C.bind (C.forM fun j _ => ?_)
    fun _ => C.pure _
  refine C.bind ?_ fun _ w => ?_
  · exact Along.discard <| .attempt fun w => FreshSince.step (D.work D.steady.plays j w)
      (Workless.driven.work Workless.driven.steady.plays j w)
  · refine .event rfl fun _ i => ⟨i.covers.cons rfl ?_ i.covers.stands, ?_, i.jobs⟩
    · rintro (⟨_, _, hc⟩ | ⟨_, _, hc⟩) <;> cases hc
    · exact fun _ _ => ⟨i.covers.stands, i.covers.started⟩

/-! ### Whole runs -/

/-- Showing a visual in place leaves nothing stale. -/
theorem FreshSince.present {w₁ w₂ : World} (h : Run.present Run.play w₁ = .ok () w₂)
    (hs : p.Stands w₁.toSituation) :
    ∃ new, w₂.past = new ++ w₁.past ∧
      ((∀ e ∈ new, e.keepsTags) → FreshSince p w₁.past.length w₂) := by
  have D := KeepsUp.driven p
  obtain ⟨new, hn, hw⟩ := Workless.driven.present.leads h
  obtain ⟨_, u, hu, hk⟩ := Run.bind_eq_ok.mp h
  obtain ⟨new₁, hn₁, k₁⟩ := (KeepsUp.pass D.steady.plays).under w₁
  rw [Run.after_ok hu] at hn₁ k₁
  have ha : Along (KeepsUp p) (do
      Run.startAcquisition
      Run.logEntry (Log.info (Run.loadedText (← get).visual)) : Run Unit) :=
    D.bind D.startAcquisition fun _ => D.bind D.get fun _ => D.logEntry _
  obtain ⟨new₂, hn₂, k₂⟩ := ha.leads hk p.launches
  rw [hn₁, ← List.append_assoc] at hn₂
  obtain rfl : new = new₂ ++ new₁ := List.append_cancel_right (hn.symm.trans hn₂)
  refine ⟨_, hn, fun q => ⟨k₂ (fun e he => q e (by simp [he])) (k₁ (fun e he => q e (by simp [he])) ?_), ?_⟩⟩
  · exact ⟨hs, fun _ h => absurd h (by simp), fun _ h => absurd h (by simp)⟩
  · rw [hn]
    exact (FreshJobs.of_short (Nat.le_refl _)).append hw

/-- In every live world that follows a visual in place, the script of the whole and that of each tag on
each element which carries it have been started since the last change of a value, whichever scripts
have failed and whatever they have brought about; so it was at the end of every job. All that is asked
for is that no drawing changes which elements carry the tags. -/
theorem nothing_stale {w₁ w : World} (h₁ : w₁.Placed) (h : w₁.Follows w) (live : w.isLive)
    (kept : ∀ e ∈ w.since w₁, e.keepsTags) :
    (∀ l ∈ w.pass, StartedLast w.past l) ∧
      ∀ later e earlier, w.past = later ++ e :: earlier → w₁.past.length ≤ earlier.length →
        (∃ j, e.deed = .work j) → ∀ l ∈ e.before.pass, StartedLast earlier l := by
  have hf : ∃ p, FreshSince p w₁.past.length w := by
    obtain ⟨p, hs⟩ := h₁.standing h live
    have D := KeepsUp.driven p
    obtain ⟨w₂, h₂, -, more, hm, k⟩ := h.course (Under.course _ (FreshSince p w₁.past.length))
      (fun s hne w => by
        by_cases ht : s = .turn
        · subst ht
          exact (FreshSince.turn p _).discard w
        · exact FreshSince.step (D.step hne (fun k => absurd k ht) w)
            (Workless.driven.step hne (fun k => absurd k ht) w)) live
    obtain ⟨new, hn, i⟩ := FreshSince.present h₂ hs
    rw [hn, ← List.append_assoc] at hm
    rw [World.since_eq hm] at kept
    exact ⟨p, k (fun e he => kept e (by simp [he])) (i fun e he => kept e (by simp [he]))⟩
  obtain ⟨p, i⟩ := hf
  refine ⟨?_, ?_⟩
  · rw [i.covers.stands.pass_eq]
    exact i.covers.started
  · intro later e earlier he hl hj
    have hjobs := i.jobs
    rw [he] at hjobs
    obtain ⟨hs, hc⟩ := hjobs.at_job hl hj
    rw [hs.pass_eq]
    exact hc

set_option maxRecDepth 100000 in
/-- It is so once the value of the lamp has been set. -/
theorem nothing_stale_lamp : ∃ w₁ w : World, w₁.Placed ∧ w₁.Follows w ∧ w.isLive ∧
    ∀ l ∈ w.pass, StartedLast w.past l := by
  obtain ⟨w₁, w, hp, hf, ht⟩ := World.Setup.leads_ok lampSetup [.set (.text "v") (.int 7)]
    (fun w₁ w => !w.visual.isDestroyed && (w.since w₁).all (·.deed.isTame)) (by decide +kernel)
  simp only [Bool.and_eq_true, Bool.not_eq_true'] at ht
  obtain ⟨live, tame⟩ := ht
  have h₁ : w₁.Placed := ⟨_, .setup lampSetup, hp⟩
  exact ⟨w₁, w, h₁, hf, live, (nothing_stale h₁ hf live fun e he =>
    Event.keepsTags_of_isTame (List.all_eq_true.mp tame e he)).1⟩

end LiveSvg
