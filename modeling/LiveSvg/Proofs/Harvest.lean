import LiveSvg.Proofs.Accounts
import LiveSvg.Proofs.Gathering
import Mathlib.Data.List.Forall2
/-!
What a visual comes to that acquires its values and is given no others. It does not matter in which
order the getters have got them.
-/

namespace LiveSvg

open Script (Datum Memory Members)

variable {o : Outcomes} {w w' w₁ : World}

/-! ### Getters and failures, event by event -/

namespace Event

/-- The getter that has its value, or has failed to get one. -/
def getter? (e : Event) : Option Nat :=
  match e.deed with
  | .acquire _ getter _ => some getter
  | _ => none

/-- The failure in an event that is not that of an acquisition. -/
def mishap? (e : Event) : Option Failure :=
  match e.deed with
  | .acquire .. => none
  | _ => e.failure?

theorem getter?_of_acquires {e : Event} {i : Nat} (h : e.acquires i = true) : e.getter? = some i := by
  obtain ⟨deed, s⟩ := e
  cases deed with
  | acquire batch getter r => exact congrArg some (beq_iff_eq.mp h)
  | _ => cases h

end Event

/-- The failures that some getters have met with. -/
def Outcomes.failures (o : Outcomes) (getters : List Nat) : List Failure :=
  getters.filterMap fun i =>
    match o i with
    | .ok _ => none
    | .error f => some f

theorem told_append {α : Type} (f : Event → Option α) (new past : List Event) :
    told f (new ++ past) = told f past ++ told f new := by
  unfold told
  rw [List.filterMap_append, List.reverse_append]

theorem mem_told {α : Type} {f : Event → Option α} {past : List Event} {x : α} :
    x ∈ told f past ↔ ∃ e ∈ past, f e = some x := by
  unfold told
  rw [List.mem_reverse, List.mem_filterMap]

/-- What has failed is what the outcomes of the getters say, and what else has. -/
theorem told_failures {past : List Event} (h : ∀ e ∈ past, e.yields o) : (told Event.failure? past).Perm
    (o.failures (told Event.getter? past) ++ told Event.mishap? past) := by
  induction past with
  | nil => exact .refl _
  | cons e past ih =>
    have ih := ih fun e he => h e (List.mem_cons_of_mem _ he)
    have he := h e List.mem_cons_self
    rw [told_cons, told_cons, told_cons]
    obtain ⟨deed, s⟩ := e
    cases deed with
    | acquire batch i r =>
      have hf : (Event.mk (.acquire batch i r) s).failure?.toList = o.failures [i] := by
        unfold Outcomes.failures
        cases r with
        | ok d =>
          obtain ⟨v, hv, -⟩ := he
          simp [hv, Event.failure?]
        | error f => simp [show o i = .error f from he, Event.failure?]
      rw [hf]
      change List.Perm _ (o.failures (_ ++ [i]) ++ (_ ++ []))
      unfold Outcomes.failures at ih ⊢
      rw [List.filterMap_append, List.append_nil, List.append_assoc]
      exact (ih.append_right _).trans (by
        rw [List.append_assoc]
        exact List.perm_append_comm.append_left _)
    | _ =>
      change List.Perm _ (o.failures (_ ++ []) ++ (_ ++ _))
      rw [List.append_nil, ← List.append_assoc]
      exact ih.append_right _

/-- Members stand for those of a value one by one. -/
theorem Script.Memory.spellsMembers_iff {m : Memory} {members : Members} {ms : List (String × Value)} :
    m.SpellsMembers members ms ↔
      List.Forall₂ (fun e f => e.1 = .text f.1 ∧ m.Spells e.2 f.2) members ms := by
  induction ms generalizing members with
  | nil =>
    rw [SpellsMembers]
    exact List.forall₂_nil_right_iff.symm
  | cons f ms ih =>
    obtain ⟨k, x⟩ := f
    rw [SpellsMembers, List.forall₂_cons_right_iff]
    constructor
    · rintro ⟨d, rest, rfl, hd, hr⟩
      exact ⟨_, rest, ⟨rfl, hd⟩, ih.mp hr, rfl⟩
    · rintro ⟨⟨_, d⟩, rest, ⟨rfl, hd⟩, hr, rfl⟩
      exact ⟨d, rest, rfl, hd, ih.mpr hr⟩

/-! ### Each getter once -/

def Milestone.getter? : Milestone → Option Nat
  | .got _ getter => some getter
  | _ => none

/-- At every stage, each getter has been asked at most once. -/
theorem Stage.getters {N : Nat} {T : Multiset Task} {B : Array Batch} {ms : List Milestone}
    (h : Stage N T B ms) : (ms.filterMap Milestone.getter?).Nodup ∧
      ∀ i ∈ ms.filterMap Milestone.getter?, i < N := by
  have hgot : ∀ done : List Nat, (done.map (Milestone.got 0)).filterMap Milestone.getter? = done := by
    intro done
    rw [List.filterMap_map]
    exact List.filterMap_some
  have hp : ∀ done : List Nat, done.Perm (List.range N) → done.Nodup ∧ ∀ i ∈ done, i < N :=
    fun done hp => ⟨hp.nodup_iff.mpr List.nodup_range, fun i hi => List.mem_range.mp (hp.mem_iff.mp hi)⟩
  cases h with
  | none => exact ⟨List.nodup_nil, fun i hi => absurd hi List.not_mem_nil⟩
  | begun => exact ⟨List.nodup_nil, fun i hi => absurd hi List.not_mem_nil⟩
  | @out b todo done asked ho =>
    obtain ⟨hn, hm⟩ := hp _ ho
    change ((done.map (Milestone.got 0)).filterMap _).Nodup ∧ ∀ i ∈ (done.map (Milestone.got 0)).filterMap _, _
    rw [hgot]
    exact ⟨(List.nodup_append.mp hn).2.1, fun i hi => hm i (List.mem_append_right _ hi)⟩
  | @closing b done hd =>
    change ((done.map (Milestone.got 0)).filterMap _).Nodup ∧ ∀ i ∈ (done.map (Milestone.got 0)).filterMap _, _
    rw [hgot]
    exact hp _ hd
  | @ended b done hd =>
    rw [List.filterMap_append]
    change (List.filterMap _ (done.map (Milestone.got 0)) ++ []).Nodup ∧
      ∀ i ∈ List.filterMap _ (done.map (Milestone.got 0)) ++ [], _
    rw [List.append_nil, hgot]
    exact hp _ hd

theorem World.ledger_getters (w : World) (J : List Job) :
    (w.ledger J).milestones.filterMap Milestone.getter? = told Event.getter? w.past := by
  unfold Ledger.milestones World.ledger told
  rw [List.filterMap_reverse, List.filterMap_filterMap, List.filterMap_reverse, List.filterMap_filterMap]
  congr 2
  funext e
  obtain ⟨deed, s⟩ := e
  cases deed with
  | call id value observer =>
    change ((Option.map _ _).bind _).bind _ = none
    cases s.setterFor? id <;> rfl
  | _ => rfl

namespace World

/-- When a visual is put in place no getter has been asked; in every live world that follows, each has
been asked at most once. -/
theorem Follows.getters (h : w₁.Follows w) (h₁ : w₁.Placed) (live : w.isLive) :
    told Event.getter? w₁.past = [] ∧ (told Event.getter? w.past).Nodup ∧
      ∀ i ∈ told Event.getter? w.past, i < w.visual.getters.size := by
  have hl : w₁.isLive := (live_driven.follows (fun _ _ => rfl) h live).symm.trans live
  have hf := (h₁.founded hl).1
  have hu := h.underway h₁ live
  have hs := hu.1.balanced.acquired.getters
  rw [ledger_getters] at hs
  refine ⟨?_, hs⟩
  rw [← ledger_getters w₁ [], (hf.balanced.acquired.unbatched hf.unbatched).2]
  rfl

/-! ### Visuals that are left to themselves -/

/-- Worlds that follow when a visual in place is shown and is then given no values, is not asked for a
pass and is not destroyed. -/
inductive Undisturbed (w₁ : World) : World → Prop where
  | present {w : World} : Run.present Run.play w₁ = .ok () w → Undisturbed w₁ w
  | step {s : Step} {w : World} : s.isAside → Undisturbed w₁ w → Undisturbed w₁ (s.after w)

namespace Undisturbed

theorem follows (h : w₁.Undisturbed w) : w₁.Follows w := by
  induction h with
  | present h => exact .present h
  | step _ _ ih => exact ih.step _

theorem live (h : w₁.Undisturbed w) (live : w₁.isLive) : w.isLive := by
  have D := live_driven
  induction h with
  | present h => exact (D.present.leads h).trans live
  | @step s w hs _ ih =>
    have hn : s ≠ .destroy := by
      rintro rfl
      cases hs
    exact (D.step hn (fun _ => D.turn D.steady.plays fun _ _ => rfl) w).trans ih

end Undisturbed

/-- What is asked of a visual in place is so as soon as its value ids are different texts, the behaviors
with them have ids that are equal to themselves, and outcomes can be compared. -/
theorem Placed.receptive (h₁ : w₁.Placed) (live : w₁.isLive)
    (texts : AllTexts w₁.visual.descriptor.valueIds) (different : w₁.visual.descriptor.valueIds.Nodup)
    (known : ∀ b ∈ w₁.visual.descriptor.receivers, b.id.same b.id = true)
    (comparable : ∀ i v, o i = .ok v → v.isComparable = true) : w₁.Receptive o where
  texts := texts
  different := different
  names := (h₁.founded live).2.1
  known := known
  sources := by
    obtain ⟨w₀, h₀, hp⟩ := h₁
    exact (Run.place_sourced (h₀.unloaded (place_live hp live)) hp).1
  comparable := comparable

/-- When a visual has been put in place and its first pass been counted, nothing has been acquired. -/
theorem Placed.gathered (h₁ : w₁.Placed) (live : w₁.isLive) (hr : w₁.Receptive o) :
    w₁.Gathered o [] w₁.counted := by
  obtain ⟨w₀, h₀, hp⟩ := h₁
  obtain ⟨hd, hps, hready⟩ := Run.place_stands hp
  obtain ⟨ha, hs, -⟩ := Run.place_seeds h₀.cells hp hr.texts
  have hk := Run.place_keyed hp hr.texts hr.different
  refine ⟨live, hd, hps, hready, rfl, rfl, ha.congr rfl rfl, hk, fun i b id hb hi => ?_, ?_⟩
  · -- no other behavior has this id, so the last one with it is this one
    obtain ⟨pre, post, hbs⟩ := List.append_of_mem (Descriptor.mem_receivers (List.mem_of_getElem? hb)).1
    have hn := hr.different
    unfold Descriptor.valueIds at hn
    rw [hbs, List.filterMap_append, List.filterMap_cons_some hi, List.nodup_append] at hn
    obtain ⟨a, d, hset, hg, hd⟩ := hs pre b post id hbs hi fun b' hb' hi' =>
      (List.nodup_cons.mp hn.2.1).1 (List.mem_filterMap.mpr ⟨b', hb', hi'⟩)
    refine ⟨d, hg, ?_⟩
    rw [if_neg (by simp)]
    unfold Visual.seedOf
    rw [hset]
    exact hd
  · have hn : w₁.visual.shown o [] = ∅ := by
      unfold Visual.shown
      simp
    rw [hn, Finset.card_empty]
    exact congrArg (· + 1) (Run.place_sourced (h₀.unloaded (place_live hp live)) hp).2

/-- In a visual that is left to itself, what has been gathered is what scripts see. -/
theorem Undisturbed.gathering (h : w₁.Undisturbed w) (h₁ : w₁.Placed) (live : w₁.isLive)
    (hr : w₁.Receptive o) : w₁.Gathering o w₁.counted w := by
  have S := Gathering.steady w₁ o
  have D : Diligent (w₁.Gathering o) Run.play := S.diligent S.plays fun hg batch result =>
    Gathering.conclude hr S.plays hg batch result
  obtain ⟨hd, hps, hready⟩ : w₁.drawing.isSome ∧ w₁.visual.programs.isSome ∧ w₁.visual.isReady = true := by
    obtain ⟨w₀, -, hp⟩ := h₁
    exact Run.place_stands hp
  induction h with
  | present h =>
    obtain ⟨_, c, hc, h⟩ := Run.bind_eq_ok.mp h
    refine S.trans ?_ ((S.bind S.startAcquisition fun _ => S.bind S.get fun _ => S.logEntry _).leads h)
    rw [← Run.after_ok hc]
    exact Gathering.render S.plays hd hps hready live
  | step hs _ ih =>
    have aim : Aimed (w₁.Gathering o) := fun _ _ =>
      .silent rfl fun g => g.silent rfl rfl (fun _ _ _ => id) { Visual.Alike.rfl with } id
    exact S.trans ih (S.step hs (fun width height k => k ▸ S.setSize aim width height)
      (fun _ => D.turn fun j w => Gathering.record w₁ w o fun _ _ _ => Deed.noConfusion) _)

end World

/-- A world that follows a visual in place, which has been left to itself until each getter has got what
its outcome says, while scripts saw no other values. -/
structure World.Completed (w₁ : World) (o : Outcomes) (w : World) : Prop where
  undisturbed : w₁.Undisturbed w
  fits : ∀ e ∈ w.since w₁, e.fits o
  done : ∀ i < w₁.visual.descriptor.receivers.length, (w.since w₁).any (·.acquires i) = true

/-! ### The end of an acquisition -/

/-- The text of the value id of a behavior. -/
def Behavior.valueText (b : Behavior) : String :=
  match b.valueId? with
  | some (.text t) => t
  | _ => ""

/-- The values that all behaviors end with, in the order of their declaration. -/
def Visual.harvest (v : Visual) (o : Outcomes) : List (String × Value) :=
  v.descriptor.receivers.mapIdx fun i b => (b.valueText, v.lastOf b (o i))

/-- What a visual comes to when all getters have got what their outcomes say: scripts see the value that
each behavior ends with; the first pass has been followed by one for each value that was news; and
each failure of a getter has been told once, among those of other kinds. -/
structure World.Harvested (w₁ : World) (o : Outcomes) (w : World) : Prop where
  values : w.memory.SpellsMembers w.values (w₁.visual.harvest o)
  renders : w.visual.renders =
    1 + (List.range w₁.visual.descriptor.receivers.length).countP (w₁.visual.isNews o)
  errors : w.visual.errors.Perm (w₁.visual.errors ++ if w₁.visual.hasSink then
    (o.failures (List.range w₁.visual.descriptor.receivers.length) ++
      told Event.mishap? (w.since w₁)).map Host.failureMessage else [])

namespace World

variable {new : List Event}

/-- Where all getters have got their values, scripts see the ones that all behaviors end with. -/
theorem Gathered.harvest (h : w₁.Gathered o new w) (hr : w₁.Receptive o)
    (done : ∀ i < w₁.visual.descriptor.receivers.length, new.any (·.acquires i) = true) :
    w.memory.SpellsMembers w.values (w₁.visual.harvest o) := by
  rw [Script.Memory.spellsMembers_iff, List.forall₂_iff_get]
  have hlen : w.values.length = w₁.visual.descriptor.receivers.length := by
    have hk := congrArg List.length h.keys
    rw [List.length_map, List.length_map] at hk
    rw [hk]
    unfold Descriptor.valueIds
    rw [Descriptor.valueIds_eq, List.length_map]
    rfl
  refine ⟨by rw [hlen]; simp [Visual.harvest], fun i hi hi' => ?_⟩
  have hb : w₁.visual.descriptor.receivers[i]? = some w₁.visual.descriptor.receivers[i] :=
    List.getElem?_eq_getElem (hlen ▸ hi)
  have hl : (w₁.visual.harvest o).get ⟨i, hi'⟩ = (w₁.visual.descriptor.receivers[i].valueText,
      w₁.visual.lastOf w₁.visual.descriptor.receivers[i] (o i)) := by simp [Visual.harvest]
  rw [hl]
  generalize w₁.visual.descriptor.receivers[i] = b at hb
  obtain ⟨-, -, -, id, -, -, -, -, hid⟩ := Descriptor.mem_receivers (List.mem_of_getElem? hb)
  have hv := Descriptor.valueIds_getElem? hb hid
  obtain ⟨t, rfl⟩ := hr.texts id (List.mem_of_getElem? hv)
  have hk : (w.values.get ⟨i, hi⟩).1 = .text t := by
    have hk := congrArg (·[i]?) h.keys
    simp only [List.getElem?_map, hv, Option.map_some, List.getElem?_eq_getElem hi] at hk
    exact Option.some.inj hk
  obtain ⟨d, hg, hd⟩ := h.entries i b _ hb hid
  have hm : (.text t, (w.values.get ⟨i, hi⟩).2) ∈ w.values := by
    rw [← hk]
    exact List.get_mem w.values ⟨i, hi⟩
  obtain rfl : _ = d := Option.some.inj ((Members.get?_of_mem h.holds.distinct hm).symm.trans hg)
  rw [if_pos (done i (hlen ▸ hi))] at hd
  refine ⟨hk.trans ?_, hd⟩
  unfold Behavior.valueText
  rw [hid]

/-- There was one pass for each value that was news. -/
theorem Gathered.passes (h : w₁.Gathered o new w)
    (done : ∀ i < w₁.visual.descriptor.receivers.length, new.any (·.acquires i) = true) :
    w.visual.renders =
      1 + (List.range w₁.visual.descriptor.receivers.length).countP (w₁.visual.isNews o) := by
  have hs : w₁.visual.shown o new =
      ((List.range w₁.visual.descriptor.receivers.length).filter (w₁.visual.isNews o)).toFinset := by
    ext i
    unfold Visual.shown
    rw [Finset.mem_filter, Finset.mem_range, List.mem_toFinset, List.mem_filter, List.mem_range]
    exact and_congr_right fun hi => and_iff_right (done i hi)
  rw [h.renders, hs, List.toFinset_card_of_nodup (List.nodup_range.filter _), List.countP_eq_length_filter]

/-- Of failures is told what the outcomes say, and what else has failed. -/
theorem Completed.errors (c : w₁.Completed o w) (h₁ : w₁.Placed) (live : w₁.isLive)
    (sources : w₁.visual.getters.size = w₁.visual.descriptor.receivers.length) :
    w.visual.errors.Perm (w₁.visual.errors ++ if w₁.visual.hasSink then
      (o.failures (List.range w₁.visual.descriptor.receivers.length) ++
        told Event.mishap? (w.since w₁)).map Host.failureMessage else []) := by
  obtain ⟨h, fits, done⟩ := c
  have live' := h.live live
  obtain ⟨new, hn⟩ := later_driven.follows (fun _ _ => ⟨[_], rfl⟩) h.follows live'
  obtain ⟨h0, hnd, hlt⟩ := h.follows.getters h₁ live'
  have hgs : w.visual.getters.size = w₁.visual.descriptor.receivers.length := by
    rw [← sources]
    exact congrArg Array.size ((kept_driven (fun k => k.getters) (fun _ => rfl) fun _ _ => rfl).follows
      (fun _ _ => rfl) h.follows live')
  have hsink : w.visual.hasSink = w₁.visual.hasSink :=
    (kept_driven (fun k => k.hasSink) (fun _ => rfl) fun _ _ => rfl).follows (fun _ _ => rfl) h.follows live'
  rw [since_eq hn] at fits done ⊢
  rw [hn, told_append, h0, List.nil_append] at hnd hlt
  have horder : (told Event.getter? new).Perm (List.range w₁.visual.descriptor.receivers.length) :=
    (List.perm_ext_iff_of_nodup hnd List.nodup_range).mpr fun i => by
      rw [List.mem_range]
      refine ⟨fun hi => hgs ▸ hlt i hi, fun hi => ?_⟩
      obtain ⟨e, he, ha⟩ := List.any_eq_true.mp (done i hi)
      exact mem_told.mpr ⟨e, he, Event.getter?_of_acquires ha⟩
  rw [(h.follows.underway h₁ live').1.told.errors, (h₁.founded live).1.told.errors, hsink, hn, told_append]
  by_cases hs : w₁.visual.hasSink = true
  · rw [if_pos hs, if_pos hs, if_pos hs, List.map_append]
    refine List.Perm.append_left _ (((told_failures fun e he => (fits e he).2).trans ?_).map _)
    exact (horder.filterMap _).append_right _
  · rw [if_neg hs, if_neg hs, if_neg hs]
    exact .refl _

/-- What a visual comes to when all its getters have got what their outcomes say. -/
theorem Completed.harvested (c : w₁.Completed o w) (h₁ : w₁.Placed) (live : w₁.isLive)
    (hr : w₁.Receptive o) : w₁.Harvested o w := by
  obtain ⟨new, hn, g⟩ := (c.undisturbed.gathering h₁ live hr).since c.fits ⟨[], rfl, h₁.gathered live hr⟩
  obtain rfl : new = w.since w₁ := (since_eq hn).symm
  refine ⟨g.harvest hr c.done, g.passes c.done, c.errors h₁ live ?_⟩
  simpa using congrArg List.length hr.sources

end World

/-- In two worlds that follow the same visual, and in which its getters have got the same values or
failures, in whatever order, scripts see the same values: each the acquired one if it differs from the
first one, and the first one otherwise. As many passes have been made, one and one more for each value
that differed; and of the same failures to acquire a value has been told, and of the same failures
altogether if the same else has failed. -/
theorem acquired_in_any_order (h₁ : w₁.Placed) (live : w₁.isLive)
    (texts : AllTexts w₁.visual.descriptor.valueIds) (different : w₁.visual.descriptor.valueIds.Nodup)
    (known : ∀ b ∈ w₁.visual.descriptor.receivers, b.id.same b.id = true)
    (comparable : ∀ i v, o i = .ok v → v.isComparable = true)
    (h : w₁.Completed o w) (h' : w₁.Completed o w') :
    w₁.Harvested o w ∧ w₁.Harvested o w' ∧ w.visual.renders = w'.visual.renders ∧
      ((told Event.mishap? (w.since w₁)).Perm (told Event.mishap? (w'.since w₁)) →
        w.visual.errors.Perm w'.visual.errors) := by
  have hr := h₁.receptive live texts different known comparable
  have hw := h.harvested h₁ live hr
  have hw' := h'.harvested h₁ live hr
  refine ⟨hw, hw', hw.renders.trans hw'.renders.symm, fun hm => hw.errors.trans (.trans ?_ hw'.errors.symm)⟩
  split
  · exact .append_left _ ((hm.append_left _).map _)
  · exact .refl _

/-! ### Runs that can be tried out -/

namespace World.Setup

/-- Tests what two runs from a visual in place come to, once it has been shown. -/
def tries (s : Setup) (one other : List Step) (test : World → World → World → Bool) : Bool :=
  match Run.place (ofSetup s) with
  | .ok _ w₁ =>
    match Run.present Run.play w₁ with
    | .ok _ w => test w₁ (one.foldl (fun w s => s.after w) w) (other.foldl (fun w s => s.after w) w)
    | .error .. => false
  | .error .. => false

theorem tries_ok (s : Setup) (one other : List Step) (h₁ : ∀ s ∈ one, s.isAside)
    (h₂ : ∀ s ∈ other, s.isAside) (test : World → World → World → Bool)
    (h : s.tries one other test = true) : ∃ w₁ w w', w₁.Placed ∧ w₁.Undisturbed w ∧ w₁.Undisturbed w' ∧
      test w₁ w w' = true := by
  have hs : ∀ {w₁ : World} (steps : List Step) {w : World}, (∀ s ∈ steps, s.isAside) →
      w₁.Undisturbed w → w₁.Undisturbed (steps.foldl (fun w s => s.after w) w) := by
    intro w₁ steps
    induction steps with
    | nil => exact fun _ k => k
    | cons s steps ih =>
      exact fun hs k => ih (fun t ht => hs t (List.mem_cons_of_mem _ ht)) (k.step (hs s List.mem_cons_self))
  unfold tries at h
  cases hp : Run.place (ofSetup s) with
  | error f w => rw [hp] at h; cases h
  | ok _ w₁ =>
    rw [hp] at h
    dsimp only at h
    cases hw : Run.present Run.play w₁ with
    | error f w => rw [hw] at h; cases h
    | ok _ w =>
      rw [hw] at h
      exact ⟨w₁, _, _, ⟨_, .setup s, hp⟩, hs one h₁ (.present hw), hs other h₂ (.present hw), h⟩

end World.Setup

/-- Whether an event is quiet, and a getter in it has got the number of its outcome, or the failure. -/
def Event.fitsNumbers (o : Outcomes) (e : Event) : Bool :=
  match e.deed with
  | .propose .. | .store .. => false
  | .acquire _ i r =>
    match r, o i with
    | .ok (.int n), .ok (.int k) => n == k
    | .error f, .error g => f == g
    | _, _ => false
  | _ => true

theorem Event.fits_of_fitsNumbers {e : Event} (h : e.fitsNumbers o = true) : e.fits o := by
  obtain ⟨deed, s⟩ := e
  cases deed with
  | propose | store => cases h
  | acquire batch i r =>
    refine ⟨trivial, ?_⟩
    unfold fitsNumbers at h
    dsimp only at h
    split at h
    · next n k ho =>
      obtain rfl : n = k := beq_iff_eq.mp h
      exact ⟨_, ho, rfl⟩
    · next f g ho =>
      obtain rfl : f = g := beq_iff_eq.mp h
      exact ho
    · cases h
  | _ => exact ⟨trivial, trivial⟩

namespace World

/-- Whether a live visual in place takes in values under different texts as ids. -/
def isSorted (w₁ : World) : Bool :=
  !w₁.visual.isDestroyed && w₁.visual.descriptor.valueIds.all Value.isText &&
    decide (w₁.visual.descriptor.receivers.map (·.valueText)).Nodup

theorem isSorted_spec (h : w₁.isSorted = true) : w₁.isLive ∧ AllTexts w₁.visual.descriptor.valueIds ∧
    w₁.visual.descriptor.valueIds.Nodup := by
  simp only [isSorted, Bool.and_eq_true, Bool.not_eq_true', decide_eq_true_eq] at h
  obtain ⟨⟨live, texts⟩, different⟩ := h
  refine ⟨live, .of_all texts, ?_⟩
  unfold Descriptor.valueIds
  rw [Descriptor.valueIds_eq, List.Nodup, List.pairwise_map]
  refine (List.pairwise_map.mp different).imp_of_mem fun {b c} hb hc hne he => hne ?_
  obtain ⟨-, -, -, id, -, -, -, -, hid⟩ := Descriptor.mem_receivers hb
  obtain ⟨-, -, -, id', -, -, -, -, hid'⟩ := Descriptor.mem_receivers hc
  obtain rfl : id = id' := by simpa [hid, hid'] using he
  unfold Behavior.valueText
  rw [hid, hid']

/-- Whether the getters of a visual have got the numbers or the failures of their outcomes. -/
def isCompleted (o : Outcomes) (w₁ w : World) : Bool :=
  (w.since w₁).all (·.fitsNumbers o) &&
    (List.range w₁.visual.descriptor.receivers.length).all fun i => (w.since w₁).any (·.acquires i)

theorem Undisturbed.completed (h : w₁.Undisturbed w) (hc : isCompleted o w₁ w = true) :
    w₁.Completed o w := by
  simp only [isCompleted, Bool.and_eq_true, List.all_eq_true, List.mem_range] at hc
  exact ⟨h, fun e he => Event.fits_of_fitsNumbers (hc.1 e he), hc.2⟩

end World

/-- A drawing with two values. -/
def gaugesSetup : World.Setup where
  path := "gauges"
  documents := [("gauges", "<svg xmlns:t='https://thingsboard.io/svg'><t:metadata>\x7b\"behavior\":[" ++
    "\x7b\"id\":1,\"name\":\"A\",\"type\":\"value\",\"valueId\":\"a\"\x7d," ++
    "\x7b\"id\":2,\"name\":\"B\",\"type\":\"value\",\"valueId\":\"b\"\x7d]\x7d</t:metadata></svg>")]
  values := [("A", .int 5)]
  getErrors := [("B", .text "no")]

/-- The first getter gets a number, and the second one fails. -/
def gaugesOutcomes : Outcomes
  | 0 => .ok (.int 5)
  | _ => .error ⟨.acquisition, "no"⟩

/-- The host takes its time for one label, the clock is moved on, and all is done that is to be done. -/
def delaying (label : String) : List Step :=
  [.host fun h => { h with getDelays := [(label, .int 50)] }, .turn, .turn, .turn,
    .wait (Number.Binary64.ofInt 1), .turn, .turn, .turn, .turn]

set_option maxRecDepth 100000 in
/-- It is so when the host takes its time for the one gauge or for the other one. -/
theorem acquired_in_any_order_gauges : ∃ w₁ w w' : World, w₁.Placed ∧
    w₁.Completed gaugesOutcomes w ∧ w₁.Completed gaugesOutcomes w' ∧
      told Event.getter? w.past = [1, 0] ∧ told Event.getter? w'.past = [0, 1] ∧
        w₁.Harvested gaugesOutcomes w ∧ w₁.Harvested gaugesOutcomes w' := by
  obtain ⟨w₁, w, w', h₁, h, h', ht⟩ := World.Setup.tries_ok gaugesSetup (delaying "A") (delaying "B")
    (by simp [delaying, Step.isAside]) (by simp [delaying, Step.isAside])
    (fun w₁ w w' => w₁.isSorted && w₁.visual.descriptor.receivers.all (fun b => b.id.same b.id) &&
      World.isCompleted gaugesOutcomes w₁ w && World.isCompleted gaugesOutcomes w₁ w' &&
      decide (told Event.getter? w.past = [1, 0]) && decide (told Event.getter? w'.past = [0, 1]))
    (by decide +kernel)
  simp only [Bool.and_eq_true, decide_eq_true_eq] at ht
  obtain ⟨⟨⟨⟨⟨sorted, known⟩, hc⟩, hc'⟩, order⟩, order'⟩ := ht
  obtain ⟨live, texts, different⟩ := World.isSorted_spec sorted
  have k := h.completed hc
  have k' := h'.completed hc'
  obtain ⟨hw, hw', -⟩ := acquired_in_any_order h₁ live texts different (List.all_eq_true.mp known)
    (fun i v hv => by
      cases i with
      | zero => cases hv; rfl
      | succ i => cases hv) k k'
  exact ⟨w₁, w, w', h₁, k, k', order, order', hw, hw'⟩

/-- A drawing with a value of a behavior whose id is not equal to itself. -/
def namelessSetup : World.Setup where
  path := "nameless"
  documents := [("nameless", "<svg xmlns:t='https://thingsboard.io/svg'><t:metadata>\x7b\"behavior\":[" ++
    "\x7b\"id\":NaN,\"name\":\"A\",\"type\":\"value\",\"valueType\":\"INTEGER\",\"valueId\":\"a\"," ++
    "\"defaultValue\":1\x7d]\x7d</t:metadata></svg>")]
  values := [("A", .int 5)]

/-- A drawing with two values, in which an action fails on its own while one is there and the other is
not. -/
def touchySetup : World.Setup where
  path := "touchy"
  documents := [("touchy", "<svg xmlns:t='https://thingsboard.io/svg'><t:metadata>\x7b\"behavior\":[" ++
    "\x7b\"id\":1,\"name\":\"A\",\"type\":\"value\",\"valueId\":\"a\"\x7d," ++
    "\x7b\"id\":2,\"name\":\"B\",\"type\":\"value\",\"valueId\":\"b\"\x7d]," ++
    "\"stateRenderFunction\":\"if ctx.values['a'] and not ctx.values['b']: ctx.tags['g'][0].fire('x')\"," ++
    "\"tags\":[\x7b\"tag\":\"g\",\"actions\":\x7b\"x\":\x7b\"actionFunction\":\"raise ValueError('no')\"" ++
    "\x7d\x7d\x7d]\x7d</t:metadata><g t:tag='g'/></svg>")]
  values := [("A", .int 5), ("B", .int 5)]

set_option maxRecDepth 100000 in
/-- A value that differs from the first one is not taken where the id of its behavior is not equal to
itself; and where an action fails on the way from one value to another, the order makes a difference to
what is told of failures. -/
theorem order_tells : (∃ w₁ w : World, w₁.Placed ∧ w₁.isLive ∧ AllTexts w₁.visual.descriptor.valueIds ∧
      w₁.visual.descriptor.valueIds.Nodup ∧ w₁.Completed (fun _ => .ok (.int 5)) w ∧
        ¬ w₁.Harvested (fun _ => .ok (.int 5)) w) ∧
    ∃ w₁ w w' : World, w₁.Placed ∧ w₁.isLive ∧ AllTexts w₁.visual.descriptor.valueIds ∧
      w₁.visual.descriptor.valueIds.Nodup ∧ w₁.Completed (fun _ => .ok (.int 5)) w ∧
        w₁.Completed (fun _ => .ok (.int 5)) w' ∧ ¬ w.visual.errors.Perm w'.visual.errors := by
  constructor
  · obtain ⟨w₁, w, -, h₁, h, -, ht⟩ := World.Setup.tries_ok namelessSetup (delaying "") []
      (by simp [delaying, Step.isAside]) (by simp) (fun w₁ w _ => w₁.isSorted &&
        World.isCompleted (fun _ => .ok (.int 5)) w₁ w && w.visual.renders == 1 &&
        (List.range w₁.visual.descriptor.receivers.length).countP
          (w₁.visual.isNews fun _ => .ok (.int 5)) == 1) (by decide +kernel)
    simp only [Bool.and_eq_true, beq_iff_eq] at ht
    obtain ⟨⟨⟨sorted, hc⟩, shown⟩, news⟩ := ht
    obtain ⟨live, texts, different⟩ := World.isSorted_spec sorted
    refine ⟨w₁, w, h₁, live, texts, different, h.completed hc, fun k => ?_⟩
    have hr := k.renders
    rw [shown, news] at hr
    cases hr
  · obtain ⟨w₁, w, w', h₁, h, h', ht⟩ := World.Setup.tries_ok touchySetup (delaying "A") (delaying "B")
      (by simp [delaying, Step.isAside]) (by simp [delaying, Step.isAside]) (fun w₁ w w' => w₁.isSorted &&
        World.isCompleted (fun _ => .ok (.int 5)) w₁ w && World.isCompleted (fun _ => .ok (.int 5)) w₁ w' &&
        w.visual.errors.length == 0 && w'.visual.errors.length == 1) (by decide +kernel)
    simp only [Bool.and_eq_true, beq_iff_eq] at ht
    obtain ⟨⟨⟨⟨sorted, hc⟩, hc'⟩, none⟩, one⟩ := ht
    obtain ⟨live, texts, different⟩ := World.isSorted_spec sorted
    refine ⟨w₁, w, w', h₁, live, texts, different, h.completed hc, h'.completed hc', fun k => ?_⟩
    have hl := k.length_eq
    rw [none, one] at hl
    cases hl

end LiveSvg
