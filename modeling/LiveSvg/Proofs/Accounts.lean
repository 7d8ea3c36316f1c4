import LiveSvg.Proofs.Wiring
/-!
Dispatches and acquisitions over whole runs: when all tasks have been done, each of them has been
accounted for once.
-/

namespace LiveSvg

open Script (Datum)

variable {J J' : List Job} {a b w w₁ : World}

namespace World

/-- All that a visual is to account for is in order while some jobs are in hand. -/
structure InOrder (w : World) (J : List Job) : Prop where
  sound : w.Sound J
  told : w.Told
  balanced : (w.ledger J).Balanced w.visual.getters.size

namespace InOrder

theorem move (m : Move (J, a) (J', b)) (h : a.InOrder J) :
    b.InOrder J' ∧ b.visual.getters = a.visual.getters ∧
      b.visual.batches.size = a.visual.batches.size := by
  have k := m.staffed h.sound.live
  have t := m.turn h.sound
  refine ⟨⟨h.sound.move m, h.told.move m, ?_⟩, k.getters, t.size⟩
  rw [k.getters]
  exact t.balanced h.balanced

/-- Order is kept by any number of moves. -/
theorem moves (m : Moves (J, a) (J', b)) (h : a.InOrder J) :
    b.InOrder J' ∧ b.visual.getters = a.visual.getters ∧
      b.visual.batches.size = a.visual.batches.size := by
  have hm : ∀ {x y : List Job × World}, Moves x y → x.2.InOrder x.1 → y.2.InOrder y.1 ∧
      y.2.visual.getters = x.2.visual.getters ∧
        y.2.visual.batches.size = x.2.visual.batches.size := fun m h => by
    induction m with
    | refl => exact ⟨h, rfl, rfl⟩
    | tail _ s ih =>
      obtain ⟨i, hg, hb⟩ := ih
      obtain ⟨j, hg', hb'⟩ := i.move s
      exact ⟨j, hg'.trans hg, hb'.trans hb⟩
  exact hm m h

end InOrder

/-- A world with more getters and setters than another one, and otherwise as much under way. -/
structure Grown (a b : World) : Prop where
  past : b.past = a.past
  clock : b.clock = a.clock
  animations : b.animations = a.animations
  notes : b.notes = a.notes
  visual : a.visual.Silent b.visual
  batches : b.visual.batches = a.visual.batches
  getters : a.visual.getters.size ≤ b.visual.getters.size
  setters : a.visual.setters.size ≤ b.visual.setters.size
  wired : (∀ e ∈ a.visual.setterOf, e.2 < a.visual.setters.size) →
    ∀ e ∈ b.visual.setterOf, e.2 < b.visual.setters.size

theorem Grown.ledger (g : a.Grown b) : b.ledger [] = a.ledger [] :=
  Ledger.ext (tasks_congr (by rw [g.clock]) (by rw [g.clock]) []) (sends_congr (by rw [g.clock]) [])
    g.batches (congrArg (told Event.entry?) g.past)

/-- What moves keep, and what new getters and setters keep, is kept where a visual is put in place. -/
structure Stable (P : World → Prop) : Prop where
  free {a b : World} : Free a b → P a → P b
  grow {a b : World} : a.Grown b → P a → P b

namespace Stable

variable {P : World → Prop} (S : Stable P)
include S

theorem gentle : Gentle fun a b => P a → P b where
  toCourse := Course.keeps _
  touch h := S.free (Free.mild.touch h)
  host w _ e := S.free (Free.mild.host w e)
  shape h := S.free (Free.mild.shape h)

theorem adopting : Adopting fun a b => P a → P b where
  toGentle := S.gentle
  known _ _ _ _ _ := S.free (Free.idle (.of_eq rfl rfl rfl rfl .rfl))
  adopt _ _ _ _ _ _ := S.grow
    ⟨rfl, rfl, rfl, rfl, { Visual.Silent.rfl with }, rfl, Nat.le_refl _, Nat.le_refl _, id⟩
  clear _ := S.free (Free.idle (.of_eq rfl rfl rfl rfl .rfl))

theorem setUp (b : Behavior) : Along (fun a b => P a → P b) (Run.setUp b) := by
  have M := S.gentle
  refine M.bind M.get fun w => ?_
  dsimp only
  split
  · refine M.bind (M.touches (Run.load_touches _)) fun _ => M.bind (M.normalize _ _) fun _ =>
      M.bind (M.bind (M.ofExcept _) fun _ => ?_) fun _ => ?_
    · refine M.bind (fun w => S.free (Free.idle (.record w rfl))) fun _ => M.bind ?_ fun _ => ?_
      · exact fun w => S.free (Free.idle (.of_eq rfl rfl rfl rfl { Visual.Settled.rfl with }))
      · exact fun w => S.free (Free.idle (.of_eq rfl rfl rfl rfl .rfl))
    · exact fun w => S.grow ⟨rfl, rfl, rfl, rfl, { Visual.Silent.rfl with }, rfl,
        Nat.le.intro (Array.size_push ..).symm, Nat.le_refl _, id⟩
  · refine fun w => S.grow ⟨rfl, rfl, rfl, rfl, { Visual.Silent.rfl with }, rfl, Nat.le_refl _,
      Nat.le.intro (Array.size_push ..).symm, fun hw e he => ?_⟩
    refine Nat.lt_of_lt_of_eq ?_ (Array.size_push ..).symm
    rcases Settings.Table.mem_set he with he | he
    · exact he ▸ Nat.lt_succ_self _
    · exact Nat.lt_succ_of_lt (hw e he)
  · exact M.pure _
  · exact M.throw _

theorem place {w w' : World} (h : P w) (hp : Run.place w = .ok () w') : P w' := by
  obtain ⟨w₁, hr, -, -, -, -, -, -, -, hu⟩ := Run.place_ok hp
  exact ((Course.keeps _).forM fun b _ => S.setUp b).leads hu (hr S.adopting h)

end Stable

/-- Order before any values are acquired. -/
structure Founded (w : World) : Prop extends w.InOrder [] where
  unbatched : w.visual.batches = #[]

theorem Destroyed.adopting : Adopting fun a b => b.visual.isDestroyed = a.visual.isDestroyed where
  toGentle := live_driven.toGentle
  known _ _ _ _ _ := rfl
  adopt _ _ _ _ _ _ := rfl
  clear _ := rfl

namespace Founded

theorem ofSetup (s : Setup) : (ofSetup s).Founded where
  sound := {
    live := rfl
    timed := ⟨fun t h => absurd h (Array.not_mem_empty t), fun a h => absurd h (Array.not_mem_empty a),
      fun a h => absurd h (Array.not_mem_empty a), fun t h => absurd h (Array.not_mem_empty t)⟩
    patient := fun j h => absurd h List.not_mem_nil
    served := fun t h => absurd h (Multiset.notMem_zero t)
    wired := fun e h => absurd h List.not_mem_nil }
  told := ⟨rfl, rfl, rfl, rfl, by split <;> rfl, rfl⟩
  balanced := ⟨rfl, rfl, .none⟩
  unbatched := rfl

theorem moves (h : a.Founded) (m : Moves ([], a) ([], b)) : b.Founded := by
  obtain ⟨i, -, hb⟩ := h.toInOrder.moves m
  exact ⟨i, Array.size_eq_zero_iff.mp (by rw [hb, h.unbatched]; rfl)⟩

theorem free (h : a.Founded) (m : Free a b) : b.Founded := h.moves (m [])

/-- Order is kept where getters and setters are added. -/
theorem grow (h : a.Founded) (g : a.Grown b) : b.Founded where
  sound := {
    live := g.visual.isDestroyed.trans h.sound.live
    timed := h.sound.timed.congr (by rw [g.clock]) (by rw [g.clock]) g.animations
    patient := h.sound.patient.congr (by rw [g.clock]) (by rw [g.clock])
    served := fun t ht => by
      have hk : b.tasks [] = a.tasks [] := congrArg Ledger.tasks g.ledger
      have k := h.sound.served t (hk ▸ ht)
      cases t with
      | send d | deliver d => exact Nat.lt_of_lt_of_le k g.setters
      | get batch getter => exact Nat.lt_of_lt_of_le k g.getters
      | _ => trivial
    wired := g.wired h.sound.wired }
  told := h.told.silent g.visual g.past g.notes
  balanced := by
    have hz := h.balanced.acquired.unbatched h.unbatched
    rw [g.ledger]
    refine ⟨h.balanced.handed, h.balanced.concluded, ?_⟩
    rw [hz.1, hz.2, show (a.ledger []).batches = #[] from h.unbatched]
    exact .none
  unbatched := g.batches.trans h.unbatched

theorem stable : Stable Founded where
  free f h := h.free f
  grow g h := h.grow g

end Founded

/-- A visual that has not been loaded and is live has been in order from the start, and it has no
setters. -/
theorem Waiting.founded (h : w.Waiting) (live : w.isLive) :
    w.Founded ∧ w.visual.setters = #[] := by
  have D : Driven fun a b => b.visual.setters = a.visual.setters :=
    kept_driven (fun h => h.setters) (fun _ => rfl) fun _ _ => rfl
  induction h with
  | setup s => exact ⟨.ofSetup s, rfl⟩
  | step s _ ih =>
    obtain ⟨live, hs⟩ := Step.live_before live
    obtain ⟨i, hn⟩ := ih live
    exact ⟨i.moves (Step.moves hs _), (D.step hs (fun _ => D.turn D.steady.plays fun _ _ => rfl) _).trans hn⟩

/-- What is left when values begin to be acquired. -/
def begun (w : World) : World :=
  { w with
    past := ⟨.beginBatch w.visual.batches.size, w.toSituation⟩ :: w.past
    clock := w.clock.soon (.acquire w.visual.batches.size)
    visual := { w.visual.busied true with
      batches := w.visual.batches.push {}
      acquisition := some w.visual.batches.size } }

theorem startAcquisition_after (w : World) :
    Run.startAcquisition.after w = if w.visual.getters.size = 0 then w else w.begun := by
  unfold Run.startAcquisition
  rw [Run.after_get_bind]
  by_cases h : w.visual.getters.size = 0
  · rw [if_pos h, if_pos (by simpa using h)]
    rfl
  · rw [if_neg h, if_neg (by simpa using h)]
    rfl

/-- When the acquisition of values begins, its first task is to be done. -/
theorem Founded.begun (h : a.Founded) (hg : a.visual.getters.size ≠ 0) : a.begun.InOrder [] := by
  have hn : a.visual.batches.size = 0 := by rw [h.unbatched]; rfl
  have ht : a.begun.tasks [] = {.begin 0} + a.tasks [] := by
    refine (tasks_soon a (.acquire a.visual.batches.size) []).trans ?_
    rw [Job.tasks_of (t := .begin 0) (by rw [hn]; rfl)]
  have hs : a.begun.sends [] = a.sends [] :=
    sends_soon_of (j := .acquire a.visual.batches.size) (fun d k => by cases k) a []
  have he : told Event.entry? a.begun.past = told Event.entry? a.past ++ [.reached (.begun 0)] :=
    (told_some (by rfl) a.past).trans (by rw [hn])
  have hb : a.begun.visual.batches = #[{}] := (congrArg (·.push {}) h.unbatched).trans rfl
  obtain ⟨hE, hM⟩ := h.balanced.acquired.unbatched h.unbatched
  refine ⟨⟨h.sound.live, h.sound.timed.congr rfl rfl rfl, ?_, ?_, h.sound.wired⟩, ?_, ?_⟩
  · exact h.sound.patient.soon (i := .acquire a.visual.batches.size) trivial rfl rfl
  · intro t k
    rw [ht] at k
    rcases Multiset.mem_add.mp k with k | k
    · rw [Multiset.mem_singleton.mp k]
      trivial
    · exact h.sound.served t k
  · exact h.told.busied { Visual.Silent.rfl with } rfl rfl rfl rfl rfl
  · rw [show a.begun.ledger [] = { a.ledger [] with
        tasks := {.begin 0} + (a.ledger []).tasks
        batches := #[{}]
        entries := (a.ledger []).entries ++ [.reached (.begun 0)] } from Ledger.ext ht hs hb he]
    refine ⟨?_, ?_, ?_⟩
    · have k := h.balanced.handed
      unfold Ledger.calls Ledger.hands at k ⊢
      rw [filterMap_snoc, filterMap_snoc, List.map_append, k]
      simp [Entry.called?, Entry.handed?]
    · have k := h.balanced.concluded
      unfold Ledger.calls Ledger.concludes Ledger.dispatches at k ⊢
      dsimp only
      rw [filterMap_snoc, filterMap_snoc, dispatches_skip fun t k => Multiset.mem_singleton.mp k ▸ rfl]
      simpa [Entry.called?, Entry.concluded?] using k
    · unfold Ledger.errands at hE ⊢
      unfold Ledger.milestones at hM ⊢
      dsimp only
      rw [filterMap_snoc, errands_add rfl, hE, hM]
      exact .begun (Nat.pos_of_ne_zero hg)

/-- A visual in order that has begun to acquire its values, if it has any to acquire. -/
def Underway (w : World) : Prop :=
  w.InOrder [] ∧ w.visual.batches.size = if w.visual.getters.size = 0 then 0 else 1

theorem Underway.moves (h : a.Underway) (m : Moves ([], a) ([], b)) : b.Underway := by
  obtain ⟨i, hg, hb⟩ := h.1.moves m
  exact ⟨i, by rw [hb, hg]; exact h.2⟩

theorem Founded.presented (h : a.Founded) (hp : Run.present Run.play a = .ok () b) : b.Underway := by
  obtain ⟨_, c, hc, hp⟩ := Run.bind_eq_ok.mp hp
  have hc : c.Founded := h.free ((Free.render Free.plays).leads hc)
  obtain ⟨_, d, hd, hp⟩ := Run.bind_eq_ok.mp hp
  have hd : d.Underway := by
    rw [← Run.after_ok hd, startAcquisition_after]
    split
    · rename_i hg
      exact ⟨hc.toInOrder, by rw [hc.unbatched, hg]; rfl⟩
    · rename_i hg
      refine ⟨hc.begun hg, ?_⟩
      rw [show c.begun.visual.getters = c.visual.getters from rfl, if_neg hg]
      exact (Array.size_push ..).trans (by rw [hc.unbatched]; rfl)
  obtain ⟨_, e, he, hp⟩ := Run.bind_eq_ok.mp hp
  cases he
  refine hd.moves (.single (.idle ?_))
  cases hp
  exact .of_eq rfl rfl rfl rfl .rfl

theorem place_live {w w' : World} (h : Run.place w = .ok () w') (live : w'.isLive) : w.isLive := by
  obtain ⟨_, hr, k, -⟩ := Run.place_ok h
  exact (k.isDestroyed.trans (hr Destroyed.adopting)).symm.trans live

theorem Placed.founded (h : w₁.Placed) (live : w₁.isLive) : w₁.Founded ∧
    w₁.visual.descriptor.Distinct ∧ w₁.visual.Wires w₁.visual.descriptor.senders := by
  obtain ⟨w₀, h₀, hp⟩ := h
  obtain ⟨hf, hs⟩ := h₀.founded (place_live hp live)
  exact ⟨Founded.stable.place hf hp, Run.place_wired hs hp⟩

theorem Follows.underway (h : w₁.Follows w) (h₁ : w₁.Placed) (live : w.isLive) : w.Underway := by
  have hl : w₁.isLive := (live_driven.follows (fun _ _ => rfl) h live).symm.trans live
  have C : Course fun a b : World => a.Underway → b.Underway := .keeps _
  obtain ⟨w₂, h₂, -, k⟩ := h.course C (fun s hs w k => k.moves (Step.moves hs w)) live
  exact k ((h₁.founded hl).1.presented h₂)

/-! ### At rest -/

/-- No task is left: what is ready or waits for its time does none. -/
def AtRest (w : World) : Prop :=
  ∀ j ∈ w.clock.ready ++ Clock.jobsOf w.clock.timers, j.task? = none

theorem AtRest.tasks (h : w.AtRest) : w.tasks [] = 0 := by
  have hn : ∀ l : List Job, (∀ j ∈ l, j.task? = none) → tasksOf l = 0 := fun l hl => by
    unfold tasksOf
    rw [List.filterMap_eq_nil_iff.mpr hl]
    rfl
  unfold World.tasks
  rw [hn w.clock.ready fun j hj => h j (List.mem_append_left _ hj),
    hn (Clock.jobsOf w.clock.timers) fun j hj => h j (List.mem_append_right _ hj)]
  rfl

theorem AtRest.sends (h : w.AtRest) : w.sends [] = [] := by
  refine List.filterMap_eq_nil_iff.mpr fun j hj => Job.send?_none fun d k => ?_
  cases (h j (List.mem_append_left _ hj)).symm.trans k

end World

theorem Host.failureMessage_ne (f : Failure) : Host.failureMessage f ≠ "" := by
  unfold failureMessage message
  split
  · decide
  · rename_i h
    exact fun k => h (by rw [k]; rfl)

/-- An observer that fails changes nothing but the log, and what is remembered of itself. -/
theorem Run.concludeDispatch_raises (setter : Nat) (value : Datum) (o : Observer)
    (result : Except Failure Unit) (w : World) : ∃ log past,
      (concludeDispatch setter value { o with raises := true } result).after w =
        { (concludeDispatch setter value { o with raises := false } result).after w with log, past } := by
  by_cases live : w.isLive
  · obtain ⟨log, h⟩ := concludeDispatch_after live setter value { o with raises := true } result
    obtain ⟨log', h'⟩ := concludeDispatch_after live setter value { o with raises := false } result
    rw [h, h']
    cases result with
    | ok => exact ⟨log, _, rfl⟩
    | error f => exact ⟨log, _, rfl⟩
  · have hd : w.visual.isDestroyed = true := by
      simpa [World.isLive] using live
    have ho : ∀ o, (concludeDispatch setter value o result).after w =
        (tellOutcome o result).after (w.released setter value o result) := fun o => rfl
    have ht : ∀ o, (tellOutcome o result).after (w.released setter value o result) =
        match result with
        | .ok _ => w.released setter value o result
        | .error f => (logEntry (Log.debug
            ("runtime: dropping dispatch error after destroy: " ++ f.message))).after
              (w.released setter value o result) := fun o => by
      unfold tellOutcome
      rw [after_get_bind, show (w.released setter value o result).visual.isDestroyed = true from hd]
      cases result <;> rfl
    rw [ho, ho, ht, ht]
    cases result with
    | ok => exact ⟨_, _, rfl⟩
    | error f => exact ⟨_, _, rfl⟩

namespace World

/-- Everything that was begun has been accounted for. -/
structure Accounted (w : World) : Prop where
  /-- What calls were to send has been handed to the setters once, in the order of the calls. -/
  handed : (w.ledger []).calls.map (fun d => (d.setter, d.value)) = (w.ledger []).hands
  concluded : (w.ledger []).calls.Perm (w.ledger []).concludes
  /-- Every getter has been asked once, after the batch was begun and before it ended. -/
  acquired : if w.visual.getters.size = 0 then (w.ledger []).milestones = [] else
    ∃ order : List Nat, order.Perm (List.range w.visual.getters.size) ∧
      (w.ledger []).milestones = .begun 0 :: order.map (.got 0) ++ [.ended 0]
  busy : w.visual.busy = LiveSvg.told Event.busy? w.past
  verdicts : w.notes.filter (·.isVerdict) = LiveSvg.told Event.verdict? w.past
  errors : w.visual.errors = if w.visual.hasSink then
    (LiveSvg.told Event.failure? w.past).map Host.failureMessage else []
  legible : ∀ m ∈ w.visual.errors, m ≠ ""

theorem Underway.accounted (h : w.Underway) (rest : w.AtRest) : w.Accounted := by
  obtain ⟨⟨-, ht, hh, hc, hs⟩, hb⟩ := h
  have hE : (w.ledger []).tasks = 0 := rest.tasks
  refine ⟨?_, ?_, ?_, ht.busy, ht.verdicts, ht.errors, ?_⟩
  · rw [hh, show (w.ledger []).sends = [] from rest.sends]
    exact List.append_nil _
  · refine Multiset.coe_eq_coe.mp (hc.trans ?_)
    unfold Ledger.dispatches
    rw [hE]
    exact add_zero _
  · unfold Ledger.errands at hs
    rw [hE] at hs
    rcases Stage.rest hs with ⟨hB, hM⟩ | ⟨hB, order, hp, hM⟩
    · rw [if_pos]
      · exact hM
      · by_contra hg
        rw [if_neg hg, show w.visual.batches = #[] from hB] at hb
        cases hb
    · rw [if_neg]
      · exact ⟨order, hp, hM⟩
      · intro hg
        rw [if_pos hg] at hb
        exact absurd (hb.symm.trans hB) (by decide)
  · intro m hm
    rw [ht.errors] at hm
    split at hm
    · obtain ⟨f, -, rfl⟩ := List.mem_map.mp hm
      exact Host.failureMessage_ne f
    · cases hm

/-- What decides to which setter a call goes. -/
def routing (v : Visual) :
    Descriptor × Settings.Table Settings.Entry × Array Setter × Settings.Table Nat :=
  (v.descriptor, v.settings, v.setters, v.setterOf)

theorem routing_driven : Driven (Throughout routing) := by
  refine Throughout.driven (fun h => ?_) (fun _ => rfl) fun _ _ => rfl
  unfold routing
  rw [h.descriptor, h.settings, h.setters, h.setterOf]

/-- Where the routing is the same, behaviors have the same setters. -/
theorem wires_congr {v v' : Visual} (h : routing v' = routing v) (hd : v.descriptor.Distinct)
    (hw : v.Wires v.descriptor.senders) : v'.descriptor = v.descriptor ∧ v'.descriptor.Distinct ∧
      v'.Wires v'.descriptor.senders := by
  unfold routing at h
  simp only [Prod.mk.injEq] at h
  obtain ⟨h₁, h₂, h₃, h₄⟩ := h
  refine ⟨h₁, h₁ ▸ hd, ?_, fun n b hb => ?_⟩
  · rw [h₁, h₂, h₃]
    exact hw.setters
  · rw [h₄]
    exact hw.setterOf n b (h₁ ▸ hb)

end World

/-- In every live world that follows a visual put in place and in which no task is left, every call of
a behavior that sends values has been handed to the setter of that very behavior and has ended, each
once; the acquisition of values has got each value once; and what is told of it all, whether the
visual is busy, how dispatches have ended and what has failed, is what has come to pass, event by
event. An observer that fails changes nothing of this. -/
theorem all_accounted (h₁ : w₁.Placed) (h : w₁.Follows w) (live : w.isLive) (rest : w.AtRest) :
    w.Accounted ∧ w.visual.Wires w.visual.descriptor.senders ∧
      (∀ e ∈ w.since w₁, ∀ id n, e.before.setterFor? id = some n ↔
        ∃ b, w.visual.descriptor.senders[n]? = some b ∧ (Datum.ofName b.id).sameKey id = true) ∧
      ∀ (setter : Nat) (value : Datum) (o : Observer) (result : Except Failure Unit) (a : World),
        ∃ log past,
          (Run.concludeDispatch setter value { o with raises := true } result).after a =
            { (Run.concludeDispatch setter value { o with raises := false } result).after a with
              log, past } := by
  have hl : w₁.isLive := (live_driven.follows (fun _ _ => rfl) h live).symm.trans live
  obtain ⟨-, hd, hw⟩ := h₁.founded hl
  obtain ⟨hr, new, hn, he⟩ := World.routing_driven.follows (fun _ _ => .event rfl rfl) h live
  obtain ⟨hdw, -, hww⟩ := World.wires_congr hr hd hw
  refine ⟨(h.underway h₁ live).accounted rest, hww, fun e hm id n => ?_, Run.concludeDispatch_raises⟩
  rw [World.since_eq hn] at hm
  obtain ⟨hde, hd', hw'⟩ := World.wires_congr (he e hm) hd hw
  rw [hdw, ← hde]
  exact Situation.setterFor?_iff hd' hw'

/-- A drawing with a value and a switch that sends one. -/
def switchSetup : World.Setup where
  path := "switch"
  documents := [("switch", "<svg xmlns:t='https://thingsboard.io/svg'><t:metadata>" ++
    "\x7b\"behavior\":[\x7b\"id\":1,\"type\":\"value\",\"valueId\":\"v\"\x7d," ++
    "\x7b\"id\":2,\"type\":\"action\"\x7d]\x7d</t:metadata></svg>")]

set_option maxRecDepth 100000 in
/-- It is so when the switch has been used once and all has come to rest. -/
theorem all_accounted_switch : ∃ w₁ w : World, w₁.Placed ∧ w₁.Follows w ∧ w.isLive ∧ w.AtRest ∧
    w.visual.busy.length = 4 ∧ w.Accounted := by
  obtain ⟨w₁, w, hp, hf, ht⟩ := World.Setup.leads_ok switchSetup
    [.call .null (.int 2) (.int 5) ⟨true, true, false⟩, .turn, .turn, .turn, .turn] (fun _ w =>
      !w.visual.isDestroyed && w.visual.busy.length == 4 &&
        (w.clock.ready ++ Clock.jobsOf w.clock.timers).all (·.task?.isNone)) (by decide +kernel)
  simp only [Bool.and_eq_true, Bool.not_eq_true', beq_iff_eq] at ht
  obtain ⟨⟨live, busy⟩, rest⟩ := ht
  have h₁ : w₁.Placed := ⟨_, .setup switchSetup, hp⟩
  have rest : w.AtRest := fun j hj => Option.isNone_iff_eq_none.mp (List.all_eq_true.mp rest j hj)
  exact ⟨w₁, w, h₁, hf, live, rest, busy, (all_accounted h₁ hf live rest).1⟩

end LiveSvg
