import LiveSvg.Proofs.Moves
/-!
What a visual tells: whether it is busy, what has failed, and how its dispatches have ended. All of it
can be read off what has come to pass, in the same order.
-/

namespace LiveSvg

open Script (Datum)

variable {J J' : List Job} {a b w : World}

/-- A visual that has told of a failure, if there is anyone to tell. -/
def Visual.reported (v : Visual) (f : Failure) : Visual :=
  { v with errors := if v.hasSink then v.errors ++ [Host.failureMessage f] else v.errors }

/-- A visual that has told whether it is busy. -/
def Visual.busied (v : Visual) (busy : Bool) : Visual :=
  { v with
    loading := (v.loading.next busy).1
    busy := v.busy ++ (v.loading.next busy).2.map fun _ => busy }

/-- What an observer is told of the outcome of a dispatch. -/
def Observer.verdict? (o : Observer) : Except Failure Unit → Option Note
  | .ok _ => if o.onNext then some .next else none
  | .error f => if o.onError then some (.error f) else none

/-- A visual that has told of an outcome, if it is a failure. -/
def Visual.judged (v : Visual) : Except Failure Unit → Visual
  | .ok _ => v
  | .error f => v.reported f

/-- The world in which a dispatch has ended, before anyone is told more than that. -/
def World.released (w : World) (setter : Nat) (value : Datum) (o : Observer)
    (result : Except Failure Unit) : World :=
  { w with
    past := ⟨.conclude setter value o result, w.toSituation⟩ :: w.past
    visual := w.visual.busied false }

namespace Run

theorem report_after (f : Failure) (w : World) :
    ∃ log, (report f).after w = { w with log, visual := w.visual.reported f } := by
  have hl : ∀ e, logEntry e w = .ok () ((logEntry e).after w) := fun _ => rfl
  unfold report Visual.reported
  rw [after_get_bind, after_bind_ok (hl _)]
  by_cases h : w.visual.hasSink
  · rw [if_pos h, if_pos h]
    exact ⟨_, rfl⟩
  · rw [if_neg h, if_neg h]
    exact ⟨_, rfl⟩

theorem onAcquisitionError_after (live : w.isLive) (f : Failure) :
    ∃ log, (onAcquisitionError f).after w = { w with log, visual := w.visual.reported f } := by
  unfold onAcquisitionError
  rw [after_get_bind, show w.visual.isDestroyed = false from live]
  exact report_after f w

/-- What an action that fails leaves. -/
theorem failed_after (n : Nat) (f : Failure) (e : Log.Entry) (w : World) : ∃ log, (do
      record (.finish (.action n) (.error f))
      logEntry e
      report f : Run Unit).after w =
    { w with
      log
      past := ⟨.finish (.action n) (.error f), w.toSituation⟩ :: w.past
      visual := w.visual.reported f } :=
  report_after f { w with
    log := w.log ++ [e]
    past := ⟨.finish (.action n) (.error f), w.toSituation⟩ :: w.past }

/-- What an acquisition that fails leaves while the visual is live. -/
theorem missed_after (live : w.isLive) (batch getter : Nat) (f : Failure) : ∃ log, (do
      record (.acquire batch getter (.error f))
      onAcquisitionError f : Run Unit).after w =
    { w with
      log
      past := ⟨.acquire batch getter (.error f), w.toSituation⟩ :: w.past
      visual := w.visual.reported f } :=
  onAcquisitionError_after (w := (record (.acquire batch getter (.error f))).after w) live f

/-- What an observer is told is noted; if the observer fails, that is logged and all. -/
theorem notify_ok (o : Observer) (n : Note) (w : World) :
    ∃ log, notify o n w = .ok () { w with log, notes := w.notes ++ [n] } := by
  unfold notify
  cases ho : o.raises with
  | true => exact ⟨_, rfl⟩
  | false => exact ⟨_, rfl⟩

theorem tellOutcome_after (live : w.isLive) (o : Observer) (result : Except Failure Unit) :
    ∃ log, (tellOutcome o result).after w =
      { w with
        log
        notes := w.notes ++ (o.verdict? result).toList
        visual := w.visual.judged result } := by
  unfold tellOutcome
  rw [after_get_bind]
  dsimp only
  rw [show w.visual.isDestroyed = false from live]
  cases result with
  | ok =>
    unfold Observer.verdict? Visual.judged
    cases o.onNext with
    | true =>
      obtain ⟨log, h⟩ := notify_ok o .next w
      exact ⟨log, after_ok h⟩
    | false => exact ⟨w.log, by simp⟩
  | error f =>
    unfold Observer.verdict? Visual.judged
    dsimp only
    rw [if_neg Bool.false_ne_true]
    cases o.onError with
    | true =>
      obtain ⟨log, h⟩ := notify_ok o (.error f) w
      obtain ⟨log', hr⟩ := report_after f { w with log, notes := w.notes ++ [.error f] }
      exact ⟨log', (after_bind_ok h).trans hr⟩
    | false =>
      obtain ⟨log, h⟩ := report_after f w
      refine ⟨log, Eq.trans h ?_⟩
      simp

/-- What a dispatch leaves that has ended while the visual is live. -/
theorem concludeDispatch_after (live : w.isLive) (setter : Nat) (value : Datum) (o : Observer)
    (result : Except Failure Unit) : ∃ log, (concludeDispatch setter value o result).after w =
      { w.released setter value o result with
        log
        notes := w.notes ++ (o.verdict? result).toList
        visual := (w.visual.busied false).judged result } :=
  tellOutcome_after (w := w.released setter value o result) live o result

end Run

/-! ### What moves keep -/

/-- The same behaviors with the same getters and setters, as live as before and with as many to tell. -/
structure Visual.Staffed (v v' : Visual) : Prop where
  descriptor : v'.descriptor = v.descriptor
  getters : v'.getters = v.getters
  setters : v'.setters = v.setters
  setterOf : v'.setterOf = v.setterOf
  hasSink : v'.hasSink = v.hasSink
  isDestroyed : v'.isDestroyed = v.isDestroyed

namespace Visual.Staffed

theorem rfl {v : Visual} : v.Staffed v := ⟨.refl _, .refl _, .refl _, .refl _, .refl _, .refl _⟩

theorem trans {v v' v'' : Visual} (h : v.Staffed v') (k : v'.Staffed v'') : v.Staffed v'' :=
  ⟨k.descriptor.trans h.descriptor, k.getters.trans h.getters, k.setters.trans h.setters,
    k.setterOf.trans h.setterOf, k.hasSink.trans h.hasSink, k.isDestroyed.trans h.isDestroyed⟩

theorem judged (v : Visual) (result : Except Failure Unit) : v.Staffed (v.judged result) := by
  cases result with
  | ok => exact rfl
  | error f => exact { rfl with }

end Visual.Staffed

theorem Move.staffed (m : Move (J, a) (J', b)) (live : a.isLive) : a.visual.Staffed b.visual := by
  cases m with
  | idle h => exact { h.visual with }
  | fail n f e =>
    obtain ⟨log, h⟩ := Run.failed_after n f e a
    rw [h]
    exact { Visual.Staffed.rfl with }
  | missed batch getter f =>
    obtain ⟨log, h⟩ := Run.missed_after live batch getter f
    rw [h]
    exact { Visual.Staffed.rfl with }
  | conclude setter value o result =>
    obtain ⟨log, h⟩ := Run.concludeDispatch_after live setter value o result
    rw [h]
    have hb : a.visual.Staffed (a.visual.busied false) := { Visual.Staffed.rfl with }
    exact hb.trans (.judged _ result)
  | _ => exact { Visual.Staffed.rfl with }

/-! ### What is told -/

/-- What some events of a past have to say, in the order in which they came. -/
def told {α : Type} (f : Event → Option α) (past : List Event) : List α := (past.filterMap f).reverse

theorem told_cons {α : Type} (f : Event → Option α) (e : Event) (past : List Event) :
    told f (e :: past) = told f past ++ (f e).toList := by
  unfold told
  cases h : f e with
  | none => rw [List.filterMap_cons_none h]; exact (List.append_nil _).symm
  | some a => rw [List.filterMap_cons_some h, List.reverse_cons]; rfl

theorem told_some {α : Type} {f : Event → Option α} {e : Event} {x : α} (h : f e = some x)
    (past : List Event) : told f (e :: past) = told f past ++ [x] := by
  rw [told_cons, h]
  rfl

theorem told_none {α : Type} {f : Event → Option α} {e : Event} (h : f e = none)
    (past : List Event) : told f (e :: past) = told f past := by
  rw [told_cons, h]
  exact List.append_nil _

/-- Where nothing has happened that counts, what only events that count say is the same. -/
theorem Idle.told (h : Idle a b) {α : Type} {f : Event → Option α}
    (hf : ∀ e : Event, e.deed.isCounted = false → f e = none) : told f b.past = LiveSvg.told f a.past := by
  obtain ⟨new, hn, hc⟩ := h.past
  rw [hn]
  unfold LiveSvg.told
  rw [List.filterMap_append, List.filterMap_eq_nil_iff.mpr fun e he => hf e (hc e he), List.nil_append]

namespace Event

/-- Whether an event makes the visual busy, or ends what did. -/
def busy? (e : Event) : Option Bool :=
  match e.deed with
  | .call id _ _ => (e.before.setterFor? id).map fun _ => true
  | .conclude .. => some false
  | .beginBatch _ => some true
  | .endBatch _ => some false
  | _ => none

/-- The failure in an event: that of an acquisition, of a dispatch or of an action. -/
def failure? (e : Event) : Option Failure :=
  match e.deed with
  | .acquire _ _ (.error f) => some f
  | .conclude _ _ _ (.error f) => some f
  | .finish (.action _) (.error f) => some f
  | _ => none

/-- What an event makes its observer know. -/
def verdict? (e : Event) : Option Note :=
  match e.deed with
  | .conclude _ _ o result => o.verdict? result
  | _ => none

variable {e : Event}

theorem busy?_uncounted (h : e.deed.isCounted = false) : e.busy? = none := by
  obtain ⟨deed, s⟩ := e
  cases deed <;> first | rfl | cases h

theorem failure?_uncounted (h : e.deed.isCounted = false) : e.failure? = none := by
  obtain ⟨deed, s⟩ := e
  cases deed with
  | finish l result => cases l <;> cases result <;> first | rfl | cases h
  | _ => first | rfl | cases h

theorem verdict?_uncounted (h : e.deed.isCounted = false) : e.verdict? = none := by
  obtain ⟨deed, s⟩ := e
  cases deed <;> first | rfl | cases h

end Event

/-- The visual is live, and all that it has told is what has come to pass, in the same order. -/
structure World.Told (w : World) : Prop where
  live : w.isLive
  isOpen : w.visual.loading.isClosed = false
  subscribers : w.visual.loading.subscribers = [()]
  busy : w.visual.busy = told Event.busy? w.past
  errors : w.visual.errors =
    if w.visual.hasSink then (told Event.failure? w.past).map Host.failureMessage else []
  verdicts : w.notes.filter (·.isVerdict) = told Event.verdict? w.past

/-- A visual that tells no more than another one, and to the same. -/
structure Visual.Silent (v v' : Visual) : Prop where
  loading : v'.loading = v.loading
  busy : v'.busy = v.busy
  errors : v'.errors = v.errors
  hasSink : v'.hasSink = v.hasSink
  isDestroyed : v'.isDestroyed = v.isDestroyed

theorem Visual.Silent.rfl {v : Visual} : v.Silent v := ⟨.refl _, .refl _, .refl _, .refl _, .refl _⟩

namespace World.Told

theorem congr (h : a.Told) (hv : a.visual.Silent b.visual)
    (hb : told Event.busy? b.past = told Event.busy? a.past)
    (hf : told Event.failure? b.past = told Event.failure? a.past)
    (hn : b.notes.filter (·.isVerdict) = a.notes.filter (·.isVerdict))
    (ho : told Event.verdict? b.past = told Event.verdict? a.past) : b.Told where
  live := hv.isDestroyed.trans h.live
  isOpen := by rw [hv.loading]; exact h.isOpen
  subscribers := by rw [hv.loading]; exact h.subscribers
  busy := by rw [hv.busy, hb]; exact h.busy
  errors := by rw [hv.errors, hv.hasSink, hf]; exact h.errors
  verdicts := by rw [hn, ho]; exact h.verdicts

theorem silent (h : a.Told) (hv : a.visual.Silent b.visual) (hp : b.past = a.past)
    (hn : b.notes = a.notes) : b.Told :=
  h.congr hv (by rw [hp]) (by rw [hp]) (by rw [hn]) (by rw [hp])

/-- An event that has nothing to say. -/
theorem event (h : a.Told) {e : Event} (hv : a.visual.Silent b.visual) (hp : b.past = e :: a.past)
    (hn : b.notes = a.notes) (hb : e.busy? = none) (hf : e.failure? = none) (ho : e.verdict? = none) :
    b.Told := by
  refine h.congr hv ?_ ?_ (by rw [hn]) ?_
  · rw [hp, told_none hb]
  · rw [hp, told_none hf]
  · rw [hp, told_none ho]

/-- One more value is told, and there is still one to tell. -/
theorem busied_loading (h : a.Told) (busy : Bool) :
    (a.visual.busied busy).loading.isClosed = false ∧
      (a.visual.busied busy).loading.subscribers = [()] ∧
      (a.visual.busied busy).busy = a.visual.busy ++ [busy] := by
  simp [Visual.busied, Cell.next, h.isOpen, h.subscribers]

/-- Whether a visual is busy is told when an event says so. -/
theorem busied (h : a.Told) {e : Event} {busy : Bool} (hv : (a.visual.busied busy).Silent b.visual)
    (hp : b.past = e :: a.past) (hn : b.notes = a.notes) (hb : e.busy? = some busy)
    (hf : e.failure? = none) (ho : e.verdict? = none) : b.Told := by
  obtain ⟨isOpen, subscribers, hc⟩ := h.busied_loading busy
  refine ⟨hv.isDestroyed.trans h.live, ?_, ?_, ?_, ?_, ?_⟩
  · rw [hv.loading]
    exact isOpen
  · rw [hv.loading]
    exact subscribers
  · rw [hv.busy, hp, told_some hb, hc, h.busy]
  · rw [hv.errors, hv.hasSink, hp, told_none hf]
    exact h.errors
  · rw [hn, hp, told_none ho, h.verdicts]

/-- What a visual that judges an outcome has told of failures. -/
theorem judged_errors (v : Visual) (result : Except Failure Unit) {e : Event}
    (hf : e.failure? = match result with | .ok _ => none | .error f => some f) {past : List Event}
    (h : v.errors = if v.hasSink then (told Event.failure? past).map Host.failureMessage else []) :
    (v.judged result).errors = if (v.judged result).hasSink then
      (told Event.failure? (e :: past)).map Host.failureMessage else [] := by
  rw [told_cons, hf]
  cases result with
  | ok =>
    rw [Option.toList_none, List.append_nil]
    exact h
  | error f =>
    unfold Visual.judged Visual.reported
    dsimp only
    by_cases hs : v.hasSink
    · rw [if_pos hs] at h
      rw [if_pos hs, if_pos hs, h]
      simp
    · rw [if_neg hs] at h
      rw [if_neg hs, if_neg hs, h]

/-- A failure is told when an event says so. -/
theorem reported (h : a.Told) {e : Event} {f : Failure} (hv : (a.visual.reported f).Silent b.visual)
    (hp : b.past = e :: a.past) (hn : b.notes = a.notes) (hb : e.busy? = none)
    (hf : e.failure? = some f) (ho : e.verdict? = none) : b.Told := by
  refine ⟨hv.isDestroyed.trans h.live, ?_, ?_, ?_, ?_, ?_⟩
  · rw [hv.loading]
    exact h.isOpen
  · rw [hv.loading]
    exact h.subscribers
  · rw [hv.busy, hp, told_none hb]
    exact h.busy
  · rw [hv.errors, hv.hasSink, hp]
    exact judged_errors a.visual (.error f) hf h.errors
  · rw [hn, hp, told_none ho, h.verdicts]

/-- When a dispatch ends, that is told, and how it ended. -/
theorem concluded (h : a.Told) (setter : Nat) (value : Datum) (o : Observer)
    (result : Except Failure Unit) (log : Log) : World.Told { a.released setter value o result with
      log
      notes := a.notes ++ (o.verdict? result).toList
      visual := (a.visual.busied false).judged result } := by
  obtain ⟨isOpen, subscribers, busy⟩ := h.busied_loading false
  have hv : (o.verdict? result).toList.filter (·.isVerdict) = (o.verdict? result).toList := by
    cases result with
    | ok =>
      unfold Observer.verdict?
      dsimp only
      cases o.onNext <;> rfl
    | error f =>
      unfold Observer.verdict?
      dsimp only
      cases o.onError <;> rfl
  have hj : (a.visual.busied false).Staffed ((a.visual.busied false).judged result) := .judged _ _
  have hp : ∀ {α : Type} (f : Event → Option α), told f (a.released setter value o result).past =
      told f a.past ++ (f ⟨.conclude setter value o result, a.toSituation⟩).toList :=
    fun f => told_cons f _ a.past
  have hl : ((a.visual.busied false).judged result).loading = (a.visual.busied false).loading ∧
      ((a.visual.busied false).judged result).busy = (a.visual.busied false).busy := by
    cases result <;> exact ⟨rfl, rfl⟩
  refine ⟨hj.isDestroyed.trans h.live, ?_, ?_, ?_, ?_, ?_⟩
  · exact (congrArg Cell.isClosed hl.1).trans isOpen
  · exact (congrArg Cell.subscribers hl.1).trans subscribers
  · refine hl.2.trans ?_
    rw [busy, h.busy]
    exact (hp Event.busy?).symm
  · exact judged_errors _ result (by cases result <;> rfl) h.errors
  · dsimp only
    rw [List.filter_append, hv, h.verdicts]
    exact (hp Event.verdict?).symm

theorem move (m : Move (J, a) (J', b)) (h : a.Told) : b.Told := by
  cases m with
  | idle i =>
    exact h.congr { i.visual with } (i.told fun e => Event.busy?_uncounted)
      (i.told fun e => Event.failure?_uncounted) i.verdicts (i.told fun e => Event.verdict?_uncounted)
  | animate | change | cancel | take | soon | later | wake | drop | ask => exact h.silent .rfl rfl rfl
  | spread | settle => exact h.silent { Visual.Silent.rfl with } rfl rfl
  | @call J w id value observer setter hs =>
    refine h.busied { Visual.Silent.rfl with } rfl rfl ?_ rfl rfl
    unfold Event.busy?
    dsimp only
    rw [hs]
    rfl
  | @ignore J w id value observer hs =>
    refine h.event .rfl rfl rfl ?_ rfl rfl
    unfold Event.busy?
    dsimp only
    rw [hs]
    rfl
  | fail n f e =>
    obtain ⟨log, hw⟩ := Run.failed_after n f e a
    rw [hw]
    exact h.reported .rfl rfl rfl rfl rfl rfl
  | got => exact h.event .rfl rfl rfl rfl rfl rfl
  | missed batch getter f =>
    obtain ⟨log, hw⟩ := Run.missed_after h.live batch getter f
    rw [hw]
    exact h.reported .rfl rfl rfl rfl rfl rfl
  | finish batch => exact h.busied { Visual.Silent.rfl with } rfl rfl rfl rfl rfl
  | hand => exact h.event .rfl rfl rfl rfl rfl rfl
  | conclude setter value o result =>
    obtain ⟨log, hw⟩ := Run.concludeDispatch_after h.live setter value o result
    rw [hw]
    exact h.concluded setter value o result log

end World.Told

end LiveSvg
