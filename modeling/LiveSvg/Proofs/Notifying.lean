import LiveSvg.Proofs.Readers
/-!
Calls of `next` inside one another. Each of them goes through the subscribers that there were when it began,
whatever these do in the meantime. What has been told and what is still due account for each other.
-/

namespace LiveSvg.Cell

/-- A call of `next` under way: the value, who is still to be told of it, and whether one of those who are told is
running. -/
structure Frame (α ι : Type) where
  value : α
  due : List ι
  isInside : Bool

/-- A cell of which subscribers are told: the calls of `next` under way, the innermost one first, and who has been
told of what. -/
structure Notifying (α ι : Type) where
  cell : Cell α ι
  frames : List (Frame α ι) := []
  told : List (ι × α) := []

namespace Notifying

variable {α ι : Type}

/-- What can happen. Whoever is running does something with the cell, comes to an end or raises; the innermost
call of `next` tells the first that is due, or returns when there is none. -/
inductive Event (α ι : Type) where
  | deal (d : Deal α ι)
  | tell
  | finish
  | leave
  | fail

/-- Whether a subscriber is running, or nobody is being told of anything. -/
def isRunning (s : Notifying α ι) : Bool :=
  match s.frames with
  | [] => true
  | f :: _ => f.isInside

/-- The call that begins when something is done with a cell, if it is `next`. -/
def opened (c : Cell α ι) : Deal α ι → List (Frame α ι)
  | .next v => [⟨v, (c.next v).2, false⟩]
  | _ => []

/-- What those have still to be told of who are due, in order. -/
def due (s : Notifying α ι) : List (ι × α) := s.frames.flatMap fun f => f.due.map (·, f.value)

/-- What becomes due when something happens. -/
def added (c : Cell α ι) : Event α ι → List (ι × α)
  | .deal (.next v) => (c.next v).2.map (·, v)
  | _ => []

/-- The subscribers that come in a course of events. -/
def subscribed (es : List (Event α ι)) : List ι := es.filterMap fun
  | .deal (.subscribe x) => some x
  | _ => none

variable [BEq ι]

/-- One event. What raises also ends the call of `next` that has told it of a value, and goes on in what has
called that. -/
inductive Step : Notifying α ι → Event α ι → Notifying α ι → Prop where
  | deal (s : Notifying α ι) (d : Deal α ι) : s.isRunning = true →
    Step s (.deal d) { s with cell := s.cell.on d, frames := opened s.cell d ++ s.frames }
  | tell (c : Cell α ι) (v : α) (x : ι) (due : List ι) (rest : List (Frame α ι)) (told : List (ι × α)) :
    Step ⟨c, ⟨v, x :: due, false⟩ :: rest, told⟩ .tell ⟨c, ⟨v, due, true⟩ :: rest, told ++ [(x, v)]⟩
  | finish (c : Cell α ι) (v : α) (due : List ι) (rest : List (Frame α ι)) (told : List (ι × α)) :
    Step ⟨c, ⟨v, due, true⟩ :: rest, told⟩ .finish ⟨c, ⟨v, due, false⟩ :: rest, told⟩
  | leave (c : Cell α ι) (v : α) (rest : List (Frame α ι)) (told : List (ι × α)) :
    Step ⟨c, ⟨v, [], false⟩ :: rest, told⟩ .leave ⟨c, rest, told⟩
  | fail (c : Cell α ι) (v : α) (due : List ι) (rest : List (Frame α ι)) (told : List (ι × α)) :
    Step ⟨c, ⟨v, due, true⟩ :: rest, told⟩ .fail ⟨c, rest, told⟩

/-- A course of events. Subscribers may do anything, so any course is one. -/
inductive Runs : Notifying α ι → List (Event α ι) → Notifying α ι → Prop where
  | nil (s : Notifying α ι) : Runs s [] s
  | cons {s t u : Notifying α ι} {e : Event α ι} {es : List (Event α ι)} : Step s e t → Runs t es u → Runs s (e :: es) u

variable {s t u : Notifying α ι} {e : Event α ι} {es es' : List (Event α ι)} {p : ι → Bool}

theorem Runs.one (h : Step s e t) : Runs s [e] t := .cons h (.nil t)

theorem Runs.append (h : Runs s es t) (k : Runs t es' u) : Runs s (es ++ es') u := by
  induction h with
  | nil s => exact k
  | cons h _ ih => exact .cons h (ih k)

theorem runs_append : Runs s (es ++ es') u ↔ ∃ t, Runs s es t ∧ Runs t es' u := by
  refine ⟨fun h => ?_, fun ⟨t, h, k⟩ => h.append k⟩
  induction es generalizing s with
  | nil => exact ⟨s, .nil s, h⟩
  | cons e es ih =>
    obtain ⟨⟩ | ⟨h, k⟩ := h
    obtain ⟨t, ht, hu⟩ := ih k
    exact ⟨t, .cons h ht, hu⟩

end Notifying

/-! ### Sessions -/

section

open Notifying

variable {α : Type}

/-- What has been done with a cell in between has told nobody of anything. -/
def Aside (c c' : Cell α String) : Prop := ∃ ds : List (Deal α String), c' = c.after ds ∧ ∀ v, .next v ∉ ds

namespace Aside

variable {c c' c'' : Cell α String}

theorem refl (c : Cell α String) : Aside c c := ⟨[], rfl, fun _ => List.not_mem_nil⟩

theorem trans (h : Aside c c') (k : Aside c' c'') : Aside c c'' := by
  obtain ⟨ds, rfl, hds⟩ := h
  obtain ⟨ds', rfl, hds'⟩ := k
  exact ⟨ds ++ ds', (after_append c ds ds').symm, fun v hv => (List.mem_append.mp hv).elim (hds v) (hds' v)⟩

theorem deal (t : Traced α) {d : Deal α String} (hd : ∀ v, d ≠ .next v) : Aside t.cell (t.deal d).cell :=
  ⟨[d], rfl, fun v hv => hd v (List.mem_singleton.mp hv).symm⟩

end Aside

namespace Session

theorem drain_aside (fuel : Nat) (t : Traced α) (i : Nat) (r : Reader α) : Aside t.cell (drain fuel t i r).1.cell := by
  induction fuel generalizing t r with
  | zero => exact .refl _
  | succ fuel ih =>
    have hread : Aside t.cell (t.deal (.read i)).cell := .deal _ fun _ => by simp
    rw [drain]
    cases (t.cell.read i).2 with
    | item a =>
      dsimp only
      split
      · exact hread.trans (.deal _ fun _ => by simp)
      · exact hread.trans (ih _ _)
    | ended => exact hread
    | waiting => exact hread

theorem turn_aside (t : Traced α) (r : Reader α) : Aside t.cell (turn t r).1.cell := by
  unfold turn
  split
  · exact .refl _
  · cases r.stream with
    | some i => exact drain_aside _ _ _ _
    | none => exact (Aside.deal t (d := .openStream) fun _ => by simp).trans (drain_aside _ _ _ _)

theorem settle_aside (s : Session α) : Aside s.cell s.settle.cell := by
  have all : ∀ (rest : List (String × Reader α)) (t : Traced α) (done : List (String × Reader α)), Aside t.cell
      (rest.foldl (fun p e => ((turn p.1 e.2).1, p.2 ++ [(e.1, (turn p.1 e.2).2)])) (t, done)).1.cell := by
    intro rest
    induction rest with
    | nil => exact fun t _ => .refl t.cell
    | cons e rest ih => exact fun t done => (turn_aside t e.2).trans (ih _ _)
  exact all s.readers s.toTraced []

theorem cancel_aside {s s' : Session α} {label : String} (h : s.cancel label = .ok s') :
    Aside s.cell s'.cell ∧ s'.calls = s.calls := by
  unfold Session.cancel at h
  split at h
  · cases h
  · cases h
    refine ⟨?_, rfl⟩
    dsimp only
    split
    · split
      · exact .refl _
      · exact .deal _ fun _ => by simp
    · exact .refl _

/-- The state of a session in which subscribers are told, with the calls of `next` that are under way. -/
def notifying (s : Session α) (frames : List (Frame α String)) : Notifying α String := ⟨s.cell, frames, s.calls⟩

/-- What is done aside from telling. -/
theorem runs_aside {c : Cell α String} {n : Notifying α String} (h : Aside n.cell c) (hn : n.isRunning = true) :
    ∃ es, Runs n es { n with cell := c } := by
  obtain ⟨ds, rfl, hds⟩ := h
  induction ds generalizing n with
  | nil => exact ⟨[], .nil n⟩
  | cons d ds ih =>
    have hstep : Notifying.Step n (.deal d) { n with cell := n.cell.on d } := by
      have hopened : opened n.cell d = [] := by
        unfold opened
        split
        · exact absurd List.mem_cons_self (hds _)
        · rfl
      have hdeal := Notifying.Step.deal n d hn
      rwa [hopened] at hdeal
    obtain ⟨es, hes⟩ := ih (n := { n with cell := n.cell.on d }) hn fun v hv => hds v (List.mem_cons_of_mem _ hv)
    exact ⟨_, .cons hstep hes⟩

/-- The steps that subscribers take while they are told of a value. -/
def tell (fuel : Nat) (value : α) (label : String) : Run α Unit := do
  modify fun s => { s with calls := s.calls ++ [(label, value)] }
  match takePlan (← get) label with
  | some (step, s) =>
    set s
    perform fuel step
  | none => pure ()

theorem tell_run (fuel : Nat) (value : α) (label : String) (s : Session α) :
    (tell fuel value label).run.run s =
      match takePlan { s with calls := s.calls ++ [(label, value)] } label with
      | some (step, s') => (perform fuel step).run.run s'
      | none => (.ok (), { s with calls := s.calls ++ [(label, value)] }) := by
  change ((match takePlan { s with calls := s.calls ++ [(label, value)] } label with
    | some (step, s') => set s' >>= fun _ => perform fuel step
    | none => pure () : Run α Unit)).run.run { s with calls := s.calls ++ [(label, value)] } = _
  split <;> rfl

theorem forM_cons_run (f : String → Run α Unit) (label : String) (labels : List String) (s : Session α) :
    ((label :: labels).forM f).run.run s =
      match (f label).run.run s with
      | (.ok _, s') => (labels.forM f).run.run s'
      | (.error e, s') => (.error e, s') := by
  change (ExceptT.bindCont (fun _ => labels.forM f) ((f label).run.run s).1).run ((f label).run.run s).2 = _
  obtain ⟨r, s'⟩ := (f label).run.run s
  cases r <;> rfl

theorem get_run (f : Session α → Run α Unit) (s : Session α) : (get >>= f).run.run s = (f s).run.run s := rfl

/-- If the steps of subscribers are courses of events, so is telling them of a value. -/
theorem tell_runs {fuel : Nat} (ih : ∀ (step : Step α) (frames : List (Frame α String)) (s : Session α),
    (s.notifying frames).isRunning = true →
      ∃ es, Runs (s.notifying frames) es (((perform fuel step).run.run s).2.notifying frames))
    (value : α) (frames : List (Frame α String)) (labels : List String) (s : Session α) :
    ∃ es, Runs (s.notifying (⟨value, labels, false⟩ :: frames)) es
      (((labels.forM (tell fuel value)).run.run s).2.notifying frames) := by
  induction labels generalizing s with
  | nil => exact ⟨_, .one (.leave s.cell value frames s.calls)⟩
  | cons label labels ihl =>
    have htell : Notifying.Step (s.notifying (⟨value, label :: labels, false⟩ :: frames)) .tell
        (notifying { s with calls := s.calls ++ [(label, value)] } (⟨value, labels, true⟩ :: frames)) := .tell ..
    rw [forM_cons_run, tell_run]
    cases hplan : takePlan { s with calls := s.calls ++ [(label, value)] } label with
    | none =>
      obtain ⟨es, hes⟩ := ihl { s with calls := s.calls ++ [(label, value)] }
      exact ⟨_, .cons htell (.cons (.finish ..) hes)⟩
    | some found =>
      obtain ⟨step, s'⟩ := found
      obtain ⟨es, hes⟩ := ih step (⟨value, labels, true⟩ :: frames) s' rfl
      have hsame : s'.notifying (⟨value, labels, true⟩ :: frames) =
          notifying { s with calls := s.calls ++ [(label, value)] } (⟨value, labels, true⟩ :: frames) := by
        unfold takePlan at hplan
        split at hplan
        · cases hplan
          rfl
        · cases hplan
      rw [hsame] at hes
      dsimp only
      cases hr : (perform fuel step).run.run s' with | mk r s''
      rw [hr] at hes
      cases r with
      | ok _ =>
        obtain ⟨es', hes'⟩ := ihl s''
        exact ⟨_, .cons htell (hes.append (.cons (.finish ..) hes'))⟩
      -- the other labels are not told, so the call of next is over
      | error e => exact ⟨_, .cons htell (hes.append (.one (.fail ..)))⟩

/-- Whatever steps are taken, with those that subscribers take in turn, and whether they fail or not: what becomes
of a session is a course of events, in which every call of `next` that begins comes to an end. -/
theorem perform_runs (fuel : Nat) (step : Step α) (frames : List (Frame α String)) (s : Session α)
    (hn : (s.notifying frames).isRunning = true) :
    ∃ es, Runs (s.notifying frames) es (((perform fuel step).run.run s).2.notifying frames) := by
  have aside : ∀ {s s' : Session α} {frames : List (Frame α String)}, (s.notifying frames).isRunning = true →
      Aside s.cell s'.cell → s'.calls = s.calls → ∃ es, Runs (s.notifying frames) es (s'.notifying frames) := by
    intro s s' frames hn h hcalls
    unfold notifying
    rw [hcalls]
    exact runs_aside (n := s.notifying frames) h hn
  -- the steps of a subscriber that is told of a value are taken with less fuel
  induction fuel generalizing step frames s with
  | zero => exact ⟨[], .nil _⟩
  | succ fuel ih =>
    rw [perform, get_run]
    cases step with
    | subscribe label handle plan => exact aside hn (.deal s.toTraced fun _ => by simp) rfl
    | unsubscribe handle =>
      dsimp only
      cases Value.Members.get? s.handles handle with
      | some label => exact aside hn (.deal s.toTraced fun _ => by simp) rfl
      | none => exact ⟨[], .nil _⟩
    | next value =>
      obtain ⟨es, hes⟩ := tell_runs ih value frames (s.cell.next value).2 { s with toTraced := s.deal (.next value) }
      exact ⟨_, .cons (.deal _ (.next value) hn) hes⟩
    | reset value => exact aside hn (.deal s.toTraced fun _ => by simp) rfl
    | complete => exact aside hn (.deal s.toTraced fun _ => by simp) rfl
    | stream label limit => exact aside hn (.refl _) rfl
    | cancel label =>
      change ∃ es, Runs (s.notifying frames) es
        (notifying ((liftM (s.cancel label) >>= set : Run α Unit).run.run s).2 frames)
      cases hc : s.cancel label with
      | ok s' =>
        obtain ⟨haside, hcalls⟩ := cancel_aside hc
        exact aside hn haside hcalls
      | error e => exact ⟨[], .nil _⟩
    | settle => exact aside hn (settle_aside s) rfl

end Session

/-- A step that is taken from outside is a course of events from where nobody is told to where nobody is. -/
theorem Session.step_runs (s : Session α) (step : Cell.Step α) :
    ∃ es, Runs { cell := s.cell } es { cell := (s.step step).2.cell, told := (s.step step).2.calls } :=
  perform_runs _ step [] { s with calls := [] } rfl

end

namespace Notifying

variable {α ι : Type} [BEq ι] {s t u : Notifying α ι} {e : Event α ι} {es es' : List (Event α ι)} {p : ι → Bool}

/-! ### What is told and what is due -/

omit [BEq ι] in
/-- Where no call is under way, nothing is due. -/
theorem due_eq_nil (ht : t.frames = []) : t.due = [] := by
  unfold due
  rw [ht]
  rfl

theorem due_opened (s : Notifying α ι) (d : Deal α ι) :
    ({ s with cell := s.cell.on d, frames := opened s.cell d ++ s.frames } : Notifying α ι).due =
      added s.cell (.deal d) ++ s.due := by
  unfold due
  rw [List.flatMap_append]
  cases d <;> simp [opened, added]

/-- Nothing is told that was not due, and what was due is told in order. -/
theorem Step.account (h : Step s e t) (hf : e ≠ .fail) : t.told ++ t.due = s.told ++ (added s.cell e ++ s.due) := by
  cases h with
  | deal => rw [due_opened]
  | fail => exact absurd rfl hf
  | _ => simp [due, added]

/-- What raises cuts off the rest of what its call of `next` has to tell. -/
theorem Step.account_le (h : Step s e t) : (t.told ++ t.due).Sublist (s.told ++ (added s.cell e ++ s.due)) := by
  by_cases hf : e = .fail
  · subst hf
    cases h with
    | fail c v due rest told =>
      simp only [Notifying.due, added, List.flatMap_cons, List.nil_append]
      exact (List.sublist_append_right _ _).append_left told
  · rw [h.account hf]

theorem Step.told_prefix (h : Step s e t) : s.told <+: t.told := by
  cases h with
  | tell => exact List.prefix_append _ _
  | _ => exact List.prefix_rfl

theorem Runs.told_prefix (h : Runs s es t) : s.told <+: t.told := by
  induction h with
  | nil s => exact List.prefix_rfl
  | cons h _ ih => exact h.told_prefix.trans ih

/-- In a course of events, nothing becomes due to subscribers of a kind. -/
def Spared (p : ι → Bool) : Notifying α ι → List (Event α ι) → Prop
  | _, [] => True
  | s, e :: es => (∀ x ∈ added s.cell e, p x.1 = false) ∧ ∀ t, Step s e t → Spared p t es

/-- While nothing becomes due to them, subscribers of a kind are told of what was due to them before. -/
theorem Runs.account (h : Runs s es t) (hp : Spared p s es) :
    ((t.told ++ t.due).filter (p ·.1)).Sublist ((s.told ++ s.due).filter (p ·.1)) ∧
      (.fail ∉ es → (t.told ++ t.due).filter (p ·.1) = (s.told ++ s.due).filter (p ·.1)) := by
  induction h with
  | nil s => exact ⟨.refl _, fun _ => rfl⟩
  | @cons s t u e es h _ ih =>
    obtain ⟨hadded, hrest⟩ := hp
    obtain ⟨hsub, heq⟩ := ih (hrest t h)
    have hnone : (added s.cell e).filter (p ·.1) = [] :=
      List.filter_eq_nil_iff.mpr fun x hx => by rw [hadded x hx]; exact Bool.false_ne_true
    have hsame : (s.told ++ (added s.cell e ++ s.due)).filter (p ·.1) = (s.told ++ s.due).filter (p ·.1) := by
      rw [List.filter_append, List.filter_append, hnone, List.nil_append, List.filter_append]
    refine ⟨hsub.trans (hsame ▸ h.account_le.filter _), fun hf => ?_⟩
    rw [List.mem_cons, not_or] at hf
    rw [heq hf.2, h.account (Ne.symm hf.1), hsame]

/-- What is told from then on. -/
theorem Runs.since (h : Runs s es t) (hp : Spared p s es) : ∃ new, t.told = s.told ++ new ∧
    ((new ++ t.due).filter (p ·.1)).Sublist (s.due.filter (p ·.1)) ∧
      (.fail ∉ es → (new ++ t.due).filter (p ·.1) = s.due.filter (p ·.1)) := by
  obtain ⟨new, hnew⟩ := h.told_prefix
  obtain ⟨hsub, heq⟩ := h.account hp
  rw [← hnew, List.append_assoc, List.filter_append, List.filter_append (s.told)] at hsub heq
  exact ⟨new, hnew.symm, (List.append_sublist_append_left _).mp hsub, fun hf => List.append_cancel_left (heq hf)⟩

/-! ### When nothing becomes due -/

theorem Step.isClosed (h : Step s e t) (hc : s.cell.isClosed = true) : t.cell.isClosed = true := by
  cases h with
  | deal => rw [on_isClosed, hc, Bool.true_or]
  | _ => exact hc

/-- A closed cell tells nothing. -/
theorem Spared.of_closed (h : s.cell.isClosed = true) (es : List (Event α ι)) : Spared p s es := by
  induction es generalizing s with
  | nil => trivial
  | cons e es ih =>
    refine ⟨fun x hx => ?_, fun t ht => ih (ht.isClosed h)⟩
    unfold added at hx
    split at hx
    · unfold next at hx
      rw [if_pos h] at hx
      cases hx
    · cases hx

/-- Subscribers were there before, or come. -/
theorem on_subscribers_le (c : Cell α ι) (d : Deal α ι) :
    (c.on d).subscribers.Sublist (c.subscribers ++ subscribed [.deal d]) := by
  rw [on_subscribers]
  cases d with
  | subscribe x =>
    dsimp only
    split
    · exact List.sublist_append_left _ _
    · exact .refl _
  | unsubscribe x => exact List.erase_sublist.trans (List.sublist_append_left _ _)
  | complete =>
    dsimp only
    split
    · exact List.sublist_append_left _ _
    · exact List.nil_sublist _
  | _ => exact List.sublist_append_left _ _

omit [BEq ι] in
theorem subscribed_cons (e : Event α ι) (es : List (Event α ι)) :
    subscribed (e :: es) = subscribed [e] ++ subscribed es :=
  List.filterMap_append (l := [e])

theorem Step.subscribers (h : Step s e t) : t.cell.subscribers.Sublist (s.cell.subscribers ++ subscribed [e]) := by
  cases h with
  | deal => exact on_subscribers_le _ _
  | _ => exact List.sublist_append_left _ _

theorem Runs.subscribers (h : Runs s es t) : t.cell.subscribers.Sublist (s.cell.subscribers ++ subscribed es) := by
  induction h with
  | nil s => exact List.sublist_append_left _ _
  | cons h _ ih =>
    rw [subscribed_cons, ← List.append_assoc]
    exact ih.trans (h.subscribers.append_right _)

/-- Nothing becomes due to those who are no subscribers and do not come. -/
theorem Spared.of_unsubscribed (h : ∀ x ∈ s.cell.subscribers, p x = false) (hes : ∀ x ∈ subscribed es, p x = false) :
    Spared p s es := by
  induction es generalizing s with
  | nil => trivial
  | cons e es ih =>
    rw [subscribed_cons, List.forall_mem_append] at hes
    refine ⟨fun x hx => ?_, fun t ht => ih (fun x hx => ?_) hes.2⟩
    · unfold added at hx
      split at hx
      · obtain ⟨y, hy, rfl⟩ := List.mem_map.mp hx
        unfold next at hy
        split at hy
        · cases hy
        · exact h y hy
      · cases hx
    · exact (List.mem_append.mp (ht.subscribers.subset hx)).elim (h x) (hes.1 x)

/-- Nothing becomes due unless it is told. -/
theorem Spared.of_untold (h : ∀ v, .deal (.next v) ∉ es) : Spared p s es := by
  induction es generalizing s with
  | nil => trivial
  | cons e es ih =>
    refine ⟨fun x hx => ?_, fun t _ => ih fun v hv => h v (List.mem_cons_of_mem _ hv)⟩
    unfold added at hx
    split at hx
    · exact absurd List.mem_cons_self (h _)
    · cases hx

/-! ### Coming to an end -/

/-- What has still to happen for a call of `next` to return, if subscribers do nothing any more. -/
def Frame.ending (f : Frame α ι) : List (Event α ι) :=
  (if f.isInside then [.finish] else []) ++ f.due.flatMap (fun _ => [.tell, .finish]) ++ [.leave]

theorem runs_due (c : Cell α ι) (v : α) (due : List ι) (rest : List (Frame α ι)) (told : List (ι × α)) :
    Runs ⟨c, ⟨v, due, false⟩ :: rest, told⟩ (due.flatMap (fun _ => [.tell, .finish]) ++ [.leave])
      ⟨c, rest, told ++ due.map (·, v)⟩ := by
  induction due generalizing told with
  | nil =>
    rw [List.map_nil, List.append_nil]
    exact .one (.leave c v rest told)
  | cons x due ih =>
    have h := ih (told ++ [(x, v)])
    rw [List.append_assoc] at h
    exact .cons (.tell c v x due rest told) (.cons (.finish ..) h)

theorem runs_frame (c : Cell α ι) (f : Frame α ι) (rest : List (Frame α ι)) (told : List (ι × α)) :
    Runs ⟨c, f :: rest, told⟩ (Frame.ending f) ⟨c, rest, told ++ f.due.map (·, f.value)⟩ := by
  obtain ⟨v, due, inside⟩ := f
  cases inside with
  | false => exact runs_due c v due rest told
  | true => exact .cons (.finish ..) (runs_due c v due rest told)

theorem runs_ending (s : Notifying α ι) : Runs s (s.frames.flatMap Frame.ending) ⟨s.cell, [], s.told ++ s.due⟩ := by
  obtain ⟨c, frames, told⟩ := s
  induction frames generalizing told with
  | nil =>
    change Runs _ [] ⟨c, [], told ++ []⟩
    rw [List.append_nil]
    exact .nil _
  | cons f rest ih =>
    have h := (runs_frame c f rest told).append (ih (told ++ f.due.map (·, f.value)))
    change Runs _ (Frame.ending f ++ rest.flatMap Frame.ending)
      ⟨c, [], told ++ (f.due.map (·, f.value) ++ Notifying.due ⟨c, rest, told⟩)⟩
    rw [← List.append_assoc]
    exact h

/-! ### Who has been let go -/

/-- A new cell. -/
def start (v : α) : Notifying α ι := { cell := { value := v } }

/-- Of subscribers of a kind, nobody is told from now on but those who are due: in order, and all of them when
nothing raises and every call of `next` returns. They are silent exactly if none of them is due. -/
structure OnlyDue (p : ι → Bool) (q : List (Event α ι) → Prop) (s : Notifying α ι) : Prop where
  told : ∀ es t, q es → Runs s es t → ∃ new, t.told = s.told ++ new ∧
    (new.filter (p ·.1)).Sublist (s.due.filter (p ·.1)) ∧
      (.fail ∉ es → t.frames = [] → new.filter (p ·.1) = s.due.filter (p ·.1))
  silent : (∀ es t, q es → Runs s es t → t.told.filter (p ·.1) = s.told.filter (p ·.1)) ↔
    ∀ x ∈ s.due, p x.1 = false

omit [BEq ι] in
theorem subscribed_ending (frames : List (Frame α ι)) : subscribed (frames.flatMap Frame.ending) = [] := by
  refine List.filterMap_eq_nil_iff.mpr fun e he => ?_
  obtain ⟨f, -, he⟩ := List.mem_flatMap.mp he
  cases e with
  | deal d => simp [Frame.ending] at he
  | _ => rfl

theorem onlyDue {q : List (Event α ι) → Prop} (hq : ∀ es, q es → Spared p s es)
    (hending : q (s.frames.flatMap Frame.ending)) : OnlyDue p q s := by
  have told : ∀ es t, q es → Runs s es t → ∃ new, t.told = s.told ++ new ∧
      (new.filter (p ·.1)).Sublist (s.due.filter (p ·.1)) ∧
        (.fail ∉ es → t.frames = [] → new.filter (p ·.1) = s.due.filter (p ·.1)) := by
    intro es t hes hr
    obtain ⟨new, hnew, hsub, heq⟩ := hr.since (hq es hes)
    rw [List.filter_append] at hsub heq
    refine ⟨new, hnew, (List.sublist_append_left _ _).trans hsub, fun hf ht => ?_⟩
    rw [← heq hf, due_eq_nil ht, List.filter_nil, List.append_nil]
  -- whoever is due would be told if everybody came to an end from here
  refine ⟨told, fun hsilent => ?_, fun hnone es t hes hr => ?_⟩
  · have hend := hsilent _ _ hending s.runs_ending
    rw [List.filter_append, List.append_right_eq_self, List.filter_eq_nil_iff] at hend
    exact fun x hx => Bool.eq_false_iff.mpr (hend x hx)
  · obtain ⟨new, hnew, hsub, -⟩ := told es t hes hr
    have hdue : s.due.filter (p ·.1) = [] :=
      List.filter_eq_nil_iff.mpr fun x hx => Bool.eq_false_iff.mp (hnone x hx)
    rw [hdue, List.sublist_nil] at hsub
    rw [hnew, List.filter_append, hsub, List.append_nil]

variable [LawfulBEq ι]

/-- Who has been let go, because the cell has been closed or because its handle has been called, is told of nothing
any more but what was due to it then. -/
theorem released_only_due (v : α) (hs : Runs (start v) es s) (hdiff : (subscribed es).Nodup) :
    (∀ t, Step s (.deal .complete) t → t.OnlyDue (fun _ => true) fun _ => True) ∧
      ∀ x t, Step s (.deal (.unsubscribe x)) t → t.OnlyDue (· == x) fun es' => x ∉ subscribed es' := by
  refine ⟨fun t ht => ?_, fun x t ht => ?_⟩
  · have hclosed : t.cell.isClosed = true := by
      cases ht
      rw [on_isClosed]
      exact Bool.or_true _
    exact onlyDue (fun es' _ => .of_closed hclosed es') trivial
  · have hgone : ∀ y ∈ t.cell.subscribers, (y == x) = false := by
      intro y hy
      cases ht
      have hnodup : s.cell.subscribers.Nodup := by
        have hsub := hs.subscribers
        exact hsub.nodup hdiff
      exact beq_eq_false_iff_ne.mpr fun h => hnodup.not_mem_erase (h ▸ hy)
    refine onlyDue (fun es' hx => .of_unsubscribed hgone fun y hy => ?_) ?_
    · exact beq_eq_false_iff_ne.mpr fun h => hx (h ▸ hy)
    · rw [subscribed_ending]
      exact List.not_mem_nil

/-- Subscribers that are called one after another, the first of which has come to its end. -/
def pair : Notifying Nat String :=
  ⟨(start 0).cell.after [.subscribe "a", .subscribe "b", .next 1], [⟨1, ["b"], true⟩], [("a", 1)]⟩

/-- It is so while the first of two is told of a value: the other one is told of it still, as it was due. -/
theorem released_only_due_pair : ∃ s t u : Notifying Nat String, Step s (.deal .complete) t ∧
    t.OnlyDue (fun _ => true) (fun _ => True) ∧ Step s (.deal (.unsubscribe "b")) u ∧
      u.OnlyDue (· == "b") (fun es => "b" ∉ subscribed es) ∧ t.due = [("b", 1)] ∧ u.due = [("b", 1)] := by
  have hs : Runs (start 0) [.deal (.subscribe "a"), .deal (.subscribe "b"), .deal (.next 1), .tell] pair :=
    .cons (.deal _ _ rfl) (.cons (.deal _ _ rfl) (.cons (.deal _ _ rfl) (.one (.tell ..))))
  obtain ⟨hclosed, hgone⟩ := released_only_due 0 hs (by decide)
  exact ⟨_, _, _, .deal _ _ rfl, hclosed _ (.deal _ _ rfl), .deal _ _ rfl, hgone _ _ (.deal _ _ rfl), rfl, rfl⟩

/-- A subscriber is told of a value after the cell has been closed, and one after its handle has been called. -/
theorem told_when_released :
    (∃ t u : Notifying Nat String, Runs (start 0) [.deal (.subscribe "a"), .deal (.subscribe "b"), .deal (.next 1),
        .tell, .deal .complete] t ∧ Runs t [.finish, .tell] u ∧ t.cell.isClosed = true ∧
          u.told = t.told ++ [("b", 1)]) ∧
      ∃ t u : Notifying Nat String, Runs (start 0) [.deal (.subscribe "a"), .deal (.subscribe "b"), .deal (.next 1),
        .tell, .deal (.unsubscribe "b")] t ∧ Runs t [.finish, .tell] u ∧ "b" ∉ t.cell.subscribers ∧
          u.told = t.told ++ [("b", 1)] := by
  have hs : ∀ d, Runs (start 0) [.deal (.subscribe "a"), .deal (.subscribe "b"), .deal (.next 1), .tell, .deal d]
      { pair with cell := pair.cell.on d, frames := opened pair.cell d ++ pair.frames } := fun d =>
    .cons (.deal _ _ rfl) (.cons (.deal _ _ rfl) (.cons (.deal _ _ rfl) (.cons (.tell ..) (.one (.deal _ _ rfl)))))
  exact ⟨⟨_, _, hs .complete, .cons (.finish ..) (.one (.tell ..)), rfl, rfl⟩,
    _, _, hs (.unsubscribe "b"), .cons (.finish ..) (.one (.tell ..)), by decide, rfl⟩

/-- So it is in a session. -/
example : ((Session.fresh 0).takes [.subscribe "a" "a" [.complete], .subscribe "b" "b" [], .next 1]).calls =
    [("a", 1), ("b", 1)] := rfl

end Notifying

end LiveSvg.Cell
