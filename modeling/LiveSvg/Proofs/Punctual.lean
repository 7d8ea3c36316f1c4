import LiveSvg.Proofs.Finishing
/-!
What is in time. Of every event it can be told whether it was in time with what had come to pass before: animations
end once and for a reason, what they hold back is applied then and nothing before, and what they are asked for later
is brought about at once. A past is kept books of by what animations are asked for, what they have brought about, and
what they still owe.
-/

namespace LiveSvg

open Number (Binary64)
open Script (Datum)

variable {n m : Nat} {past : List Event} {e : Event}

/-! ### What the past tells of an end -/

/-- An animation has ended. -/
def Ceased (n : Nat) (past : List Event) : Prop := ∃ e ∈ past, e.deed = .cease n

/-- An animation has been started to end at a time. -/
def StartedFor (n : Nat) (due : Binary64) (past : List Event) : Prop :=
  ∃ e ∈ past, ∃ id, e.deed = .animate n id (some due)

theorem ceased_cons : Ceased n (e :: past) ↔ e.deed = .cease n ∨ Ceased n past := by
  unfold Ceased
  simp

theorem ceased_append {new : List Event} (h : Ceased n past) : Ceased n (new ++ past) := by
  obtain ⟨e, he, hd⟩ := h
  exact ⟨e, List.mem_append_right _ he, hd⟩

theorem startedFor_cons {due : Binary64} :
    StartedFor n due (e :: past) ↔ (∃ id, e.deed = .animate n id (some due)) ∨ StartedFor n due past := by
  unfold StartedFor
  simp

/-- Whether an animation ends with a deed. -/
def Deed.isEnd (n : Nat) : Deed → Bool
  | .cease m => m == n
  | _ => false

/-- The time for which a deed starts an animation. -/
def Deed.due? (n : Nat) : Deed → Option Binary64
  | .animate m _ due => if m = n then due else none
  | _ => none

theorem ceased_iff : Ceased n past ↔ past.any (fun e => e.deed.isEnd n) = true := by
  rw [List.any_eq_true]
  refine exists_congr fun e => and_congr_right fun _ => ⟨fun hd => ?_, fun hd => ?_⟩
  · rw [hd]
    exact beq_self_eq_true n
  · generalize e.deed = d at hd
    cases d with
    | cease m => rw [beq_iff_eq.mp hd]
    | _ => cases hd

instance (n : Nat) (past : List Event) : Decidable (Ceased n past) := decidable_of_iff _ ceased_iff.symm

theorem startedFor_iff {due : Binary64} : StartedFor n due past ↔ past.any (fun e => e.deed.due? n == some due) = true := by
  rw [List.any_eq_true]
  refine exists_congr fun e => and_congr_right fun _ => ⟨fun ⟨id, hd⟩ => ?_, fun hd => ?_⟩
  · rw [hd]
    simp [Deed.due?]
  · rw [beq_iff_eq] at hd
    generalize e.deed = d at hd
    cases d with
    | animate m id due' =>
      rw [Deed.due?] at hd
      split at hd
      · exact ⟨id, by rw [hd]; congr⟩
      · cases hd
    | _ => cases hd

instance (n : Nat) (due : Binary64) (past : List Event) : Decidable (StartedFor n due past) :=
  decidable_of_iff _ startedFor_iff.symm

/-- Whether a clock has come to a time. -/
def Clock.reaches (c : Clock Job) (due : Binary64) : Bool := !(c.now.add resolution).atMost due

/-- What was done last is a reason for an animation to end: it has been asked to, or its timer has come up at the
time for which it was started. -/
def Caused (n : Nat) (c : Clock Job) (past : List Event) : Prop :=
  ∃ q r, past = q :: r ∧ (q.deed = .stop n ∨
    q.deed = .expire n ∧ ∃ due, StartedFor n due past ∧ c.reaches due = true)

/-! ### Being in time -/

/-- What was done since it was begun to apply a change is what applying it to the element of the animation does. -/
def CarriedOut (n : Nat) (c : Change) (s : Situation) (past : List Event) : Prop :=
  ∃ draws x s₀ r, past = draws ++ ⟨.effect n (.change c), s₀⟩ :: r ∧ (∀ e ∈ draws, ∃ d, e.deed = .draw d) ∧
    s₀.animations[n]? = some x ∧
    Run.applyChange x.element c ⟨s₀, ⟨.effect n (.change c), s₀⟩ :: r⟩ = .ok () ⟨s, past⟩

/-- The callback that a deed is done with calling for an animation. -/
def Deed.returned? (n : Nat) : Deed → Option Datum
  | .effected m (.call callback) _ => if m = n then some callback else none
  | _ => none

/-- Callbacks of an animation are being called. -/
def Calling (n : Nat) (past : List Event) : Prop :=
  (collect (Deed.returned? n) past).length < (collect (Deed.called? n) past).length

/-- Whether a deed belongs to applying a change. -/
def Deed.isApplying : Deed → Bool
  | .effect _ (.change _) | .effected _ (.change _) _ | .draw _ => true
  | _ => false

/-- What a deed asks an animation to bring about. -/
def Deed.asks? : Deed → Option (Nat × Effect)
  | .queue n c => some (n, .change c)
  | .await n callback => some (n, .call callback)
  | _ => none

/-- An event is in time with the past before it. -/
structure Event.InTime (e : Event) (past : List Event) : Prop where
  /-- Nothing is brought about for an animation before its end. -/
  afterEnd : ∀ n f, e.deed = .effect n f → Ceased n past
  /-- An animation ends once, and for a reason. -/
  caused : ∀ n, e.deed = .cease n → ¬ Ceased n past ∧ Caused n e.before.clock past
  /-- Whatever else is done, all that animations which have ended were asked for has been applied, in order. -/
  caughtUp : e.deed.isApplying = false → ∀ n, Ceased n past →
    collect (Deed.applied? n) past = collect (Deed.asked? n) past
  /-- What is asked of an animation that has ended is brought about at once. -/
  prompt : ∀ q r n f, past = q :: r → q.deed.asks? = some (n, f) → Ceased n r → e.deed = .effect n f
  /-- A change that has been applied has been carried out. -/
  carriedOut : ∀ n c, e.deed = .effected n (.change c) (.ok ()) → CarriedOut n c e.before past
  /-- An animation is under way as long as it has not ended, and while it brings about what it is for. -/
  settled : ∀ (n : Nat) (x : Animation), e.before.animations[n]? = some x → x.isSettled ∨ x.isFinished = true ∧
    (Calling n past ∨ e.deed.isApplying = true ∨ ∃ callback, e.deed = .effect n (.call callback))

/-- All events of a past have been in time. -/
def Punctual : List Event → Prop
  | [] => True
  | e :: past => e.InTime past ∧ Punctual past

namespace Punctual

theorem inTime (h : Punctual past) {r : List Event} (hr : e :: r <:+ past) : e.InTime r := by
  induction past with
  | nil => cases List.suffix_nil.mp hr
  | cons q past ih =>
    rcases List.suffix_cons_iff.mp hr with hr | hr
    · cases hr
      exact h.1
    · exact ih h.2 hr

/-- Before an animation has ended, nothing is brought about for it. -/
theorem no_effect (h : Punctual past) (hn : ¬ Ceased n past) (he : e ∈ past) (f : Effect) : e.deed ≠ .effect n f := by
  obtain ⟨new, r, rfl⟩ := List.append_of_mem he
  intro hd
  exact hn (ceased_append (ceased_cons.mpr (.inr ((h.inTime (List.suffix_append _ _)).afterEnd n f hd))))

theorem unapplied (h : Punctual past) (hn : ¬ Ceased n past) : collect (Deed.applied? n) past = [] := by
  refine collect_eq_nil fun e he => ?_
  cases hd : e.deed with
  | effected m f result =>
    obtain c | callback := f
    · obtain _ | _ := result
      · rfl
      · refine if_neg fun hm => ?_
        subst hm
        obtain ⟨new, r, rfl⟩ := List.append_of_mem he
        obtain ⟨draws, x, s, r', hr, -⟩ := (h.inTime (List.suffix_append _ _)).carriedOut m c hd
        have hbegun : (⟨.effect m (.change c), s⟩ : Event) ∈ new ++ e :: r := by
          rw [hr]
          simp
        exact h.no_effect hn hbegun _ rfl
    · rfl
  | _ => rfl

theorem uncalled (h : Punctual past) (hn : ¬ Ceased n past) : collect (Deed.called? n) past = [] := by
  refine collect_eq_nil fun e he => ?_
  cases hd : e.deed with
  | effect m f =>
    obtain c | callback := f
    · rfl
    · exact if_neg fun hm => h.no_effect hn he _ (by rw [hd, hm])
  | _ => rfl

end Punctual

/-! ### Books -/

/-- What is under way: what animations that have ended are still to bring about at once, how many of their callbacks
are being called, which of them are not through with what they are for, and the jobs in hand. -/
structure Pending where
  owed : Nat → List Effect := fun _ => []
  calls : Nat → Nat := fun _ => 0
  busy : Nat → Prop := fun _ => False
  hand : List Job := []

/-- Nothing is to be brought about at once, and only animations whose callbacks are being called are not through. -/
structure Pending.Clear (p : Pending) : Prop where
  owed : p.owed = fun _ => []
  covered : ∀ n, p.busy n → 0 < p.calls n

theorem Pending.Clear.hand (hand : List Job) : ({ hand } : Pending).Clear := ⟨rfl, fun _ h => h.elim⟩

/-- The change that an effect is. -/
def Effect.change? : Effect → Option Change
  | .change c => some c
  | .call _ => none

/-- Animations are under way as long as they have not ended, and those that are not through. -/
def Situation.Stands (s : Situation) (p : Pending) : Prop :=
  ∀ (n : Nat) (x : Animation), s.animations[n]? = some x → x.isSettled ∨ x.isFinished = true ∧ p.busy n

/-- All events of a past have been in time, and what it tells of agrees with what is under way. -/
structure Pending.Books (p : Pending) (past : List Event) : Prop where
  punctual : Punctual past
  account : ∀ n, Ceased n past →
    collect (Deed.applied? n) past ++ (p.owed n).filterMap Effect.change? = collect (Deed.asked? n) past
  answered : ∀ q r n f, past = q :: r → q.deed.asks? = some (n, f) → Ceased n r → ∃ l, p.owed n = f :: l
  calls : ∀ n, (collect (Deed.called? n) past).length = (collect (Deed.returned? n) past).length + p.calls n

/-- What is owed for one animation alone. -/
def owing (n : Nat) (l : List Effect) : Nat → List Effect := fun m => if m = n then l else []

theorem owing_self (n : Nat) (l : List Effect) : owing n l n = l := if_pos rfl

theorem owing_other (h : m ≠ n) (l : List Effect) : owing n l m = [] := if_neg h

theorem owing_nil (n : Nat) : owing n [] = fun _ => [] := by
  funext m
  exact ite_self _

theorem mem_owing {l : List Effect} {f : Effect} (h : f ∈ owing n l m) : m = n ∧ f ∈ l := by
  by_cases hm : m = n
  · subst m
    exact ⟨rfl, owing_self n l ▸ h⟩
  · rw [owing_other hm] at h
    cases h

theorem Pending.Clear.owes_nothing {p : Pending} (h : p.Clear) (n : Nat) : { p with owed := owing n [] } = p := by
  rw [owing_nil, ← h.owed]

/-- Whether a deed is none by which an animation ends or is brought about. -/
def Deed.isOrdinary : Deed → Bool
  | .cease _ | .effect .. | .effected _ (.change _) _ => false
  | _ => true

/-- A deed that is neither asking for a change nor applying one, and neither calling a callback nor coming back from
there. -/
def Deed.Tacit (d : Deed) : Prop :=
  ∀ m, d.applied? m = none ∧ d.asked? m = none ∧ d.called? m = none ∧ d.returned? m = none

theorem Deed.tacit_of_isIdle {d : Deed} (h : d.isIdle = true) : d.Tacit ∧ d.isOrdinary = true ∧ d.asks? = none := by
  cases d <;> first | exact ⟨fun _ => ⟨rfl, rfl, rfl, rfl⟩, rfl, rfl⟩ | cases h

/-- What belongs to applying a change is in time, if nothing else has been asked for. -/
theorem Event.InTime.applying {p : Pending} (ha : e.deed.isApplying = true) (hs : e.before.Stands p)
    (hend : ∀ n f, e.deed = .effect n f → Ceased n past)
    (hprompt : ∀ q r n f, past = q :: r → q.deed.asks? = some (n, f) → Ceased n r → e.deed = .effect n f)
    (hcarried : ∀ n c, e.deed = .effected n (.change c) (.ok ()) → CarriedOut n c e.before past) : e.InTime past where
  afterEnd := hend
  caused n hd := by
    rw [hd] at ha
    cases ha
  caughtUp hd := by
    rw [ha] at hd
    cases hd
  prompt := hprompt
  carriedOut := hcarried
  settled n x hx := (hs n x hx).imp_right fun hb => ⟨hb.1, .inr (.inl ha)⟩

namespace Pending.Books

variable {p : Pending} {c : Change} {l : List Effect} {callback : Datum}

theorem calling (h : p.Books past) (hc : 0 < p.calls n) : Calling n past := by
  unfold Calling
  rw [h.calls n]
  omega

theorem caughtUp (h : p.Books past) (hp : ∀ m, (p.owed m).filterMap Effect.change? = []) (hn : Ceased n past) :
    collect (Deed.applied? n) past = collect (Deed.asked? n) past := by
  have haccount := h.account n hn
  rwa [hp, List.append_nil] at haccount

/-- Where nothing is to be brought about at once, nothing has just been asked of an animation that has ended. -/
theorem unasked (h : p.Books past) (hp : p.Clear) {q : Event} {r : List Event} {f : Effect} (hq : past = q :: r)
    (ha : q.deed.asks? = some (n, f)) : ¬ Ceased n r := by
  intro hn
  obtain ⟨l, hl⟩ := h.answered q r n f hq ha hn
  rw [hp.owed] at hl
  cases hl

/-- Where nothing is to be brought about at once, what is done is in time. -/
theorem inTime (h : p.Books past) (hp : p.Clear) (hs : e.before.Stands p) (ho : e.deed.isOrdinary = true) :
    e.InTime past where
  afterEnd n f hd := by
    rw [hd] at ho
    cases ho
  caused n hd := by
    rw [hd] at ho
    cases ho
  caughtUp _ n hn := h.caughtUp (fun m => by rw [hp.owed]; rfl) hn
  prompt q r n f hq ha hn := absurd hn (h.unasked hp hq ha)
  carriedOut n c hd := by
    rw [hd] at ho
    cases ho
  settled n x hx := (hs n x hx).imp_right fun hb => ⟨hb.1, .inl (h.calling (hp.covered n hb.2))⟩

/-- What is neither asked for nor brought about leaves the books as they are. -/
theorem tacit (h : p.Books past) (ht : e.InTime past) (hd : e.deed.Tacit) (hc : ∀ n, e.deed ≠ .cease n)
    (ha : e.deed.asks? = none) : p.Books (e :: past) where
  punctual := ⟨ht, h.punctual⟩
  account n hn := by
    obtain ⟨happlied, hasked, -⟩ := hd n
    rw [collect_cons, collect_cons, happlied, hasked, Option.toList_none, List.append_nil, List.append_nil]
    exact h.account n ((ceased_cons.mp hn).resolve_left (hc n))
  answered q r n f hq hqa := by
    cases hq
    rw [ha] at hqa
    cases hqa
  calls n := by
    obtain ⟨-, -, hcalled, hreturned⟩ := hd n
    rw [collect_cons, collect_cons, hcalled, hreturned, Option.toList_none, List.append_nil, List.append_nil]
    exact h.calls n

/-- An animation that has ended begins to apply the change that it owes next. -/
theorem begin (h : Books { p with owed := owing n (.change c :: l) } past) (hn : Ceased n past) {s : Situation}
    (hs : s.Stands p) : Books { p with owed := owing n (.change c :: l) } (⟨.effect n (.change c), s⟩ :: past) := by
  refine h.tacit (.applying rfl hs (fun m f hd => ?_) (fun q r m f hq ha hm => ?_) fun m c hd => (by cases hd))
    (fun m => ⟨rfl, rfl, rfl, rfl⟩) (fun m => Deed.noConfusion) rfl
  · cases hd
    exact hn
  · obtain ⟨l', hl⟩ : ∃ l', owing n (.change c :: l) m = f :: l' := h.answered q r m f hq ha hm
    by_cases hmn : m = n
    · subst m
      rw [owing_self] at hl
      cases hl
      rfl
    · rw [owing_other hmn] at hl
      cases hl

/-- A change that has been applied is no longer owed. -/
theorem applied (h : Books { p with owed := owing n (.change c :: l) } past) {s : Situation} (hs : s.Stands p)
    (hc : CarriedOut n c s past) (hq : ∀ q r, past = q :: r → q.deed.asks? = none) :
    Books { p with owed := owing n l } (⟨.effected n (.change c) (.ok ()), s⟩ :: past) where
  punctual := by
    refine ⟨.applying rfl hs (fun m f hd => (by cases hd)) (fun q r m f hqr ha => ?_) fun m c' hd => ?_, h.punctual⟩
    · rw [hq q r hqr] at ha
      cases ha
    · cases hd
      exact hc
  account m hm := by
    have haccount : collect (Deed.applied? m) past ++ (owing n (.change c :: l) m).filterMap Effect.change? = _ :=
      h.account m ((ceased_cons.mp hm).resolve_left Deed.noConfusion)
    dsimp only
    rw [collect_cons, collect_cons]
    by_cases hmn : n = m
    · subst m
      have happlied : (Deed.effected n (.change c) (.ok ())).applied? n = some c := if_pos rfl
      rw [owing_self] at haccount
      rw [happlied, owing_self]
      simpa [Deed.asked?, Effect.change?] using haccount
    · have happlied : (Deed.effected n (.change c) (.ok ())).applied? m = none := if_neg hmn
      rw [owing_other (Ne.symm hmn)] at haccount
      rw [happlied, owing_other (Ne.symm hmn)]
      simpa [Deed.asked?] using haccount
  answered q r m f hqr ha := by
    cases hqr
    cases ha
  calls := h.calls

/-- An animation that ends owes all that it has been asked for. -/
theorem ceased (h : p.Books past) (hp : p.Clear) {s : Situation} (hs : s.Stands p) (hopen : ¬ Ceased n past)
    (hcause : Caused n s.clock past) :
    Books { p with owed := owing n ((collect (Deed.asked? n) past).map .change) } (⟨.cease n, s⟩ :: past) where
  punctual := by
    refine ⟨⟨fun m f hd => (by cases hd), fun m hd => ?_, fun _ m hm => h.caughtUp (fun k => by rw [hp.owed]; rfl) hm,
      fun q r m f hq ha hm => absurd hm (h.unasked hp hq ha), fun m c hd => (by cases hd), fun m x hx => ?_⟩, h.punctual⟩
    · cases hd
      exact ⟨hopen, hcause⟩
    · exact (hs m x hx).imp_right fun hb => ⟨hb.1, .inl (h.calling (hp.covered m hb.2))⟩
  account m hm := by
    rw [collect_cons, collect_cons]
    by_cases hmn : m = n
    · subst m
      have hall : ((collect (Deed.asked? n) past).map Effect.change).filterMap Effect.change? =
          collect (Deed.asked? n) past := by
        rw [List.filterMap_map]
        exact List.filterMap_some
      dsimp only
      rw [owing_self, hall, h.punctual.unapplied hopen]
      simp [Deed.applied?, Deed.asked?]
    · have hceased : Ceased m past := (ceased_cons.mp hm).resolve_left fun hc => hmn (by cases hc; rfl)
      dsimp only
      rw [owing_other hmn, h.caughtUp (fun k => by rw [hp.owed]; rfl) hceased]
      simp [Deed.applied?, Deed.asked?]
  answered q r m f hq ha := by
    cases hq
    cases ha
  calls := h.calls

/-- What an animation that has ended is asked for is owed; until then nothing is. -/
theorem asked (h : p.Books past) (hp : p.Clear) {s : Situation} (hs : s.Stands p) (c : Change) {owed : Nat → List Effect}
    (howed : ∀ m, Ceased m past → owed m = if m = n then [.change c] else []) :
    Books { p with owed } (⟨.queue n c, s⟩ :: past) where
  punctual := ⟨h.inTime hp hs rfl, h.punctual⟩
  account m hm := by
    have hceased : Ceased m past := (ceased_cons.mp hm).resolve_left Deed.noConfusion
    dsimp only
    rw [collect_cons, collect_cons, howed m hceased, h.caughtUp (fun k => by rw [hp.owed]; rfl) hceased]
    by_cases hmn : n = m
    · subst m
      have hself : (Deed.queue n c).asked? n = some c := if_pos rfl
      rw [hself, if_pos rfl]
      simp [Deed.applied?, Effect.change?]
    · have hother : (Deed.queue n c).asked? m = none := if_neg hmn
      rw [hother, if_neg (Ne.symm hmn)]
      simp [Deed.applied?]
  answered q r m f hq ha hm := by
    cases hq
    cases ha
    exact ⟨[], (howed n hm).trans (if_pos rfl)⟩
  calls := h.calls

/-- So it is with a callback. -/
theorem awaited (h : p.Books past) (hp : p.Clear) {s : Situation} (hs : s.Stands p) (callback : Datum)
    {owed : Nat → List Effect} (howed : ∀ m, Ceased m past → owed m = if m = n then [.call callback] else []) :
    Books { p with owed } (⟨.await n callback, s⟩ :: past) where
  punctual := ⟨h.inTime hp hs rfl, h.punctual⟩
  account m hm := by
    have hceased : Ceased m past := (ceased_cons.mp hm).resolve_left Deed.noConfusion
    have hnone : (owed m).filterMap Effect.change? = [] := by
      rw [howed m hceased]
      split <;> rfl
    dsimp only
    rw [collect_cons, collect_cons, hnone, h.caughtUp (fun k => by rw [hp.owed]; rfl) hceased]
    simp [Deed.applied?, Deed.asked?]
  answered q r m f hq ha hm := by
    cases hq
    cases ha
    exact ⟨[], (howed n hm).trans (if_pos rfl)⟩
  calls := h.calls

end Pending.Books

/-- What is under way while a callback of an animation is called. -/
def Pending.during (p : Pending) (n : Nat) : Pending :=
  { p with owed := fun _ => [], calls := fun m => p.calls m + if n = m then 1 else 0 }

theorem Pending.during_clear {p : Pending} (h : ∀ m, p.busy m → 0 < p.calls m ∨ m = n) : (p.during n).Clear where
  owed := rfl
  covered m hm := by
    rcases h m hm with hc | rfl
    · exact Nat.add_pos_left hc _
    · exact Nat.add_pos_right _ (by rw [if_pos rfl]; exact Nat.one_pos)

namespace Pending.Books

variable {p : Pending} {callback : Datum}

/-- A callback of an animation that has ended is called, where nothing else is owed. -/
theorem called (h : p.Books past) (hn : Ceased n past) {s : Situation} (hs : s.Stands p)
    (howed : ∀ m f, f ∈ p.owed m → m = n ∧ f = .call callback) (hbusy : ∀ m, p.busy m → 0 < p.calls m ∨ m = n) :
    (p.during n).Books (⟨.effect n (.call callback), s⟩ :: past) := by
  have hnone : ∀ m, (p.owed m).filterMap Effect.change? = [] := fun m =>
    List.filterMap_eq_nil_iff.mpr fun f hf => by
      rw [(howed m f hf).2]
      rfl
  refine ⟨⟨⟨fun m f hd => ?_, fun m hd => (by cases hd), fun _ m hm => h.caughtUp hnone hm, fun q r m f hq ha hm => ?_,
    fun m c hd => (by cases hd), fun m x hx => ?_⟩, h.punctual⟩, fun m hm => ?_, fun q r m f hq ha => ?_, fun m => ?_⟩
  · cases hd
    exact hn
  · obtain ⟨l, hl⟩ := h.answered q r m f hq ha hm
    obtain ⟨rfl, rfl⟩ := howed m f (by rw [hl]; exact List.mem_cons_self ..)
    rfl
  · refine (hs m x hx).imp_right fun hb => ⟨hb.1, ?_⟩
    rcases hbusy m hb.2 with hc | rfl
    · exact .inl (h.calling hc)
    · exact .inr (.inr ⟨callback, rfl⟩)
  · have hceased : Ceased m past := (ceased_cons.mp hm).resolve_left Deed.noConfusion
    rw [collect_cons, collect_cons, h.caughtUp hnone hceased]
    simp [during, Deed.applied?, Deed.asked?]
  · cases hq
    cases ha
  · rw [collect_cons, collect_cons, List.length_append, List.length_append, h.calls m]
    unfold during Deed.called? Deed.returned?
    dsimp only
    split
    · simp
      omega
    · simp

/-- A callback that has been called is done with. -/
theorem returned (h : (p.during n).Books past) (hp : (p.during n).Clear) {s : Situation} (hs : s.Stands p) :
    Books { p with owed := fun _ => [] } (⟨.effected n (.call callback) (.ok ()), s⟩ :: past) := by
  refine ⟨⟨h.inTime hp hs rfl, h.punctual⟩, fun m hm => ?_, fun q r m f hq ha => ?_, fun m => ?_⟩
  · have hceased : Ceased m past := (ceased_cons.mp hm).resolve_left Deed.noConfusion
    rw [collect_cons, collect_cons, h.caughtUp (fun k => by rw [hp.owed]; rfl) hceased]
    simp [Deed.applied?, Deed.asked?]
  · cases hq
    cases ha
  · have hcalls := h.calls m
    rw [collect_cons, collect_cons, List.length_append, List.length_append, hcalls]
    unfold during Deed.called? Deed.returned?
    dsimp only
    split
    · simp
      omega
    · simp

end Pending.Books

end LiveSvg
