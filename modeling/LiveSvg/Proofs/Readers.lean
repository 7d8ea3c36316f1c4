import LiveSvg.Proofs.Streams
import Mathlib.Data.List.Pairwise
/-!
Readers in a session with a cell. Whatever steps are taken, and whatever steps subscribers take in turn
while they are told of a value, what a reader has received is what its stream has delivered.
-/

namespace LiveSvg

namespace Value.Members

variable {α : Type} {ms : List (String × α)} {key : String}

theorem set_of_get? {a : α} (h : get? ms key = some a) :
    ∃ xs ys, ms = xs ++ (key, a) :: ys ∧ ∀ b, set ms key b = xs ++ (key, b) :: ys := by
  induction ms with
  | nil => cases h
  | cons m ms ih =>
    obtain ⟨k, b⟩ := m
    rw [get?] at h
    by_cases hk : k = key
    · rw [if_pos hk] at h
      cases h
      subst hk
      exact ⟨[], ms, rfl, fun b => if_pos rfl⟩
    · rw [if_neg hk] at h
      obtain ⟨xs, ys, rfl, hs⟩ := ih h
      exact ⟨(k, b) :: xs, ys, rfl, fun c => by rw [set, if_neg hk, hs, List.cons_append]⟩

theorem set_of_none (h : get? ms key = none) (a : α) : set ms key a = ms ++ [(key, a)] := by
  induction ms with
  | nil => rfl
  | cons m ms ih =>
    obtain ⟨k, b⟩ := m
    rw [get?] at h
    split at h
    · cases h
    · rename_i hk
      rw [set, if_neg hk, ih h, List.cons_append]

end Value.Members

namespace Cell

variable {α β : Type} {c₀ : Cell α String} {past : List (Deal α String)} {d : Deal α String} {i : Nat}
  {r r' : Reader α} {t t' : Traced α}

/-! ### One reader -/

/-- What a reader has received is what its stream has delivered since it was opened, and it has seen the
end if that has come. -/
def Tracks (c₀ : Cell α String) (past : List (Deal α String)) (i : Nat) (r : Reader α) : Prop :=
  ∃ before ds, past = before ++ .openStream :: ds ∧ (c₀.after before).openStream.2 = i ∧
    r.received = (c₀.after before).openStream.1.delivered i ds ∧
      (r.sawEnd = true ↔ .ended ∈ (c₀.after before).openStream.1.readings i ds)

/-- One more deal, of which the reader receives what its stream gives. -/
theorem Tracks.deal (h : Tracks c₀ past i r) (d : Deal α String)
    (hr : r'.received = r.received ++ (((c₀.after past).reading? i d).bind Reading.item?).toList)
    (he : r'.sawEnd = true ↔ r.sawEnd = true ∨ (c₀.after past).reading? i d = some .ended) :
    Tracks c₀ (past ++ [d]) i r' := by
  obtain ⟨before, ds, rfl, hi, hd, hs⟩ := h
  have hc : c₀.after (before ++ .openStream :: ds) = (c₀.after before).openStream.1.after ds :=
    after_append ..
  have hl : (c₀.after before).openStream.1.readings i (ds ++ [d]) =
      (c₀.after before).openStream.1.readings i ds ++
        ((c₀.after (before ++ .openStream :: ds)).reading? i d).toList := by
    unfold readings
    rw [along_append, hc, along, along, List.append_nil]
  refine ⟨before, ds ++ [d], by simp, hi, ?_, ?_⟩
  · unfold delivered at hd ⊢
    rw [hr, hd, hl, List.filterMap_append]
    cases (c₀.after (before ++ .openStream :: ds)).reading? i d with
    | none => rfl
    | some x => cases x <;> rfl
  · rw [he, hs, hl, List.mem_append, Option.mem_toList]

/-- Deals that do not read the stream leave its reader as it is. -/
theorem Tracks.other (h : Tracks c₀ past i r) (hd : d ≠ .read i) : Tracks c₀ (past ++ [d]) i r := by
  have hn : (c₀.after past).reading? i d = none := by
    unfold reading?
    split
    · exact if_neg fun k => hd (by rw [k])
    · rfl
  refine h.deal d ?_ ?_ <;> rw [hn] <;> simp

theorem Tracks.lt (h : Tracks c₀ past i r) : i < (c₀.after past).streams.length := by
  obtain ⟨before, ds, rfl, rfl, -⟩ := h
  rw [after_append, after_cons]
  obtain ⟨s, hs⟩ := after_stream (c := (c₀.after before).openStream.1)
    (i := (c₀.after before).openStream.2) List.getElem?_concat_length ds
  exact (List.getElem?_eq_some_iff.mp hs).1

/-- Opening a stream for a reader that has received nothing. -/
theorem Tracks.open (c₀ : Cell α String) (past : List (Deal α String)) {r : Reader α}
    (hr : r.received = []) (he : r.sawEnd = false) :
    Tracks c₀ (past ++ [.openStream]) (c₀.after past).openStream.2 r :=
  ⟨past, [], rfl, rfl, hr, by simp [he, readings, along]⟩

/-- What a reader has received is what has been delivered to it, nothing as long as it has no stream. -/
structure Reader.Fits (c₀ : Cell α String) (past : List (Deal α String)) (r : Reader α) : Prop where
  unread : r.stream = none → r.received = [] ∧ r.sawEnd = false
  tracks : ∀ i, r.stream = some i → Tracks c₀ past i r

/-- Two readers do not read the same stream. -/
def Reader.Apart (r r' : Reader α) : Prop := ∀ i, r.stream = some i → r'.stream ≠ some i

theorem Reader.Apart.symm (h : r.Apart r') : r'.Apart r := fun i h' k => h i k h'

theorem Reader.Fits.other (h : r.Fits c₀ past) (hd : ∀ i, r.stream = some i → d ≠ .read i) :
    r.Fits c₀ (past ++ [d]) := ⟨h.unread, fun i hi => (h.tracks i hi).other (hd i hi)⟩

/-! ### All readers -/

/-- The cell is what has been made of it, and the readers, each of whom has a stream of its own, have
received what has been delivered to them. -/
structure Well (c₀ : Cell α String) (t : Traced α) (rs : List (String × Reader α)) : Prop where
  cell : t.cell = c₀.after t.past
  fits : ∀ e ∈ rs, e.2.Fits c₀ t.past
  apart : rs.Pairwise fun e e' => e.2.Apart e'.2

variable {rs rs' : List (String × Reader α)} {label : String}

theorem Well.perm (h : Well c₀ t rs) (p : rs.Perm rs') : Well c₀ t rs' where
  cell := h.cell
  fits e he := h.fits e (p.mem_iff.mpr he)
  apart := p.pairwise h.apart fun h => h.symm

theorem Well.deal (h : Well c₀ t rs) (hd : ∀ i, d ≠ .read i) : Well c₀ (t.deal d) rs where
  cell := by
    unfold Traced.deal
    rw [after_append, ← h.cell]
    rfl
  fits e he := (h.fits e he).other fun i _ => hd i
  apart := h.apart

/-- A reader whose entry is another one, which reads the same stream if any. -/
theorem Well.replace {xs ys : List (String × Reader α)} {e e' : String × Reader α}
    (h : Well c₀ t (xs ++ e :: ys)) (hf : e'.2.Fits c₀ t.past)
    (hs : ∀ i, e'.2.stream = some i → e.2.stream = some i) : Well c₀ t (xs ++ e' :: ys) := by
  have h := h.perm List.perm_middle
  refine Well.perm ⟨h.cell, fun x hx => ?_, ?_⟩ List.perm_middle.symm
  · exact (List.mem_cons.mp hx).elim (fun k => k ▸ hf) fun k => h.fits x (List.mem_cons_of_mem _ k)
  · obtain ⟨ha, hr⟩ := List.pairwise_cons.mp h.apart
    exact List.pairwise_cons.mpr ⟨fun x hx i hi => ha x hx i (hs i hi), hr⟩

namespace Session

/-- A reader reads as long as there is something; other readers are left alone. -/
theorem drain_tracks (fuel : Nat) (hc : t.cell = c₀.after t.past) (h : Tracks c₀ t.past i r) :
    (drain fuel t i r).1.cell = c₀.after (drain fuel t i r).1.past ∧
      Tracks c₀ (drain fuel t i r).1.past i (drain fuel t i r).2 ∧
      (drain fuel t i r).2.stream = r.stream ∧
      ∀ j x, j ≠ i → Tracks c₀ t.past j x → Tracks c₀ (drain fuel t i r).1.past j x := by
  have deal : ∀ (t : Traced α) (d : Deal α String), t.cell = c₀.after t.past →
      (t.deal d).cell = c₀.after (t.deal d).past := fun t d h => by
    unfold Traced.deal
    rw [after_append, ← h]
    rfl
  induction fuel generalizing t r with
  | zero => exact ⟨hc, h, rfl, fun _ _ _ k => k⟩
  | succ fuel ih =>
    have hread : (c₀.after t.past).reading? i (.read i) = some (t.cell.read i).2 := by
      rw [← hc]
      exact if_pos rfl
    have others : ∀ j x, j ≠ i → Tracks c₀ t.past j x → Tracks c₀ (t.deal (.read i)).past j x :=
      fun j x hj k => k.other fun e => hj (by injection e with e; exact e.symm)
    rw [drain]
    cases hx : (t.cell.read i).2 with
    | item a =>
      dsimp only
      have hr : Tracks c₀ (t.deal (.read i)).past i
          { r with received := r.received ++ [a], limit := r.limit.map (· - 1) } := by
        refine h.deal _ ?_ ?_ <;> rw [hread, hx] <;> simp [Reading.item?]
      split
      · refine ⟨deal _ _ (deal _ _ hc), ?_, rfl, fun j x hj k => (others j x hj k).other (by simp)⟩
        obtain ⟨before, ds, hp, hi, hd, hs⟩ := hr.other (d := .cancel i) (by simp)
        exact ⟨before, ds, hp, hi, hd, hs⟩
      · obtain ⟨hc', ht, hs, ho⟩ := ih (deal _ _ hc) hr
        exact ⟨hc', ht, hs, fun j x hj k => ho j x hj (others j x hj k)⟩
    | ended =>
      refine ⟨deal _ _ hc, h.deal _ ?_ ?_, rfl, others⟩ <;> rw [hread, hx] <;> simp [Reading.item?]
    | waiting =>
      refine ⟨deal _ _ hc, h.deal _ ?_ ?_, rfl, others⟩ <;> rw [hread, hx] <;> simp [Reading.item?]

theorem drain_well (fuel : Nat) (hc : t.cell = c₀.after t.past) (h : Tracks c₀ t.past i r)
    (hr : r.stream = some i) (hf : ∀ e ∈ rs, e.2.Fits c₀ t.past ∧ e.2.stream ≠ some i)
    (apart : rs.Pairwise fun e e' => e.2.Apart e'.2) :
    Well c₀ (drain fuel t i r).1 ((label, (drain fuel t i r).2) :: rs) := by
  obtain ⟨hc', ht, hs, ho⟩ := drain_tracks fuel hc h
  have hs : (drain fuel t i r).2.stream = some i := hs.trans hr
  refine ⟨hc', fun e he => ?_, List.pairwise_cons.mpr ⟨fun e he j hj => ?_, apart⟩⟩
  · rcases List.mem_cons.mp he with rfl | he
    · exact ⟨fun k => (by rw [hs] at k; cases k), fun j hj => Option.some.inj (hs.symm.trans hj) ▸ ht⟩
    · obtain ⟨hf, hn⟩ := hf e he
      exact ⟨hf.unread, fun j hj => ho j _ (fun k => hn (k ▸ hj)) (hf.tracks j hj)⟩
  · rw [← Option.some.inj (hs.symm.trans hj)]
    exact (hf e he).2

/-- A reader takes its turn; it opens its stream first if it has none yet. -/
theorem turn_well (h : Well c₀ t ((label, r) :: rs)) :
    Well c₀ (turn t r).1 ((label, (turn t r).2) :: rs) := by
  obtain ⟨ha, apart⟩ := List.pairwise_cons.mp h.apart
  have hf := h.fits _ List.mem_cons_self
  have hfs : ∀ e ∈ rs, e.2.Fits c₀ t.past := fun e he => h.fits e (List.mem_cons_of_mem _ he)
  unfold turn
  split
  · exact h
  · cases hr : r.stream with
    | some i =>
      dsimp only
      have hn : { r with stream := some i } = r := by rw [← hr]
      rw [hn]
      exact drain_well _ h.cell (hf.tracks i hr) hr (fun e he => ⟨hfs e he, ha e he i hr⟩) apart
    | none =>
      dsimp only
      obtain ⟨hd, he⟩ := hf.unread hr
      have hw := h.deal (d := .openStream) (by simp)
      have ht : Tracks c₀ (t.deal .openStream).past t.cell.openStream.2
          { r with stream := some t.cell.openStream.2 } := by
        rw [h.cell]
        exact Tracks.open c₀ t.past hd he
      refine drain_well _ hw.cell ht rfl (fun e k => ⟨hw.fits e (List.mem_cons_of_mem _ k), fun hi => ?_⟩) apart
      have hlt := ((hfs e k).tracks _ hi).lt
      rw [← h.cell] at hlt
      exact absurd hlt (Nat.lt_irrefl _)

theorem settle_well {s : Session α} (h : Well c₀ s.toTraced s.readers) :
    Well c₀ s.settle.toTraced s.settle.readers := by
  have all : ∀ (rest : List (String × Reader α)) (t : Traced α) (done : List (String × Reader α)),
      Well c₀ t (done ++ rest) →
        let turned := rest.foldl (fun p e => ((turn p.1 e.2).1, p.2 ++ [(e.1, (turn p.1 e.2).2)])) (t, done)
        Well c₀ turned.1 turned.2 := by
    intro rest
    induction rest with
    | nil =>
      intro t done h
      rwa [List.append_nil] at h
    | cons e rest ih =>
      intro t done h
      obtain ⟨label, r⟩ := e
      refine ih _ _ ?_
      rw [List.append_assoc]
      exact (turn_well (h.perm List.perm_middle)).perm List.perm_middle.symm
  exact all s.readers s.toTraced [] h

theorem cancel_well {s s' : Session α} (h : Well c₀ s.toTraced s.readers)
    (hs : s.cancel label = .ok s') : Well c₀ s'.toTraced s'.readers := by
  unfold Session.cancel at hs
  cases hg : Value.Members.get? s.readers label with
  | none =>
    rw [hg] at hs
    cases hs
  | some r =>
    rw [hg] at hs
    cases hs
    obtain ⟨xs, ys, hrs, hset⟩ := Value.Members.set_of_get? hg
    have ended : ∀ {t : Traced α}, Well c₀ t s.readers →
        Well c₀ t (Value.Members.set s.readers label { r with isDone := true }) := by
      intro t hw
      rw [hrs] at hw
      rw [hset]
      have hf := hw.fits (label, r) (by simp)
      exact hw.replace ⟨hf.unread, hf.tracks⟩ fun _ => id
    refine ended ?_
    dsimp only
    split
    · split
      · exact h
      · exact h.deal (by simp)
    · exact h

/-- A new reader has received nothing, and has no stream yet. -/
theorem stream_well (h : Well c₀ t rs) (label : String) (limit : Option Nat) :
    Well c₀ t (Value.Members.set rs label { limit }) := by
  have fresh : ({ limit } : Reader α).Fits c₀ t.past := ⟨fun _ => ⟨rfl, rfl⟩, fun i hi => by cases hi⟩
  cases hg : Value.Members.get? rs label with
  | none =>
    rw [Value.Members.set_of_none hg]
    refine Well.perm ⟨h.cell, fun e he => ?_, List.pairwise_cons.mpr ⟨fun e he i hi => ?_, h.apart⟩⟩
      (List.perm_append_singleton (label, { limit }) rs).symm
    · exact (List.mem_cons.mp he).elim (fun k => k ▸ fresh) (h.fits e)
    · cases hi
  | some r =>
    obtain ⟨xs, ys, hrs, hset⟩ := Value.Members.set_of_get? hg
    rw [hset]
    rw [hrs] at h
    exact h.replace fresh fun i hi => by cases hi

/-! ### Steps -/

/-- What holds before something is done in a session holds afterwards, whether it fails or not. -/
def Keeps (P : Session α → Prop) (x : Run α β) : Prop := ∀ s, P s → P (x.run.run s).2

namespace Keeps

variable {γ : Type} {P : Session α → Prop}

theorem pure (b : β) : Keeps P (pure b : Run α β) := fun _ h => h

theorem throw (f : Failure) : Keeps P (throw f : Run α β) := fun _ h => h

theorem set {s : Session α} (h : P s) : Keeps P (set s : Run α Unit) := fun _ _ => h

theorem modify {f : Session α → Session α} (h : ∀ s, P s → P (f s)) :
    Keeps P (modify f : Run α Unit) := h

theorem bind {x : Run α β} {f : β → Run α γ} (hx : Keeps P x) (hf : ∀ b, Keeps P (f b)) :
    Keeps P (x >>= f) := by
  intro s h
  have hs := hx s h
  change P ((ExceptT.bindCont f (x.run.run s).1).run (x.run.run s).2).2
  cases hr : (x.run.run s).1 with
  | ok b => exact hf b _ hs
  | error e => exact hs

/-- What comes after looking at the session may rely on what holds of it. -/
theorem get {f : Session α → Run α β} (h : ∀ s, P s → Keeps P (f s)) :
    Keeps P ((get : Run α (Session α)) >>= f) := fun s hs => h s hs s hs

/-- What comes after something that may fail may rely on its result. -/
theorem lift {x : Except Failure β} {f : β → Run α γ} (h : ∀ b, x = .ok b → Keeps P (f b)) :
    Keeps P ((liftM x : Run α β) >>= f) := by
  cases x with
  | ok b => exact h b rfl
  | error e => exact fun _ h => h

theorem forM {l : List β} {f : β → Run α Unit} (h : ∀ b, Keeps P (f b)) : Keeps P (l.forM f) := by
  induction l with
  | nil => exact pure ()
  | cons b l ih => exact bind (h b) fun _ => ih

end Keeps

/-- What is left of a plan is no matter of the cell or of its readers. -/
theorem takePlan_eq {s s' : Session α} {step : Step α} (h : s.takePlan label = some (step, s')) :
    s'.toTraced = s.toTraced ∧ s'.readers = s.readers := by
  unfold takePlan at h
  split at h
  · cases h
    exact ⟨rfl, rfl⟩
  · cases h

/-- A step keeps all readers well, with all the steps of subscribers that it brings about. -/
theorem perform_well (fuel : Nat) (step : Step α) :
    Keeps (fun s => Well c₀ s.toTraced s.readers) (perform fuel step) := by
  induction fuel generalizing step with
  | zero => exact .throw _
  | succ fuel ih =>
    rw [perform]
    refine .get fun s h => ?_
    cases step with
    | subscribe label handle plan => exact .set (h.deal (by simp))
    | unsubscribe handle =>
      dsimp only
      split
      · exact .set (h.deal (by simp))
      · exact .throw _
    | next value =>
      refine .bind (.set (h.deal (by simp))) fun _ => .forM fun label => ?_
      refine .bind (.modify fun _ h => h) fun _ => .get fun s h => ?_
      split
      · rename_i step s' hp
        obtain ⟨ht, hr⟩ := takePlan_eq hp
        exact .bind (.set (by rw [ht, hr]; exact h)) fun _ => ih step
      · exact .pure ()
    | reset value => exact .set (h.deal (by simp))
    | complete => exact .set (h.deal (by simp))
    | stream label limit => exact .set (stream_well h label limit)
    | cancel label =>
      exact .lift fun s' hc => .set (cancel_well h hc)
    | settle => exact .set (settle_well h)

/-- A session with a new cell. -/
def fresh (value : α) : Session α := { cell := { value } }

/-- A session once several steps have been taken. -/
def takes (s : Session α) (steps : List (Step α)) : Session α := steps.foldl (fun s t => (s.step t).2) s

theorem takes_well (value : α) (steps : List (Step α)) :
    Well { value } ((fresh value).takes steps).toTraced ((fresh value).takes steps).readers := by
  have step : ∀ (steps : List (Step α)) (s : Session α), Well { value } s.toTraced s.readers →
      Well { value } (s.takes steps).toTraced (s.takes steps).readers := by
    intro steps
    induction steps with
    | nil => exact fun _ h => h
    | cons t steps ih => exact fun s h => ih _ (perform_well _ t { s with calls := [] } h)
  exact step steps _ ⟨rfl, fun e he => absurd he List.not_mem_nil, .nil⟩

end Session

/-- Streams lose nothing and deliver nothing twice. Whatever is done with a cell in whatever order, a
stream that is opened while it is open delivers the value that the cell has then and every one that it
takes afterwards, in order, each once and however late it is read; it ends once the cell is closed and
all that has been delivered; opened later it is empty; and replacing the value, or giving up another
stream, changes nothing for it. In every session, in which subscribers take steps of their own while
they are told of a value, the cell has come from what has been done with it one after another, and
every reader has received what its stream has delivered since it was opened. -/
theorem streams_lose_nothing : (∀ {ι : Type} [BEq ι] (c : Cell α ι), c.Faithful) ∧
    ∀ (value : α) (steps : List (Step α)), let s := (Session.fresh value).takes steps
      s.cell = after { value } s.past ∧
        ∀ e ∈ s.readers, ∀ i, e.2.stream = some i → Tracks { value } s.past i e.2 := by
  refine ⟨fun c => c.faithful, fun value steps => ?_⟩
  have h := Session.takes_well value steps
  exact ⟨h.cell, fun e he => (h.fits e he).tracks⟩

/-- A subscriber that answers the first value with another one. -/
example : ((Session.fresh 0).takes [.stream "r" none, .settle, .subscribe "s" "s" [.next 2], .next 1,
    .complete, .settle]).readers.map (fun e => (e.2.received, e.2.sawEnd)) = [([0, 1, 2], true)] := rfl

end Cell

end LiveSvg
