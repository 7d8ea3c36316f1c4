import LiveSvg.Proofs.Pass
import LiveSvg.Proofs.Taking
/-!
One pass for each value that is accepted. As long as no script gives values or changes which elements
carry the tags, all that runs when values are set one after another is one whole pass for each of them
that is taken by its cell and is news to the scripts.
-/

namespace LiveSvg

open Script (Act Datum Members)

variable {play : Player} {p : Pass} {past : List Event} {ls : List Launch} {k level : Nat}

/-! ### What scripts are started -/

namespace Past

/-- How many scripts are under way after some events, which are given the latest first. -/
def depth : List Event → Nat
  | [] => 0
  | e :: past =>
    match e.deed with
    | .start _ => depth past + 1
    | .finish _ _ => depth past - 1
    | _ => depth past

/-- The scripts started while no other one was under way, in order. -/
def outermost : List Event → List Launch
  | [] => []
  | e :: past =>
    match e.deed with
    | .start l => if depth past = 0 then outermost past ++ [l] else outermost past
    | _ => outermost past

/-- The render scripts started, in order. -/
def rendered : List Event → List Launch
  | [] => []
  | e :: past =>
    match e.deed with
    | .start l => if l.isRender then rendered past ++ [l] else rendered past
    | _ => rendered past

end Past

/-- Whether an event is neither a value given by a script nor a change of which elements carry the
tags. -/
def Event.isQuiet (e : Event) : Prop := (∀ id value, e.deed ≠ .propose id value) ∧ e.keepsTags

theorem Event.isQuiet_of_isTame {e : Event} (h : e.deed.isTame) : e.isQuiet := by
  refine ⟨fun id value hd => ?_, e.keepsTags_of_isTame h⟩
  rw [hd] at h
  cases h

/-- What has been started since a past, how many scripts are under way, and how many passes there have
been; the next pass can be completed. -/
structure Counted (p : Pass) (past : List Event) (ls : List Launch) (k level : Nat) (w : World) :
    Prop where
  stands : p.Stands w.toSituation
  renders : w.visual.renders = k
  trace : ∃ new, w.past = new ++ past ∧ Past.depth new = level ∧ Past.outermost new = ls ∧
    Past.rendered new = ls

namespace Counted

variable {a b : World}

theorem silent (h : Counted p past ls k level a) (hp : b.past = a.past)
    (hr : b.visual.renders = a.visual.renders) (hs : p.Stands b.toSituation) :
    Counted p past ls k level b where
  stands := hs
  renders := hr.trans h.renders
  trace := by rw [hp]; exact h.trace

/-- What is neither the start nor the end of a script does not count. -/
theorem event (h : Counted p past ls k level a) {e : Event} (hp : b.past = e :: a.past)
    (hd : ∀ l, e.deed ≠ .start l) (hf : ∀ l r, e.deed ≠ .finish l r)
    (hr : b.visual.renders = a.visual.renders) (hs : p.Stands b.toSituation) :
    Counted p past ls k level b where
  stands := hs
  renders := hr.trans h.renders
  trace := by
    obtain ⟨new, hn, h1, h2, h3⟩ := h.trace
    refine ⟨e :: new, by rw [hp, hn, List.cons_append], ?_⟩
    obtain ⟨deed, s⟩ := e
    cases deed with
    | start l => exact absurd rfl (hd l)
    | finish l r => exact absurd rfl (hf l r)
    | _ => exact ⟨h1, h2, h3⟩

/-- A script that renders, started by no other one. -/
theorem startOuter (h : Counted p past ls k 0 a) {l : Launch} (hl : l.isRender) :
    Counted p past (ls ++ [l]) k 1 ((Run.record (.start l)).after a) where
  stands := h.stands
  renders := h.renders
  trace := by
    obtain ⟨new, hn, h1, h2, h3⟩ := h.trace
    refine ⟨⟨.start l, a.toSituation⟩ :: new, congrArg (_ :: ·) hn, ?_⟩
    simp [Past.depth, Past.outermost, Past.rendered, h1, h2, h3, hl]

/-- A script that does not render, started by another one. -/
theorem startInner (h : Counted p past ls k (level + 1) a) {l : Launch} (hl : l.isRender = false) :
    Counted p past ls k (level + 2) ((Run.record (.start l)).after a) where
  stands := h.stands
  renders := h.renders
  trace := by
    obtain ⟨new, hn, h1, h2, h3⟩ := h.trace
    refine ⟨⟨.start l, a.toSituation⟩ :: new, congrArg (_ :: ·) hn, ?_⟩
    simp [Past.depth, Past.outermost, Past.rendered, h1, h2, h3, hl]

theorem finish (h : Counted p past ls k (level + 1) a) (l : Launch) (result : Except Failure Datum) :
    Counted p past ls k level ((Run.record (.finish l result)).after a) where
  stands := h.stands
  renders := h.renders
  trace := by
    obtain ⟨new, hn, h1, h2, h3⟩ := h.trace
    refine ⟨⟨.finish l result, a.toSituation⟩ :: new, congrArg (_ :: ·) hn, ?_⟩
    simp [Past.depth, Past.outermost, Past.rendered, h1, h2, h3]

end Counted

/-- Nothing that scripts under way do counts: they start no render scripts. -/
def Within (p : Pass) (past : List Event) (a b : World) : Prop :=
  ∀ ls k level, Under Event.isQuiet (Counted p past ls k (level + 1)) a b

namespace Within

theorem course (p : Pass) (past : List Event) : Course (Within p past) where
  refl w _ _ _ := (Under.course _ _).refl w
  trans h k _ _ _ := (Under.course _ _).trans (h _ _ _) (k _ _ _)

theorem calm (p : Pass) (past : List Event) : Calm (Within p past) where
  toCourse := course p past
  stir {a b} h := by
    intro ls k level
    rcases h.past with ⟨hp, hd⟩ | ⟨deed, hp, ⟨hk, hd⟩ | ⟨d, rfl, hd⟩⟩
    · exact .silent hp fun i => i.silent hp h.alike.renders (i.stands.alike h.alike hd)
    · refine .event hp fun _ i => i.event hp ?_ ?_ h.alike.renders (i.stands.alike h.alike hd)
      · rintro l rfl
        cases hk
      · rintro l r rfl
        cases hk
    · refine .event hp fun q i => i.event hp (fun _ => Deed.noConfusion) (fun _ _ => Deed.noConfusion)
        h.alike.renders (i.stands.redraw h.alike hd q.2)

theorem steady (p : Pass) (past : List Event) : Steady (Within p past) where
  toCalm := calm p past
  store r c w _ _ _ := by
    have hp := Run.store_past r c w
    refine .event hp fun _ i => i.event hp (fun _ => Deed.noConfusion) (fun _ _ => Deed.noConfusion) ?_ ?_
    · rw [Run.store_visual]
    · exact i.stands.alike (by rw [Run.store_visual]; exact .rfl) (Run.store_drawing r c w)
  script {play} hp {l} hl act w ls k level := by
    have hs : Leads Event.isQuiet (Counted p past ls k (level + 1)) (Run.script play l act)
        fun _ => Counted p past ls k (level + 1) := by
      refine .bind (J := fun _ => Counted p past ls k (level + 2)) (.record fun w _ i => i.startInner hl)
        fun _ => .bind (.attempt fun w => hp act w _ _ _) fun r => ?_
      exact .bind (.record fun w _ i => i.finish l r) fun _ => .pure fun w i => i
    exact hs.under w
  propose {play} hp id value w ls k level := by
    have hl : Along Later (Run.setValue play id value) :=
      later_driven.value (fun act w => (hp act w ls k level).later) id value
    obtain ⟨new, hn⟩ := hl ((Run.record (.propose id value)).after w)
    refine ⟨new ++ [⟨.propose id value, w.toSituation⟩], ?_, fun q => ?_⟩
    · rw [List.append_assoc]
      exact hn
    · exact absurd rfl ((q ⟨.propose id value, w.toSituation⟩ (by simp)).1 id value)

end Within

/-- A pass starts its scripts, in order and each once, whichever of them fail. -/
theorem Counted.pass (p : Pass) (past : List Event) (ls : List Launch) (k : Nat) :
    Leads Event.isQuiet (Counted p past ls k 0) (Run.render Run.play)
      fun _ => Counted p past (ls ++ p.launches) (k + 1) 0 := by
  have S := Within.steady p past
  refine Pass.leads (J := fun done => Counted p past (ls ++ done) (k + 1) 0)
    later_driven.steady.plays (fun _ _ i => i.stands) ?_ (fun _ i => i.stands) fun w i => ?_
  · intro l hl done prog target label
    have hr : l.isRender := p.isRender hl
    refine .bind (J := fun _ => Counted p past (ls ++ (done ++ [l])) (k + 1) 0) ?_ fun result => ?_
    · refine .bind (J := fun _ => Counted p past (ls ++ (done ++ [l])) (k + 1) 1) (.record fun w _ i => ?_)
        fun _ => .bind (.attempt fun w => S.plays _ w _ _ _) fun r => ?_
      · rw [← List.append_assoc]
        exact i.startOuter hr
      · exact .bind (.record fun w _ i => i.finish l r) fun _ => .pure fun w i => i
    · cases result with
      | ok d => exact .pure fun w i => i
      | error f => exact .modify (fun _ => rfl) fun w i => i.silent rfl rfl (i.stands.alike .rfl rfl)
  · rw [List.append_nil]
    obtain ⟨hs, hr, ht⟩ := i
    exact ⟨{ hs with }, by rw [← hr], ht⟩

/-! ### Values that are set -/

namespace World

/-- A value from outside, made for a world together with the name under which it is offered. -/
def offer (w : World) (id value : Value) : Datum × World :=
  let (d, memory) := (w.memory.load id).2.load value
  (d, { w with memory })

/-- Whether a value offered under a name is taken: the name is that of a value id, and the value
differs from the one that was given last under it. -/
def takes (w : World) (id : Value) (value : Datum) : Bool :=
  match w.visual.descriptor.valueIdOf? id, lastGiven w.past id with
  | some _, some last => w.differ last value
  | _, _ => false

/-- Whether a value is news to the scripts: it differs from what they see under a value id, if they see
anything. -/
def isNews (w : World) (id : Value) (value : Datum) : Bool :=
  match Members.get? w.values (.ofName id) with
  | some seen => w.differ seen value
  | none => true

/-- Whether a value offered under a name is accepted: it is taken, and is news to the scripts. -/
def accepts (w : World) (id : Value) (value : Datum) : Bool :=
  match w.visual.descriptor.valueIdOf? id with
  | some k => w.takes id value && w.isNews k value
  | none => false

theorem takes_named (w : World) {id : Value} {value : Datum} (h : w.takes id value = true) :
    ∃ k, w.visual.descriptor.valueIdOf? id = some k := by
  unfold takes at h
  cases hk : w.visual.descriptor.valueIdOf? id with
  | none => simp [hk] at h
  | some k => exact ⟨k, rfl⟩

theorem accepts_untaken {w : World} {id : Value} {value : Datum} (h : w.takes id value = false) :
    w.accepts id value = false := by
  unfold accepts
  split
  · rw [h]
    rfl
  · rfl

theorem accepts_taken {w : World} {id k : Value} {value : Datum}
    (hk : w.visual.descriptor.valueIdOf? id = some k) (h : w.takes id value = true) :
    w.accepts id value = w.isNews k value := by
  unfold accepts
  rw [hk, h]
  exact Bool.true_and _

/-- A list or an object is the name of no value id. -/
theorem Recalls.takes_unnamed {w : World} (h : w.Recalls w.visual.descriptor.valueIds) {id : Value}
    (hi : Descriptor.isName id = false) (value : Datum) : w.takes id value = false := by
  cases ht : w.takes id value with
  | false => rfl
  | true =>
    obtain ⟨k, hk⟩ := w.takes_named ht
    exact absurd (h.find_plain hk).2.2 (by simp [hi])

/-- The world after some values have been set, one after another. -/
def sets (w : World) : List (Value × Value) → World
  | [] => w
  | (id, value) :: calls => ((Step.set id value).after w).sets calls

/-- How many of some values are accepted when they are set one after another. -/
def accepted (w : World) : List (Value × Value) → Nat
  | [] => 0
  | (id, value) :: calls =>
    ((w.offer id value).2.accepts id (w.offer id value).1).toNat +
      ((Step.set id value).after w).accepted calls

end World

namespace Run

open World (accepts_untaken accepts_taken)

variable {w : World} {id : Value}

theorem load_plain (h : Descriptor.isName id) (m : Script.Memory) : m.load id = (.ofName id, m) := by
  cases id <;> first | rfl | cases h

theorem isKey_load (h : Descriptor.isName id = false) (m : Script.Memory) : (m.load id).1.isKey = false := by
  cases id <;> first | rfl | cases h

theorem plain?_ofName (h : Descriptor.isName id) : (Datum.ofName id).isKey = true ∧ (Datum.ofName id).plain? = some id := by
  cases id <;> first | exact ⟨rfl, rfl⟩ | cases h

theorem keyDatum_plain (h : Descriptor.isName id) : keyDatum id = .ok (.ofName id) := by
  cases id <;> first | rfl | cases h

theorem changed?_eq (h : Descriptor.isName id) (w : World) (value : Datum) :
    w.changed? id value = if w.isNews id value then some (.ofName id) else none := by
  unfold Situation.changed? World.isNews
  rw [keyDatum_plain h]
  dsimp only
  cases Members.get? w.values (.ofName id) with
  | none => rfl
  | some old => rfl

theorem taker?_eq (h : w.Recalls w.visual.descriptor.valueIds) (live : w.isLive) (hi : Descriptor.isName id)
    (value : Datum) : w.taker? (.ofName id) value =
      if w.takes id value then (w.visual.cells.get? id).map (id, ·) else none := by
  obtain ⟨hk, hp⟩ := plain?_ofName hi
  unfold Situation.taker? World.takes
  rw [show w.visual.isDestroyed = false from live, hk, hp]
  cases hv : w.visual.descriptor.valueIdOf? id with
  | none => simp [h.none hv]
  | some k =>
    obtain ⟨cell, hc, ho, -, hl⟩ := h.held hv
    simp [hc, ho, hl]

/-- Setting a value makes a pass if the value is accepted, and none otherwise; what comes before the
pass starts no scripts. -/
theorem setValue_passes (id : Value) (h : w.Recalls w.visual.descriptor.valueIds) (live : w.isLive)
    (m : Script.Memory) (value : Datum) (play : Player) :
    ∃ w', Later w w' ∧ (∀ {p past ls k}, Counted p past ls k 0 w → Counted p past ls k 0 w') ∧
      (setValue play (m.load id).1 value).after w =
        if w.accepts id value then (render play).after w' else w' := by
  rw [setValue_after]
  cases hi : Descriptor.isName id with
  | false =>
    have ht : w.taker? (m.load id).1 value = none := by
      unfold Situation.taker?
      simp [isKey_load hi]
    rw [ht, accepts_untaken (h.takes_unnamed hi value)]
    exact ⟨w, Later.course.refl w, fun i => i, rfl⟩
  | true =>
    rw [load_plain hi]
    cases ht : w.takes id value with
    | false =>
      have hk : w.taker? (.ofName id) value = none := by
        rw [taker?_eq h live hi, ht]
        rfl
      rw [hk, accepts_untaken ht]
      exact ⟨w, Later.course.refl w, fun i => i, rfl⟩
    | true =>
      obtain ⟨k, hk⟩ := w.takes_named ht
      obtain ⟨cell, hc, ho, hs, -⟩ := h.held hk
      have htake : w.taker? (.ofName id) value = some (id, cell) := by
        rw [taker?_eq h live hi, ht, hc]
        rfl
      have hn : (cell.next value).2 = [k] := by simp [Cell.next, ho, hs]
      have hp : (pushValue play id cell value).after w =
          (takeValue play k value).after (w.given id cell value) := by
        rw [pushValue_after, hn]
        change (takeValue play k value >>= fun _ => pure ()).after _ = _
        rw [bind_pure_unit]
      have hgiven : ∀ {p past ls n}, Counted p past ls n 0 w →
          Counted p past ls n 0 (w.given id cell value) := fun i =>
        i.event rfl (fun _ => Deed.noConfusion) (fun _ _ => Deed.noConfusion) rfl { i.stands with }
      have hch := changed?_eq (h.find_plain hk).2.1 (w.given id cell value) value
      rw [show (w.given id cell value).isNews k value = w.isNews k value from rfl,
        ← accepts_taken hk ht] at hch
      rw [htake]
      dsimp only
      rw [hp, takeValue_after, hch]
      cases w.accepts id value with
      | false => exact ⟨w.given id cell value, ⟨[_], rfl⟩, hgiven, rfl⟩
      | true =>
        refine ⟨(w.given id cell value).changed k (.ofName k) value, ⟨[_, _], rfl⟩, fun i => ?_, rfl⟩
        exact (hgiven i).event rfl (fun _ => Deed.noConfusion) (fun _ _ => Deed.noConfusion) rfl
          { (hgiven i).stands with }

end Run

namespace World

variable {w : World}

theorem offer_counted (id value : Value) (h : Counted p past ls k 0 w) :
    Counted p past ls k 0 (w.offer id value).2 :=
  h.silent rfl rfl { h.stands with }

/-- What setting a value from outside comes to. -/
theorem set_counted (h : w.Recalls w.visual.descriptor.valueIds) (live : w.isLive) (id value : Value)
    {n : Nat} (hn : n = ((w.offer id value).2.accepts id (w.offer id value).1).toNat)
    (p : Pass) (past : List Event) (ls : List Launch) (k : Nat) :
    ∃ new, ((Step.set id value).after w).past = new ++ w.past ∧ ((∀ e ∈ new, e.isQuiet) →
      Counted p past ls k 0 w → Counted p past (ls ++ (List.replicate n p.launches).flatten) (k + n) 0
        ((Step.set id value).after w)) := by
  change ∃ new, ((Run.setValue Run.play (w.memory.load id).1 (w.offer id value).1).after
    (w.offer id value).2).past = new ++ (w.offer id value).2.past ∧ ((∀ e ∈ new, e.isQuiet) → _ →
      Counted _ _ _ _ _ ((Run.setValue Run.play (w.memory.load id).1 (w.offer id value).1).after
        (w.offer id value).2))
  have ho : (w.offer id value).2.Recalls (w.offer id value).2.visual.descriptor.valueIds :=
    h.congr rfl fun _ => rfl
  obtain ⟨w', ⟨more, hm⟩, hc, he⟩ := Run.setValue_passes id ho live w.memory
    (w.offer id value).1 Run.play
  rw [he]
  cases ha : (w.offer id value).2.accepts id (w.offer id value).1 with
  | false =>
    obtain rfl : n = 0 := by rw [hn, ha]; rfl
    refine ⟨more, hm, fun _ i => ?_⟩
    simpa using hc (offer_counted id value i)
  | true =>
    obtain rfl : n = 1 := by rw [hn, ha]; rfl
    obtain ⟨new, hr, hk⟩ := (Counted.pass p past ls k).under w'
    refine ⟨new ++ more, ?_, fun q i => ?_⟩
    · rw [if_pos rfl, hr, hm, List.append_assoc]
    · have hp := hk (fun e he => q e (by simp [he])) (hc (offer_counted id value i))
      simpa using hp

/-- Values that are set one after another make one pass for each that is accepted. -/
theorem sets_counted (calls : List (Value × Value)) (h : w.Recalls w.visual.descriptor.valueIds)
    (live : w.isLive) (p : Pass) (past : List Event) (ls : List Launch) (k : Nat) :
    ∃ new, (w.sets calls).past = new ++ w.past ∧ ((∀ e ∈ new, e.isQuiet) → Counted p past ls k 0 w →
      Counted p past (ls ++ (List.replicate (w.accepted calls) p.launches).flatten)
        (k + w.accepted calls) 0 (w.sets calls)) := by
  induction calls generalizing w ls k with
  | nil => exact ⟨[], rfl, fun _ i => by simpa [sets, accepted] using i⟩
  | cons call calls ih =>
    obtain ⟨id, value⟩ := call
    obtain ⟨n, hn⟩ : ∃ n, n = ((w.offer id value).2.accepts id (w.offer id value).1).toNat := ⟨_, rfl⟩
    obtain ⟨new, hp, hc⟩ := set_counted h live id value hn p past ls k
    have hstep : Step.set id value ≠ .destroy := Step.noConfusion
    have hd := descriptor_driven.step hstep (fun k => Step.noConfusion k) w
    have hl := live_driven.step hstep (fun k => Step.noConfusion k) w
    have hr := (Recalls.driven w.visual.descriptor.valueIds).step hstep (fun k => Step.noConfusion k) w h
    have hw : ((Step.set id value).after w).Recalls
        ((Step.set id value).after w).visual.descriptor.valueIds := by
      rw [show ((Step.set id value).after w).visual.descriptor = w.visual.descriptor from hd]
      exact hr
    obtain ⟨more, hm, hk⟩ := ih hw (hl.trans live) (ls ++ (List.replicate n p.launches).flatten) (k + n)
    refine ⟨more ++ new, ?_, fun q i => ?_⟩
    · change (((Step.set id value).after w).sets calls).past = _
      rw [hm, hp, List.append_assoc]
    · have i := hk (fun e he => q e (by simp [he])) (hc (fun e he => q e (by simp [he])) i)
      rw [List.append_assoc, ← List.flatten_append, List.replicate_append_replicate, Nat.add_assoc, hn] at i
      exact i

end World

/-- Where scripts see the values of the cells, every value that is taken is accepted. -/
theorem accepts_eq_takes {w : World} (h : w.Recalls w.visual.descriptor.valueIds) (ha : w.Agrees)
    (texts : AllTexts w.visual.descriptor.valueIds) (id : Value) (value : Datum) :
    w.accepts id value = w.takes id value := by
  cases ht : w.takes id value with
  | false => exact World.accepts_untaken ht
  | true =>
    obtain ⟨k, hk⟩ := w.takes_named ht
    rw [World.accepts_taken hk ht]
    have hm : k ∈ w.visual.descriptor.valueIds := List.mem_of_find?_eq_some hk
    obtain ⟨t, rfl⟩ := texts k hm
    obtain rfl : id = .text t := Descriptor.sameName_text (h.find_plain hk).1
    obtain ⟨cell, hc, hv, -⟩ := ha.held _ hm
    obtain ⟨cell', hc', -, -, hl⟩ := h.held hk
    obtain rfl : cell = cell' := Option.some.inj (hc.symm.trans hc')
    unfold World.takes at ht
    unfold World.isNews
    rw [hk, hl] at ht
    rw [hv]
    exact ht

/-- In every live world that follows a visual put in place, values that are set one after another start
nothing but one whole pass for each that is accepted, whichever scripts fail, and as many passes are
counted. A pass is the script of the whole, and then for each tag in turn its script on the elements
that carry it, in document order. Scripts started by a script are apart; those that render are not
among them. -/
theorem one_pass_per_accepted {w₁ w : World} (h₁ : w₁.Placed) (h : w₁.Follows w) (live : w.isLive)
    (calls : List (Value × Value)) (quiet : ∀ e ∈ (w.sets calls).since w, e.isQuiet) :
    Past.outermost ((w.sets calls).since w) = (List.replicate (w.accepted calls) w.pass).flatten ∧
      Past.rendered ((w.sets calls).since w) = (List.replicate (w.accepted calls) w.pass).flatten ∧
      (w.sets calls).visual.renders = w.visual.renders + w.accepted calls ∧
      ∃ d, w.drawing = some d ∧ w.pass = .root :: w.visual.descriptor.tags.flatMap (fun t =>
        (d.carriers t.name).map (.tag t.name)) ∧
          ∀ t ∈ w.visual.descriptor.tags, (d.carriers t.name).Sublist (d.below.map (·.id)) := by
  obtain ⟨p, hs⟩ := h.standing h₁ live
  obtain ⟨new, hn, hc⟩ := World.sets_counted calls (h.recalls h₁ live) live p w.past [] w.visual.renders
  rw [World.since_eq hn] at quiet ⊢
  obtain ⟨-, hr, new', hn', -, ho, hd⟩ := hc quiet ⟨hs, rfl, [], rfl, rfl, rfl, rfl⟩
  obtain rfl : new = new' := List.append_cancel_right (hn.symm.trans hn')
  refine ⟨?_, ?_, hr, ?_⟩
  · rw [ho, hs.pass_eq]
    exact List.nil_append _
  · rw [hd, hs.pass_eq]
    exact List.nil_append _
  · obtain ⟨d, hdraw, -⟩ := hs.drawing
    refine ⟨d, hdraw, ?_, fun t _ => d.carriers_sublist t.name⟩
    unfold Situation.pass
    rw [hdraw]

set_option maxRecDepth 100000 in
/-- It is so when the value of the lamp is set. -/
theorem one_pass_per_accepted_lamp : ∃ w₁ w : World, w₁.Placed ∧ w₁.Follows w ∧ w.isLive ∧
    Past.rendered ((w.sets [(.text "v", .int 7)]).since w) = w.pass := by
  obtain ⟨w₁, w, hp, hf, ht⟩ := World.Setup.leads_ok lampSetup [] (fun w₁ w =>
    !w.visual.isDestroyed && w.accepted [(.text "v", .int 7)] == 1 &&
      ((w.sets [(.text "v", .int 7)]).since w).all (·.deed.isTame)) (by decide +kernel)
  simp only [Bool.and_eq_true, Bool.not_eq_true', beq_iff_eq] at ht
  obtain ⟨⟨live, one⟩, tame⟩ := ht
  have h₁ : w₁.Placed := ⟨_, .setup lampSetup, hp⟩
  obtain ⟨-, hr, -⟩ := one_pass_per_accepted h₁ hf live [(.text "v", .int 7)] fun e he =>
    Event.isQuiet_of_isTame (List.all_eq_true.mp tame e he)
  exact ⟨w₁, w, h₁, hf, live, by rw [hr, one]; simp⟩

/-- A drawing with a value and an action that assigns to it where scripts see it. -/
def dimmerSetup : World.Setup where
  path := "dimmer"
  documents := [("dimmer", "<svg xmlns:t='https://thingsboard.io/svg'><t:metadata>" ++
    "\x7b\"behavior\":[\x7b\"id\":1,\"type\":\"value\",\"valueId\":\"v\"\x7d],\"tags\":[\x7b\"tag\":\"g\"," ++
    "\"actions\":\x7b\"x\":\x7b\"actionFunction\":\"ctx.values['v'] = 5\"\x7d\x7d\x7d]\x7d" ++
    "</t:metadata><g t:tag='g'/></svg>")]

set_option maxRecDepth 100000 in
/-- A value that differs from the last one that was given may start no pass: scripts see it already. -/
theorem taken_without_pass : ∃ w₁ w : World, w₁.Placed ∧ w₁.Follows w ∧ w.isLive ∧
    (∀ e ∈ (w.sets [(.text "v", .int 5)]).since w, e.isQuiet) ∧
      w.takes (.text "v") (.int 5) = true ∧ w.pass ≠ [] ∧
        Past.rendered ((w.sets [(.text "v", .int 5)]).since w) = [] := by
  obtain ⟨w₁, w, hp, hf, ht⟩ := World.Setup.leads_ok dimmerSetup
    [.fire 1 (.text "x") .null] (fun w₁ w => !w.visual.isDestroyed &&
      w.takes (.text "v") (.int 5) && !w.pass.isEmpty &&
        (Past.rendered ((w.sets [(.text "v", .int 5)]).since w)).isEmpty &&
          ((w.sets [(.text "v", .int 5)]).since w).all (·.deed.isTame)) (by decide +kernel)
  simp only [Bool.and_eq_true, Bool.not_eq_true', List.isEmpty_iff] at ht
  obtain ⟨⟨⟨⟨live, takes⟩, some⟩, none⟩, tame⟩ := ht
  exact ⟨w₁, w, ⟨_, .setup dimmerSetup, hp⟩, hf, live, fun e he =>
    Event.isQuiet_of_isTame (List.all_eq_true.mp tame e he), takes, by simpa using some, none⟩

end LiveSvg
