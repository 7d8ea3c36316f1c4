import LiveSvg.Proofs.Comparing
import LiveSvg.Proofs.Sources
import Mathlib.Data.Finset.Card
/-!
Values that are acquired, each with an outcome of its own. Whatever has been acquired so far, in
whatever order, is what scripts see, and each of these values that is news has been shown once.
-/

namespace LiveSvg

open Script (Datum Members Memory)
open Descriptor (isName sameName)

variable {play : Player} {a b w w₁ : World}

/-! ### Outcomes -/

/-- What a value becomes where it is taken as one of a type; none if there is nothing to take. -/
def Value.taken? (v type : Value) : Option Value :=
  match v, type with
  | .null, .list _ => none
  | .null, .object _ => none
  | v, type => some (v.normalizedAs type)

/-- What acquiring values comes to, getter by getter. -/
abbrev Outcomes := Nat → Except Failure Value

namespace Visual

/-- The first value of a behavior, as its settings say. -/
def seedOf (v : Visual) (b : Behavior) : Value :=
  match v.settings.get? b.id with
  | some (.acquisition a) => b.firstValue a.default
  | _ => .null

/-- The acquired value of a behavior, if it is there to be taken and differs from the first one. -/
def newsOf? (v : Visual) (b : Behavior) : Except Failure Value → Option Value
  | .ok x =>
    match b.kind with
    | .value type _ _ _ _ _ => (x.taken? type).filter (v.seedOf b).differ
    | _ => none
  | .error _ => none

/-- What a behavior ends with. -/
def lastOf (v : Visual) (b : Behavior) (r : Except Failure Value) : Value :=
  (v.newsOf? b r).getD (v.seedOf b)

/-- Whether the value of a getter is news. -/
def isNews (v : Visual) (o : Outcomes) (i : Nat) : Bool :=
  match v.descriptor.receivers[i]? with
  | some b => (v.newsOf? b (o i)).isSome
  | none => false

theorem isNews_eq {v : Visual} {o : Outcomes} {i : Nat} {b : Behavior}
    (h : v.descriptor.receivers[i]? = some b) : v.isNews o i = (v.newsOf? b (o i)).isSome := by
  unfold isNews
  rw [h]

end Visual

namespace Event

/-- Whether an event is that a getter has its value, or has failed to get one. -/
def acquires (e : Event) (i : Nat) : Bool :=
  match e.deed with
  | .acquire _ getter _ => getter == i
  | _ => false

/-- Whether an event neither gives a value nor changes what scripts see. -/
def leavesValues (e : Event) : Prop :=
  match e.deed with
  | .propose .. => False
  | .store r _ => r ≠ .values ∧ ∀ n, r = .cell n → ∀ m ∈ e.before.values, ¬ e.before.memory.Within n m.2
  | _ => True

/-- Whether a getter has got what its outcome says. -/
def yields (o : Outcomes) (e : Event) : Prop :=
  match e.deed with
  | .acquire _ getter (.ok d) => ∃ v, o getter = .ok v ∧ e.before.memory.Spells d v
  | .acquire _ getter (.error f) => o getter = .error f
  | _ => True

end Event

/-- The getters among some events whose values are news. -/
def Visual.shown (v : Visual) (o : Outcomes) (events : List Event) : Finset Nat :=
  (Finset.range v.descriptor.receivers.length).filter fun i => events.any (·.acquires i) ∧ v.isNews o i

/-- What is asked of a visual in place: different texts as value ids, behaviors that are found under
their ids, a getter for each of those that take values in, and outcomes that can be compared. -/
structure World.Receptive (w : World) (o : Outcomes) : Prop where
  texts : AllTexts w.visual.descriptor.valueIds
  different : w.visual.descriptor.valueIds.Nodup
  names : w.visual.descriptor.Distinct
  known : ∀ b ∈ w.visual.descriptor.receivers, b.id.same b.id = true
  sources : w.visual.getters.toList.map (·.behavior) = w.visual.descriptor.receivers.map (·.id)
  comparable : ∀ i v, o i = .ok v → v.isComparable = true

/-- Scripts see what has been acquired since a visual was put in place, and the first values of what has
not; there has been one pass for each value that was news, and one at first. -/
structure World.Gathered (w₁ : World) (o : Outcomes) (new : List Event) (w : World) : Prop where
  live : w.isLive
  drawing : w.drawing.isSome
  programs : w.visual.programs.isSome
  isReady : w.visual.isReady = true
  descriptor : w.visual.descriptor = w₁.visual.descriptor
  getters : w.visual.getters = w₁.visual.getters
  holds : w.Holds w₁.visual.descriptor.valueIds
  keys : w.values.map (·.1) = w₁.visual.descriptor.valueIds.map .ofName
  entries : ∀ i b id, w₁.visual.descriptor.receivers[i]? = some b → b.valueId? = some id →
    ∃ d, Members.get? w.values (.ofName id) = some d ∧ w.memory.Spells d
      (if new.any (·.acquires i) then w₁.visual.lastOf b (o i) else w₁.visual.seedOf b)
  renders : w.visual.renders = 1 + (w₁.visual.shown o new).card

/-- The world in which a pass has been counted and its scripts are still to run. -/
def World.counted (w : World) : World :=
  { w with visual := { w.visual with renders := w.visual.renders + 1 } }

/-! ### Taking a value -/

namespace Value

theorem emptyOf_comparable (type : String) : (emptyOf type).isComparable = true := by
  unfold emptyOf
  split <;> rfl

theorem taken?_comparable {v type x : Value} (h : v.isComparable = true) (ht : v.taken? type = some x) :
    x.isComparable = true := by
  unfold taken? at ht
  split at ht
  · cases ht
  · cases ht
  · cases ht
    unfold normalizedAs normalize
    split
    · split
      · exact emptyOf_comparable _
      · exact h
    · exact h

theorem differ_self {v : Value} (h : v.isComparable = true) : v.differ v = false := by
  rw [isComparable, Bool.and_eq_true] at h
  simp [differ, same_self h.1]

end Value

namespace Run

/-- A value that is acquired is taken as one of its type, if there is one to take. -/
theorem normalize_spelled {d : Datum} {v : Value} (hs : w.memory.Spells d v) (type : Value) :
    (v.taken? type = none ∧ ∃ f, normalize d type w = .error f w) ∨
      ∃ x d' m, v.taken? type = some x ∧ normalize d type w = .ok d' { w with memory := m } ∧
        w.memory.Grows m ∧ m.Spells d' x := by
  have hok : ∀ d' w', normalize d type w = .ok d' w' → ∃ m, w' = { w with memory := m } ∧
      w.memory.Grows m ∧ m.Spells d' (v.normalizedAs type) := fun d' w' h => normalize_ok hs h
  cases v with
  | null =>
    rw [Memory.Spells] at hs
    subst hs
    cases type with
    | list _ | object _ => exact .inl ⟨rfl, _, rfl⟩
    | _ =>
      obtain ⟨m, hm, hg, hx⟩ := hok _ _ rfl
      exact .inr ⟨_, _, m, rfl, congrArg _ hm, hg, hx⟩
  | _ =>
    have hn : d ≠ .null := by
      rintro rfl
      simp [Memory.Spells] at hs
    have hd : normalize d type w = .ok d w := by
      cases d <;> first | exact absurd rfl hn | rfl
    obtain ⟨m, hm, hg, hx⟩ := hok _ _ hd
    refine .inr ⟨_, d, m, ?_, hd.trans (congrArg _ hm), hg, hx⟩
    cases type <;> rfl

end Run

/-! ### What everything else keeps -/

namespace Event

/-- What is asked of an event: that it is quiet, and yields the outcome of its getter. -/
def fits (o : Outcomes) (e : Event) : Prop := e.leavesValues ∧ e.yields o

end Event

namespace World

variable {o : Outcomes} {new more : List Event}

theorem any_append (hm : ∀ e ∈ more, ∀ i, e.acquires i = false) (i : Nat) :
    (more ++ new).any (·.acquires i) = new.any (·.acquires i) := by
  rw [List.any_append, List.any_eq_false.mpr fun e he => by simp [hm e he i], Bool.false_or]

/-- What has been gathered is kept where nothing is acquired and what scripts see reads as before. -/
theorem Gathered.keep (h : w₁.Gathered o new a) (more : List Event)
    (hm : ∀ e ∈ more, ∀ i, e.acquires i = false)
    (hv : b.values = a.values)
    (hs : ∀ m ∈ a.values, ∀ v, a.memory.Spells m.2 v → b.memory.Spells m.2 v)
    (alike : a.visual.Alike b.visual) (hd : a.drawing.isSome → b.drawing.isSome) :
    w₁.Gathered o (more ++ new) b where
  live := alike.isDestroyed.trans h.live
  drawing := hd h.drawing
  programs := by rw [alike.programs]; exact h.programs
  isReady := alike.isReady.trans h.isReady
  descriptor := alike.descriptor.trans h.descriptor
  getters := alike.getters.trans h.getters
  holds := h.holds.congr hv alike.cells
  keys := by rw [hv]; exact h.keys
  entries i c id hc hi := by
    obtain ⟨d, hg, hd⟩ := h.entries i c id hc hi
    obtain ⟨k, hk⟩ := Members.mem_of_get? hg
    rw [hv, any_append hm]
    exact ⟨d, hg, hs _ hk _ hd⟩
  renders := by
    rw [alike.renders, h.renders]
    unfold Visual.shown
    simp only [any_append hm]

/-- What has been gathered since a visual was put in place. -/
def GatheredSince (w₁ : World) (o : Outcomes) (w : World) : Prop :=
  ∃ new, w.past = new ++ w₁.past ∧ w₁.Gathered o new w

theorem GatheredSince.silent (h : w₁.GatheredSince o a) (hp : b.past = a.past) (hv : b.values = a.values)
    (hs : ∀ m ∈ a.values, ∀ v, a.memory.Spells m.2 v → b.memory.Spells m.2 v)
    (alike : a.visual.Alike b.visual) (hd : a.drawing.isSome → b.drawing.isSome) :
    w₁.GatheredSince o b := by
  obtain ⟨new, hn, g⟩ := h
  exact ⟨new, hp.trans hn, g.keep [] (fun e he => absurd he List.not_mem_nil) hv hs alike hd⟩

theorem GatheredSince.event (h : w₁.GatheredSince o a) {e : Event} (hp : b.past = e :: a.past)
    (he : ∀ i, e.acquires i = false) (hv : b.values = a.values)
    (hs : ∀ m ∈ a.values, ∀ v, a.memory.Spells m.2 v → b.memory.Spells m.2 v)
    (alike : a.visual.Alike b.visual) (hd : a.drawing.isSome → b.drawing.isSome) :
    w₁.GatheredSince o b := by
  obtain ⟨new, hn, g⟩ := h
  refine ⟨e :: new, by rw [hp, hn]; rfl, g.keep [e] (fun x hx => ?_) hv hs alike hd⟩
  rw [List.mem_singleton.mp hx]
  exact he

/-- If all that comes to pass is quiet and yields the outcomes, what has been gathered is what scripts
see. -/
def Gathering (w₁ : World) (o : Outcomes) : World → World → Prop :=
  Under (Event.fits o) (w₁.GatheredSince o)

namespace Gathering

theorem record (w₁ w : World) (o : Outcomes) {deed : Deed} (h : ∀ batch i r, deed ≠ .acquire batch i r) :
    w₁.Gathering o w ((Run.record deed).after w) := by
  refine .event rfl fun _ g => g.event rfl (fun i => ?_) rfl (fun _ _ _ => id) .rfl id
  cases deed with
  | acquire batch j r => exact absurd rfl (h batch j r)
  | _ => rfl

theorem calm (w₁ : World) (o : Outcomes) : Calm (w₁.Gathering o) where
  toCourse := Under.course _ _
  stir {a b} h := by
    have hs : ∀ m ∈ a.values, ∀ v, a.memory.Spells m.2 v → b.memory.Spells m.2 v :=
      fun _ _ _ k => k.grow h.memory
    rcases h.past with ⟨hp, hd⟩ | ⟨deed, hp, ⟨hk, hd⟩ | ⟨d, rfl, hd⟩⟩
    · exact .silent hp fun g => g.silent hp h.values hs h.alike fun k => by rwa [hd]
    · refine .event hp fun _ g => g.event hp (fun i => ?_) h.values hs h.alike fun k => by rwa [hd]
      cases deed <;> first | rfl | cases hk
    · exact .event hp fun _ g => g.event hp (fun i => rfl) h.values hs h.alike fun _ => by rw [hd]; rfl

theorem store (w₁ : World) (o : Outcomes) (r : Script.Ref) (c : Script.Contents) :
    Along (w₁.Gathering o) (Run.store r c) := by
  intro w
  refine .event (Run.store_past r c w) fun p g => ?_
  obtain ⟨⟨hr, hn⟩, -⟩ := p
  refine g.event (Run.store_past r c w) (fun _ => rfl) (Run.store_values hr c w) (fun m hm v hs => ?_)
    (by rw [Run.store_visual]; exact .rfl) (by rw [Run.store_drawing]; exact id)
  cases r with
  | cell n => exact hs.write c (hn n rfl m hm)
  | _ => cases c <;> exact hs

theorem script (hp : ∀ act, Along (w₁.Gathering o) (play act)) (l : Launch) (act : Script.Act Datum) :
    Along (w₁.Gathering o) (Run.script play l act) :=
  (calm w₁ o).script (fun w => record w₁ w o fun _ _ _ => Deed.noConfusion)
    (fun _ w => record w₁ w o fun _ _ _ => Deed.noConfusion) hp act

theorem steady (w₁ : World) (o : Outcomes) : Steady (w₁.Gathering o) where
  toCalm := calm w₁ o
  store := store w₁ o
  script hp _ _ := script hp _
  propose {play} hp id value w := by
    -- a value that a script gives is none of those that are acquired
    have hl : Along Later (Run.setValue play id value) :=
      later_driven.value (fun act w => (hp act w).later) id value
    refine .of_event (hl ((Run.record (.propose id value)).after w)) fun p _ => ?_
    exact (show False from p.1).elim

end Gathering

/-! ### Acquiring -/

namespace Gathered

variable {i : Nat} {e : Event}

theorem any_cons (he : ∀ j, e.acquires j = (i == j)) (j : Nat) :
    (e :: new).any (·.acquires j) = (i == j || new.any (·.acquires j)) := by
  rw [List.any_cons, he]

/-- The value of a getter that has already got it, or whose value is no news, changes nothing. -/
theorem settled (h : w₁.Gathered o new a) (he : ∀ j, e.acquires j = (i == j))
    (hi : new.any (·.acquires i) = true ∨ w₁.visual.isNews o i = false) (hv : b.values = a.values)
    (hm : a.memory.Grows b.memory) (alike : a.visual.Alike b.visual)
    (hd : a.drawing.isSome → b.drawing.isSome) : w₁.Gathered o (e :: new) b :=
  { h.keep [] (fun _ k => absurd k List.not_mem_nil) hv (fun _ _ _ k => k.grow hm) alike hd with
    entries := fun j c id hc hid => by
      obtain ⟨d, hg, hd⟩ := h.entries j c id hc hid
      rw [hv, any_cons he]
      refine ⟨d, hg, ?_⟩
      by_cases hij : i = j
      · subst hij
        rw [beq_self_eq_true, Bool.true_or, if_pos rfl]
        rcases hi with hi | hi
        · rw [if_pos hi] at hd
          exact hd.grow hm
        · have hn : w₁.visual.lastOf c (o i) = w₁.visual.seedOf c := by
            rw [Visual.isNews_eq hc] at hi
            unfold Visual.lastOf
            rw [Option.isSome_eq_false_iff.mp hi |> Option.isNone_iff_eq_none.mp]
            rfl
          rw [hn, ite_self] at hd
          rw [hn]
          exact hd.grow hm
      · rw [beq_eq_false_iff_ne.mpr hij, Bool.false_or]
        exact hd.grow hm
    renders := by
      rw [alike.renders, h.renders]
      congr 2
      refine Finset.filter_congr fun j _ => ?_
      rw [any_cons he]
      by_cases hij : i = j
      · subst hij
        rcases hi with hi | hi <;> simp [hi]
      · rw [beq_eq_false_iff_ne.mpr hij, Bool.false_or] }

/-- A value that is news replaces the first one, and is shown. -/
theorem taken (h : w₁.Gathered o new a) (hr : w₁.Receptive o) (he : ∀ j, e.acquires j = (i == j))
    (hi : new.any (·.acquires i) = false) {c : Behavior} {t : String} {x : Value} {d : Datum}
    (hc : w₁.visual.descriptor.receivers[i]? = some c) (ht : c.valueId? = some (.text t))
    (hx : w₁.visual.newsOf? c (o i) = some x) (hv : b.values = Members.set a.values (.text t) d)
    (hm : a.memory.Grows b.memory) (hd : b.memory.Spells d x)
    (hh : b.Holds w₁.visual.descriptor.valueIds)
    (hb : ∃ cells, b.visual = { a.visual with cells, renders := a.visual.renders + 1 })
    (hdraw : b.drawing = a.drawing) : w₁.Gathered o (e :: new) b := by
  obtain ⟨cells, hb⟩ := hb
  have hid := Descriptor.valueIds_getElem? hc ht
  have hil : i < w₁.visual.descriptor.receivers.length := (List.getElem?_eq_some_iff.mp hc).1
  refine ⟨?_, ?_, ?_, ?_, ?_, ?_, hh, ?_, fun j c' id hc' hid' => ?_, ?_⟩
  · unfold isLive
    rw [hb]
    exact h.live
  · rw [hdraw]
    exact h.drawing
  · rw [hb]
    exact h.programs
  · rw [hb]
    exact h.isReady
  · rw [hb]
    exact h.descriptor
  · rw [hb]
    exact h.getters
  · rw [hv, Members.keys_set _ d, h.keys]
    rw [h.keys]
    exact List.mem_map_of_mem (List.mem_of_getElem? hid)
  · obtain ⟨d', hg, hd'⟩ := h.entries j c' id hc' hid'
    rw [hv, any_cons he]
    by_cases hij : i = j
    · subst hij
      obtain rfl : c = c' := Option.some.inj (hc.symm.trans hc')
      obtain rfl : .text t = id := Option.some.inj (ht.symm.trans hid')
      rw [beq_self_eq_true, Bool.true_or, if_pos rfl]
      refine ⟨d, Members.get?_set_self _ _ _, ?_⟩
      unfold Visual.lastOf
      rw [hx]
      exact hd
    · have hjd := Descriptor.valueIds_getElem? hc' hid'
      obtain ⟨u, rfl⟩ := hr.texts id (List.mem_of_getElem? hjd)
      have hut : u ≠ t := by
        rintro rfl
        exact hij ((List.getElem?_inj (List.getElem?_eq_some_iff.mp hid).1 hr.different).mp
          (hid.trans hjd.symm))
      rw [beq_eq_false_iff_ne.mpr hij, Bool.false_or]
      exact ⟨d', (Members.get?_set_of_ne _ hut _).trans hg, hd'.grow hm⟩
  · have hnews : w₁.visual.isNews o i = true := by
      rw [Visual.isNews_eq hc, hx]
      rfl
    have hs : w₁.visual.shown o (e :: new) = insert i (w₁.visual.shown o new) := by
      ext j
      unfold Visual.shown
      rw [Finset.mem_insert, Finset.mem_filter, Finset.mem_filter, Finset.mem_range, any_cons he]
      by_cases hij : i = j
      · subst hij
        simp [hil, hnews]
      · rw [beq_eq_false_iff_ne.mpr hij, Bool.false_or]
        simp [Ne.symm hij]
    have hni : i ∉ w₁.visual.shown o new := by
      intro k
      obtain ⟨k, -⟩ := (Finset.mem_filter.mp k).2
      rw [hi] at k
      cases k
    rw [hs, Finset.card_insert_of_notMem hni, hb]
    change a.visual.renders + 1 = _
    rw [h.renders, Nat.add_assoc]

end Gathered

/-- A behavior that takes a value in is found under its id. -/
theorem Receptive.find (h : w.Receptive o) {c : Behavior} (hc : c ∈ w.visual.descriptor.receivers) :
    (w.visual.descriptor.behaviors.find? fun b => (Datum.ofName b.id).sameKey (.ofName c.id)) = some c := by
  have hm := (Descriptor.mem_receivers hc).1
  have hn := h.names.names c hm
  have hs : (Datum.ofName c.id).sameKey (.ofName c.id) = true := by
    have hk := h.known c hc
    cases hi : c.id <;> rw [hi] at hn hk <;>
      simp_all [isName, Datum.ofName, Datum.sameKey, Datum.numeric?, Value.same, Value.sameNumber,
        Value.numeric?]
  obtain ⟨c', hf⟩ : ∃ c', (w.visual.descriptor.behaviors.find? fun b =>
      (Datum.ofName b.id).sameKey (.ofName c.id)) = some c' :=
    Option.isSome_iff_exists.mp (List.find?_isSome.mpr ⟨c, hm, hs⟩)
  have hm' := List.mem_of_find?_eq_some hf
  have hs' : (Datum.ofName c'.id).sameKey (.ofName c.id) = true := by simpa using List.find?_some hf
  rw [hf, h.names.eq hm' hm (Datum.sameName_of_sameKey (h.names.names c' hm') hn hs' hs)]

/-- The getter of a behavior is at the place of the behavior among those that take values in. -/
theorem Receptive.source (h : w.Receptive o) {i : Nat} {g : Getter}
    (hg : w.visual.getters[i]? = some g) :
    ∃ c type default t tl fl st, w.visual.descriptor.receivers[i]? = some c ∧ g.behavior = c.id ∧
      c.kind = .value type default (.text t) tl fl st ∧ c.valueId? = some (.text t) := by
  have hs := congrArg (·[i]?) h.sources
  simp only [List.getElem?_map, Array.getElem?_toList, hg, Option.map_some] at hs
  obtain ⟨c, hc, hi⟩ := Option.map_eq_some_iff.mp hs.symm
  obtain ⟨-, type, default, id, tl, fl, st, hk, hv⟩ := Descriptor.mem_receivers (List.mem_of_getElem? hc)
  obtain ⟨t, rfl⟩ := h.texts id (List.mem_of_getElem? (Descriptor.valueIds_getElem? hc hv))
  exact ⟨c, type, default, t, tl, fl, st, hc, hi.symm, hk, hv⟩

end World

/-- Where cells and scripts agree, a cell takes a value that differs from the one scripts see. -/
theorem Situation.Holds.taker? {s : Situation} {ids : List Value} (h : s.Holds ids)
    (live : s.visual.isDestroyed = false) {t : String} (ht : .text t ∈ ids) (d : Datum) :
    ∃ cell, Members.get? s.values (.text t) = some cell.value ∧
      s.taker? (.text t) d = if s.differ cell.value d then some (.text t, cell) else none := by
  obtain ⟨cell, hc, hv, ho, -⟩ := h.held _ ht
  refine ⟨cell, hv, ?_⟩
  unfold Situation.taker?
  rw [live]
  simp only [Datum.isKey, Bool.not_true, Bool.or_false, Bool.false_eq_true, if_false, Datum.plain?, hc,
    ho, Bool.not_false, Bool.true_and]

namespace Run

/-- What is left when an acquired value has come for a behavior. -/
theorem onValue_after (live : w.isLive) {c : Behavior} {type default tl fl st : Value} {t : String}
    (hf : (w.visual.descriptor.behaviors.find? fun b =>
      (Datum.ofName b.id).sameKey (.ofName c.id)) = some c)
    (hk : c.kind = .value type default (.text t) tl fl st) (play : Player) (d : Datum) :
    (onValue play c.id d).after w =
      match normalize d type w with
      | .ok d' w' => (setValue play (.text t) d').after w'
      | .error _ w' => w' := by
  have hb : behavior? (Datum.ofName c.id) w = .ok (some c) w := by
    unfold behavior?
    rw [get_bind, hf]
    rfl
  unfold onValue
  rw [after_get_bind, if_neg (by simp [show w.visual.isDestroyed = false from live]), after_bind_ok hb]
  dsimp only
  rw [hk]
  dsimp only [keyDatum, Datum.ofName]
  rw [after_ofExcept_ok_bind]
  cases hn : normalize d type w with
  | ok d' w' => rw [after_bind_ok hn]
  | error f w' => rw [after_bind_error hn]

theorem concludeAcquisition_ok (play : Player) (batch getter : Nat) (behavior : Value) (d : Datum)
    (w : World) : (concludeAcquisition play batch getter behavior (.ok d)).after w =
      (soon (.settled batch)).after ((onValue play behavior d).after
        ((record (.acquire batch getter (.ok d))).after w)) := by
  unfold concludeAcquisition
  rw [after_record_bind]
  dsimp only
  rw [after_bind_ok (attempt_discard _ _)]
  rfl

theorem concludeAcquisition_error (play : Player) (batch getter : Nat) (behavior : Value) (f : Failure)
    (w : World) : (concludeAcquisition play batch getter behavior (.error f)).after w =
      (soon (.settled batch)).after ((onAcquisitionError f).after
        ((record (.acquire batch getter (.error f))).after w)) := by
  unfold concludeAcquisition
  rw [after_record_bind]
  dsimp only
  rw [after_bind_ok (Does.onAcquisitionError_ok f _)]
  rfl

end Run

namespace World.Gathering

variable {o : Outcomes} {new : List Event}

/-- The scripts of a pass keep to what has been gathered; the pass itself is counted at its start. -/
theorem render (hp : ∀ act, Along (w₁.Gathering o) (play act)) (hd : w.drawing.isSome)
    (hps : w.visual.programs.isSome) (hr : w.visual.isReady = true) (live : w.isLive) :
    w₁.Gathering o w.counted ((Run.render play).after w) := by
  have M := (calm w₁ o).toMild
  obtain ⟨d, hd⟩ := Option.isSome_iff_exists.mp hd
  obtain ⟨ps, hps⟩ := Option.isSome_iff_exists.mp hps
  have hscripts : Along (w₁.Gathering o) (do
      Run.renderOne play .root ps.root (.entity .scene) "state_render"
      w.visual.descriptor.tags.forM (Run.renderTag play ps)) :=
    M.bind (M.renderOne (script hp _) _ _ _) fun _ =>
      M.forM fun t _ => M.renderTag (fun _ => script hp _) ps t
  have he : (Run.render play).after w = Run.after (do
      Run.renderOne play .root ps.root (.entity .scene) "state_render"
      w.visual.descriptor.tags.forM (Run.renderTag play ps)) w.counted := by
    unfold Run.render
    rw [Run.after_get_bind]
    split
    next d' ps' _ hps' =>
      obtain rfl : ps = ps' := Option.some.inj (hps.symm.trans hps')
      rw [if_neg (by simp [hr, show w.visual.isDestroyed = false from live])]
      rfl
    next k => exact absurd hps (k d ps hd)
  rw [he]
  exact hscripts _

/-- A value of a getter is taken and shown if it differs from the first one and the getter did not have
it already; in any case it leads to a world in which it has been gathered, with no more than scripts
of a pass to come. -/
theorem take (hr : w₁.Receptive o) (hp : ∀ act, Along (w₁.Gathering o) (play act))
    {e : Event} {i : Nat} (he : ∀ j, e.acquires j = (i == j)) {c : Behavior} {t : String} {x : Value}
    {d : Datum} (hc : w₁.visual.descriptor.receivers[i]? = some c) (ht : c.valueId? = some (.text t))
    (hx : w₁.visual.newsOf? c (o i) = (some x).filter (w₁.visual.seedOf c).differ)
    (hxc : x.isComparable = true) (hw : w.past = new ++ w₁.past) (G : w₁.Gathered o new w)
    (hpa : a.past = e :: w.past) (hv : a.values = w.values) (hm : w.memory.Grows a.memory)
    (hd : a.memory.Spells d x) (alike : a.visual = w.visual) (hdr : a.drawing = w.drawing) :
    ∃ b, Later a b ∧ w₁.GatheredSince o b ∧
      w₁.Gathering o b ((Run.setValue play (.text t) d).after a) := by
  have hid : .text t ∈ w₁.visual.descriptor.valueIds :=
    List.mem_of_getElem? (Descriptor.valueIds_getElem? hc ht)
  have live : a.isLive := by
    unfold isLive
    rw [alike]
    exact G.live
  have hh : a.Holds w₁.visual.descriptor.valueIds := G.holds.congr hv (by rw [alike])
  have hpast : a.past = (e :: new) ++ w₁.past := by rw [hpa, hw]; rfl
  obtain ⟨cell, hcell, htk⟩ := hh.taker? live hid d
  obtain ⟨d₀, hd₀, hs₀⟩ := G.entries i c _ hc ht
  obtain rfl : cell.value = d₀ := Option.some.inj (hcell.symm.trans ((congrArg (Members.get? · _) hv).trans hd₀))
  have hdiff : a.differ cell.value d = Value.differ
      (if new.any (·.acquires i) then w₁.visual.lastOf c (o i) else w₁.visual.seedOf c) x := by
    unfold Situation.differ
    rw [Script.View.differ_spelled (fun _ => rfl) hxc (hs₀.grow hm) hd]
  have hset : (new.any (·.acquires i) = true ∨ w₁.visual.isNews o i = false) → w₁.GatheredSince o a :=
    fun h => ⟨e :: new, hpast, G.settled he h hv hm (by rw [alike]; exact .rfl) (by rw [hdr]; exact id)⟩
  rw [Run.setValue_agreed hh hr.texts, htk, hdiff]
  cases hz : (w₁.visual.seedOf c).differ x with
  | false =>
    -- no news: the cell has its first value, whether the getter had this one or not
    rw [Option.filter_some_neg (by simp [hz])] at hx
    have hl : w₁.visual.lastOf c (o i) = w₁.visual.seedOf c := by rw [Visual.lastOf, hx]; rfl
    rw [hl, ite_self, hz]
    exact ⟨a, later_driven.refl _, hset (.inr (by rw [Visual.isNews_eq hc, hx]; rfl)), (calm w₁ o).refl _⟩
  | true =>
    rw [Option.filter_some_pos hz] at hx
    by_cases hn : new.any (·.acquires i) = true
    · -- the cell has this very value
      have hl : w₁.visual.lastOf c (o i) = x := by rw [Visual.lastOf, hx]; rfl
      rw [if_pos hn, hl, Value.differ_self hxc]
      exact ⟨a, later_driven.refl _, hset (.inl hn), (calm w₁ o).refl _⟩
    · rw [if_neg hn, hz, if_pos rfl]
      rw [hdiff, if_neg hn, hz, if_pos rfl] at htk
      have hh' : (a.taken (.text t) cell d).counted.Holds w₁.visual.descriptor.valueIds :=
        (hh.taken hr.texts htk).congr rfl rfl
      have G' : w₁.Gathered o (e :: new) (a.taken (.text t) cell d).counted :=
        G.taken hr he (by simpa using hn) hc ht hx (by rw [← hv]; rfl) hm hd hh' ⟨_, by rw [← alike]; rfl⟩ hdr
      refine ⟨(a.taken (.text t) cell d).counted, ⟨[_, _], rfl⟩,
        ⟨[⟨.change (.text t) d, (a.given (.text t) cell d).toSituation⟩, ⟨.take (.text t) d, a.toSituation⟩] ++
            (e :: new), ?_,
          G'.keep _ (fun k hk j => ?_) rfl (fun _ _ _ => id) .rfl id⟩,
        render hp ?_ ?_ ?_ live⟩
      · rw [List.append_assoc, ← hpast]
        rfl
      · rcases List.mem_pair.mp hk with rfl | rfl <;> rfl
      · exact G'.drawing
      · exact G'.programs
      · exact G'.isReady

/-- When a getter has its value or has failed to get one, what has been gathered is still what scripts
see. -/
theorem conclude (hr : w₁.Receptive o) (hp : ∀ act, Along (w₁.Gathering o) (play act)) {i : Nat}
    {g : Getter} (hg : w.visual.getters[i]? = some g) (batch : Nat) (result : Except Failure Datum) :
    w₁.Gathering o w ((Run.concludeAcquisition play batch i g.behavior result).after w) := by
  have hl : ∀ act, Along Later (play act) := fun act w => (hp act w).later
  have he : ∀ j, (Event.mk (.acquire batch i result) w.toSituation).acquires j = (i == j) := fun _ => rfl
  cases result with
  | error f =>
    rw [Run.concludeAcquisition_error]
    refine (calm w₁ o).trans (.of_event (later_driven.onAcquisitionError f ((Run.record (.acquire batch i (.error f))).after w)) fun p ⟨new, hn, G⟩ => ?_)
      ((calm w₁ o).soon _ _)
    obtain ⟨log, h⟩ := Run.onAcquisitionError_after (w := (Run.record _).after w) G.live f
    rw [h]
    refine .event rfl fun _ _ => ⟨_ :: new, congrArg _ hn, G.settled he (.inr ?_) rfl (Memory.grows_refl _)
      { Visual.Alike.rfl with } id⟩
    unfold Visual.isNews
    split
    · rw [show o i = .error f from p.2]
      rfl
    · rfl
  | ok d =>
    rw [Run.concludeAcquisition_ok]
    refine (calm w₁ o).trans (.of_event (later_driven.onValue (later_driven.value hl) g.behavior d
      ((Run.record (.acquire batch i (.ok d))).after w)) fun p ⟨new, hn, G⟩ => ?_)
      ((calm w₁ o).soon _ _)
    obtain ⟨v, ho, hs⟩ := p.2
    obtain ⟨c, type, default, t, tl, fl, st, hc, hb, hk, ht⟩ := hr.source (G.getters ▸ hg)
    have hf := hr.find (List.mem_of_getElem? hc)
    rw [← G.descriptor] at hf
    have hnews : ∀ x?, v.taken? type = x? → w₁.visual.newsOf? c (o i) =
        x?.filter (w₁.visual.seedOf c).differ := by
      rintro _ rfl
      unfold Visual.newsOf?
      rw [ho]
      dsimp only
      rw [hk]
    rw [hb, Run.onValue_after (w := (Run.record (.acquire batch i (.ok d))).after w) G.live hf hk]
    rcases Run.normalize_spelled (w := (Run.record _).after w) hs type with ⟨hx, f, h⟩ | ⟨x, d', m, hx, h, hm, hs'⟩
    · rw [h]
      refine .event rfl fun _ _ => ⟨_ :: new, congrArg _ hn, G.settled he (.inr ?_) rfl (Memory.grows_refl _)
        .rfl id⟩
      rw [Visual.isNews_eq hc, hnews _ hx]
      rfl
    · rw [h]
      dsimp only
      obtain ⟨b, hb, hG, k⟩ := take (a := { (Run.record _).after w with memory := m }) hr hp he hc ht (hnews _ hx)
        (Value.taken?_comparable (hr.comparable _ _ ho) hx) hn G rfl rfl hm hs' rfl rfl
      exact .from_later (later_driven.trans ⟨[_], rfl⟩ hb) hG k

end World.Gathering

end LiveSvg
