import LiveSvg.Proofs.Tables
import LiveSvg.Proofs.Values
/-!
The values that scripts see are those that the cells hold. Scripts run in the middle of a change see
the new value in both places, so this holds whenever one of them starts.
-/

namespace LiveSvg

open Script (Datum Members)

variable {play : Player}

/-- The id of the value that a behavior takes in, if it takes one. -/
def Behavior.valueId? (b : Behavior) : Option Value :=
  match b.kind with
  | .value _ _ id _ _ _ => some id
  | _ => none

/-- The value ids of a descriptor, one mention for each behavior. -/
def Descriptor.valueIds (d : Descriptor) : List Value := d.behaviors.filterMap (·.valueId?)

/-- All ids are texts. -/
def AllTexts (ids : List Value) : Prop := ∀ id ∈ ids, ∃ s, id = .text s

def Value.isText : Value → Bool
  | .text _ => true
  | _ => false

theorem AllTexts.of_all {ids : List Value} (h : ids.all Value.isText = true) : AllTexts ids := by
  intro id hid
  have hi := List.all_eq_true.mp h id hid
  cases id with
  | text s => exact ⟨s, rfl⟩
  | _ => cases hi

/-- Scripts see the values of some ids and no others; each has an open cell that holds the very same
value and has been subscribed to once. -/
structure Situation.Holds (s : Situation) (ids : List Value) : Prop where
  keys (k : Datum) : k ∈ s.values.map (·.1) ↔ ∃ id ∈ ids, k = .ofName id
  distinct : (s.values.map (·.1)).Nodup
  held : ∀ id ∈ ids, ∃ cell, s.visual.cells.get? id = some cell ∧
    Members.get? s.values (.ofName id) = some cell.value ∧ cell.isClosed = false ∧
      cell.subscribers = [id]
  only {id : Value} {cell : Cell Datum Value} : s.visual.cells.get? id = some cell → id ∈ ids

/-- The values that scripts see are those that the cells hold, for the value ids of the visual. -/
def Situation.Agrees (s : Situation) : Prop := s.Holds s.visual.descriptor.valueIds

/-- A world in which a cell has taken a value and scripts see it. -/
def World.taken (w : World) (id : Value) (cell : Cell Datum Value) (value : Datum) : World :=
  (w.given id cell value).changed id (.ofName id) value

namespace Situation

variable {s : Situation} {ids : List Value}

namespace Holds

/-- Setting the cell and what scripts see of an id alike keeps the two in agreement, also where the
id is a new one. -/
theorem set (h : s.Holds ids) (t : String) {cell : Cell Datum Value} (ho : cell.isClosed = false)
    (hs : cell.subscribers = [.text t]) {s' : Situation}
    (hv : s'.values = Members.set s.values (.text t) cell.value)
    (hc : s'.visual.cells = s.visual.cells.set (.text t) cell) {ids' : List Value}
    (hi : ∀ id, id ∈ ids' ↔ id = .text t ∨ id ∈ ids) (ht : AllTexts ids) : s'.Holds ids' where
  keys k := by
    rw [hv, Members.mem_keys_set, h.keys]
    constructor
    · rintro (rfl | ⟨id, hid, rfl⟩)
      · exact ⟨.text t, (hi _).mpr (.inl rfl), rfl⟩
      · exact ⟨id, (hi _).mpr (.inr hid), rfl⟩
    · rintro ⟨id, hid, rfl⟩
      rcases (hi id).mp hid with rfl | hid
      · exact .inl rfl
      · exact .inr ⟨id, hid, rfl⟩
  distinct := by
    rw [hv]
    exact Members.nodup_keys_set h.distinct t _
  held id hid := by
    rw [hv, hc]
    by_cases he : id = .text t
    · obtain rfl := he
      exact ⟨cell, Settings.Table.get?_set_self _ _ _, Members.get?_set_self _ _ _, ho, hs⟩
    · have hid := ((hi id).mp hid).resolve_left he
      obtain ⟨u, rfl⟩ := ht id hid
      obtain ⟨c, h1, h2, h3⟩ := h.held _ hid
      have hu : u ≠ t := fun k => he (by rw [k])
      exact ⟨c, (Settings.Table.get?_set_of_ne _ he _).trans h1,
        (Members.get?_set_of_ne _ hu _).trans h2, h3⟩
  only {id c} hg := by
    rw [hc] at hg
    by_cases he : id = .text t
    · exact (hi id).mpr (.inl he)
    · rw [Settings.Table.get?_set_of_ne _ he] at hg
      exact (hi id).mpr (.inr (h.only hg))

theorem congr (h : s.Holds ids) {s' : Situation} (hv : s'.values = s.values)
    (hc : s'.visual.cells = s.visual.cells) : s'.Holds ids where
  keys k := by rw [hv]; exact h.keys k
  distinct := by rw [hv]; exact h.distinct
  held id hid := by rw [hv, hc]; exact h.held id hid
  only hg := by rw [hc] at hg; exact h.only hg

theorem taken {w : World} (h : w.Holds ids) (ht : AllTexts ids) {id value : Datum} {v : Value}
    {cell : Cell Datum Value} (hk : w.taker? id value = some (v, cell)) :
    (w.taken v cell value).Holds ids := by
  obtain ⟨hg, -⟩ := taker?_eq_some hk
  have hid := h.only hg
  obtain ⟨t, rfl⟩ := ht v hid
  obtain ⟨c, hc, -, ho, hs⟩ := h.held _ hid
  obtain rfl : cell = c := Option.some.inj (hg.symm.trans hc)
  have hn : (cell.next value).1 = { cell with value, streams := cell.streams.map (·.push value) } := by
    simp [Cell.next, ho]
  refine h.set t (by rw [hn]; exact ho) (by rw [hn]; exact hs) ?_ rfl
    (fun id => ⟨.inr, ?_⟩) ht
  · rw [hn]
    rfl
  · rintro (rfl | k)
    · exact hid
    · exact k

end Holds

end Situation

namespace Run

/-- Where cells and scripts agree, a value that a cell takes is news to the scripts: it is followed by
one pass over the visual, which starts in agreement. -/
theorem setValue_agreed {w : World} {ids : List Value} (h : w.Holds ids) (ht : AllTexts ids)
    (play : Player) (id value : Datum) :
    (setValue play id value).after w =
      match w.taker? id value with
      | some (id, cell) => (render play).after (w.taken id cell value)
      | none => w := by
  rw [setValue_after]
  cases hk : w.taker? id value with
  | none => rfl
  | some found =>
    obtain ⟨v, cell⟩ := found
    obtain ⟨hg, hd⟩ := Situation.taker?_eq_some hk
    have hid := h.only hg
    obtain ⟨t, rfl⟩ := ht v hid
    obtain ⟨c, hc, hv, ho, hs⟩ := h.held _ hid
    obtain rfl : cell = c := Option.some.inj (hg.symm.trans hc)
    have hn : cell.next value = ((cell.next value).1, [.text t]) := by simp [Cell.next, ho, hs]
    dsimp only
    rw [pushValue_after, hn]
    change (takeValue play (.text t) value >>= fun _ => pure ()).after _ = _
    rw [bind_pure_unit, takeValue_after]
    have hk : (w.given (.text t) cell value).changed? (.text t) value = some (.text t) :=
      Situation.changed?_of_differ rfl hv hd
    rw [hk]
    rfl

end Run

/-! ### Whole runs -/

/-- Whether a script is about to start, or a job has just been done. -/
def Event.isMoment (e : Event) : Prop := (∃ l, e.deed = .start l) ∨ ∃ j, e.deed = .work j

/-- Whether an event is not an assignment into the values that scripts see. -/
def Event.keepsValues (e : Event) : Prop := ∀ c, e.deed ≠ .store .values c

/-- Scripts see what the cells hold, now and at every moment since a past. -/
structure AgreesSince (past : List Event) (w : World) : Prop where
  texts : AllTexts w.visual.descriptor.valueIds
  agrees : w.Agrees
  moments : ∃ new, w.past = new ++ past ∧ ∀ e ∈ new, e.isMoment → e.before.Agrees

namespace AgreesSince

variable {past : List Event} {a b : World}

theorem extend (h : AgreesSince past a) {more : List Event} (hp : b.past = more ++ a.past)
    (he : ∀ e ∈ more, e.isMoment → e.before.Agrees)
    (hd : b.visual.descriptor = a.visual.descriptor) (hb : b.Agrees) : AgreesSince past b where
  texts := by rw [hd]; exact h.texts
  agrees := hb
  moments := by
    obtain ⟨new, hn, hm⟩ := h.moments
    refine ⟨more ++ new, by rw [hp, hn, List.append_assoc], fun x hx => ?_⟩
    rcases List.mem_append.mp hx with hx | hx
    · exact he x hx
    · exact hm x hx

theorem record (h : AgreesSince past a) (deed : Deed) :
    AgreesSince past { a with past := ⟨deed, a.toSituation⟩ :: a.past } :=
  h.extend (List.singleton_append ..).symm (fun _ he _ => by rw [List.mem_singleton.mp he]; exact h.agrees) rfl
    h.agrees

theorem congr (h : AgreesSince past a) (hp : b.past = a.past) (hv : b.values = a.values)
    (hc : b.visual.cells = a.visual.cells) (hd : b.visual.descriptor = a.visual.descriptor) :
    AgreesSince past b where
  texts := by rw [hd]; exact h.texts
  agrees := by
    unfold Situation.Agrees
    rw [hd]
    exact h.agrees.congr hv hc
  moments := by rw [hp]; exact h.moments

/-- What scripts and all around them do keeps values and cells in agreement. -/
theorem driven (past : List Event) : Driven (Under Event.keepsValues (AgreesSince past)) := by
  have C : Calm (Under Event.keepsValues (AgreesSince past)) :=
    { toCourse := Under.course _ _
      stir := fun {a b} h => by
        have hd := h.alike.descriptor
        have hc := h.alike.cells
        rcases h.past with ⟨hp, -⟩ | ⟨deed, hp, -⟩
        · exact .silent hp fun i => i.congr hp h.values hc hd
        · exact .event hp fun _ i => (i.record deed).congr hp h.values hc hd }
  have hs : ∀ {play : Player}, (∀ act, Along _ (play act)) → ∀ l act, Along _ (Run.script play l act) :=
    fun hp _ => C.script (fun _ => .event rfl fun _ i => i.record _)
      (fun _ _ => .event rfl fun _ i => i.record _) hp
  have hr : ∀ {play : Player}, (∀ act, Along _ (play act)) → Along _ (Run.render play) :=
    fun hp => C.render (fun _ => hs hp _) fun w => .silent rfl fun i => i.congr rfl rfl rfl rfl
  refine { toCalm := C, store := fun r c w => ?_, script := fun hp _ _ => hs hp _,
           acquire := fun _ _ _ _ => .event rfl fun _ i => i.record _, value := fun hp id value w => ?_, render := hr,
           aim := fun _ _ => .silent rfl fun i => i.congr rfl rfl rfl rfl }
  · refine .event (Run.store_past r c w) fun p i => ?_
    have hr : r ≠ .values := by
      rintro rfl
      exact p c rfl
    exact (i.record _).congr (Run.store_past r c w) (Run.store_values hr c w)
      (by rw [Run.store_visual]) (by rw [Run.store_visual])
  · have hl := later_driven.value (fun act w => (hp act w).later) id value w
    refine Under.of_later hl fun i => ?_
    rw [Run.setValue_agreed i.agrees i.texts]
    cases hk : w.taker? id value with
    | none => exact C.refl w
    | some found =>
      obtain ⟨v, cell⟩ := found
      refine C.trans ?_ (hr hp _)
      have hm : (w.taken v cell value).past =
          [⟨.change v value, (w.given v cell value).toSituation⟩, ⟨.take v value, w.toSituation⟩] ++
            w.past := rfl
      refine ⟨_, hm, fun _ i => i.extend hm (fun e he hm => ?_) rfl (i.agrees.taken i.texts hk)⟩
      rcases List.mem_cons.mp he with rfl | he
      · rcases hm with ⟨l, hl⟩ | ⟨j, hj⟩ <;> contradiction
      · obtain rfl := List.mem_singleton.mp he
        rcases hm with ⟨l, hl⟩ | ⟨j, hj⟩ <;> contradiction

end AgreesSince

end LiveSvg
