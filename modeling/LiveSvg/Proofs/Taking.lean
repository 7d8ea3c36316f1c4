import LiveSvg.Proofs.Seeding
/-!
Which new values are taken. A cell holds what was given last under any name of its id, so that the
past of a world says which values differ from what is there.
-/

namespace LiveSvg

open Script (Datum Members)
open Descriptor (sameName)

variable {play : Player} {ids : List Value} {w w' : World} {id k : Value}

/-- The value that an event gives to an id, be it the first one or a later one. -/
def Event.given? (e : Event) (id : Value) : Option Datum :=
  match e.deed with
  | .seed k value => if sameName k id then some value else none
  | .take k value => if sameName k id then some value else none
  | _ => none

/-- The value that was given last to an id, by whatever way. -/
def lastGiven (past : List Event) (id : Value) : Option Datum := past.findSome? (·.given? id)

/-- The value id that a name stands for: the first one that is the same. -/
def Descriptor.valueIdOf? (d : Descriptor) (id : Value) : Option Value :=
  d.valueIds.find? (sameName · id)

theorem lastGiven_cons (e : Event) (past : List Event) (id : Value) :
    lastGiven (e :: past) id = (e.given? id).or (lastGiven past id) := by
  unfold lastGiven
  rw [List.findSome?_cons]
  cases e.given? id <;> rfl

theorem Deed.given?_of_isPlain {deed : Deed} (h : deed.isPlain) (s : Situation) (id : Value) :
    Event.given? ⟨deed, s⟩ id = none := by
  cases deed <;> first | rfl | cases h

namespace World

/-- Under every name of one of some ids there is an open cell, which holds what was given last under
that name and has been subscribed to once, for the first of the ids that are the same. Under other
names there is none. -/
structure Recalls (ids : List Value) (w : World) : Prop where
  plain : ∀ id ∈ ids, Descriptor.isName id
  held {id k : Value} : ids.find? (sameName · id) = some k → ∃ cell, w.visual.cells.get? id = some cell ∧
    cell.isClosed = false ∧ cell.subscribers = [k] ∧ lastGiven w.past id = some cell.value
  none {id : Value} : ids.find? (sameName · id) = none → w.visual.cells.get? id = none

namespace Recalls

theorem congr (h : w.Recalls ids) (hc : w'.visual.cells = w.visual.cells)
    (hl : ∀ id, lastGiven w'.past id = lastGiven w.past id) : w'.Recalls ids where
  plain := h.plain
  held hk := by rw [hc, hl]; exact h.held hk
  none hk := by rw [hc]; exact h.none hk

/-- An event that gives no value leaves the last ones as they are. -/
theorem event (h : w.Recalls ids) {e : Event} (hc : w'.visual.cells = w.visual.cells)
    (hp : w'.past = e :: w.past) (he : ∀ id, e.given? id = Option.none) : w'.Recalls ids :=
  h.congr hc fun id => by rw [hp, lastGiven_cons, he]; rfl

theorem find_plain (h : w.Recalls ids) (hk : ids.find? (sameName · id) = some k) :
    sameName k id = true ∧ Descriptor.isName k ∧ Descriptor.isName id := by
  have hs : sameName k id = true := by simpa using List.find?_some hk
  have hp := h.plain k (List.mem_of_find?_eq_some hk)
  exact ⟨hs, hp, (Descriptor.isName_eq hs).symm.trans hp⟩

/-- The id under which a cell is found is a name of one of the ids. -/
theorem of_get? (h : w.Recalls ids) {cell : Cell Datum Value} (hg : w.visual.cells.get? id = some cell) :
    ∃ k, ids.find? (sameName · id) = some k := by
  cases hk : ids.find? (sameName · id) with
  | none => rw [h.none hk] at hg; cases hg
  | some k => exact ⟨k, rfl⟩

/-- A first value sets up the cell of an id that is new, and is given to the cell of one that is not. -/
theorem seed (h : w.Recalls ids) (hi : Descriptor.isName id) {d : Datum} {s : Situation}
    (hp : w'.past = ⟨.seed id d, s⟩ :: w.past)
    (hc : w'.visual.cells = w.visual.cells.set id (Run.seeded w.visual.cells id d)) :
    w'.Recalls (ids ++ [id]) where
  plain k hk := by
    rcases List.mem_append.mp hk with hk | hk
    · exact h.plain k hk
    · rw [List.mem_singleton.mp hk]
      exact hi
  held {n k} hk := by
    rw [hc, hp, Settings.Table.get?_set _ hi, lastGiven_cons]
    rw [List.find?_append] at hk
    by_cases hn : sameName id n
    · have hg : w.visual.cells.get? id = w.visual.cells.get? n := Settings.Table.get?_congr _ hi hn
      rw [if_pos hn]
      refine ⟨_, rfl, ?_⟩
      simp only [Event.given?, if_pos hn, Run.seeded, hg]
      cases hf : ids.find? (sameName · n) with
      | none =>
        simp [hf, hn] at hk
        simp [h.none hf, Cell.subscribe, hk]
      | some j =>
        obtain ⟨cell, hcell, ho, hs, -⟩ := h.held hf
        obtain rfl : j = k := by simpa [hf] using hk
        simp [hcell, Cell.reset, ho, hs]
    · have hf : ids.find? (sameName · n) = some k := by
        simpa [hn] using hk
      obtain ⟨cell, hcell, ho, hs, hl⟩ := h.held hf
      exact ⟨cell, by rw [if_neg hn, hcell], ho, hs, by simp [Event.given?, hn, hl]⟩
  none {n} hk := by
    rw [List.find?_append] at hk
    have hn : sameName id n = false := by
      cases hs : sameName id n with
      | false => rfl
      | true => simp [hs] at hk
    rw [hc, Settings.Table.get?_set _ hi, hn]
    exact h.none (by simpa [hn] using hk)

/-- A cell that takes a value holds what was given last. -/
theorem given (h : w.Recalls ids) {cell : Cell Datum Value} (hg : w.visual.cells.get? id = some cell)
    (value : Datum) : (w.given id cell value).Recalls ids where
  plain := h.plain
  held {n j} hj := by
    obtain ⟨k, hk⟩ := h.of_get? hg
    have hi := (h.find_plain hk).2.2
    obtain ⟨c, hc, ho, hs, hl⟩ := h.held hj
    change ∃ cell', (w.visual.cells.set id (cell.next value).1).get? n = some cell' ∧ _ ∧ _ ∧
      lastGiven (⟨.take id value, w.toSituation⟩ :: w.past) n = _
    rw [Settings.Table.get?_set _ hi, lastGiven_cons]
    by_cases hn : sameName id n
    · obtain rfl : c = cell := by
        rw [← Settings.Table.get?_congr _ hi hn, hg] at hc
        exact (Option.some.inj hc).symm
      rw [if_pos hn]
      refine ⟨_, rfl, ?_⟩
      simp [Event.given?, hn, Cell.next, ho, hs]
    · exact ⟨c, by rw [if_neg hn, hc], ho, hs, by simp [Event.given?, hn, hl]⟩
  none {n} hn := by
    obtain ⟨k, hk⟩ := h.of_get? hg
    have hi := (h.find_plain hk).2.2
    have hne : sameName id n = false := by
      cases hs : sameName id n with
      | false => rfl
      | true =>
        have hc := Settings.Table.get?_congr w.visual.cells hi hs
        rw [hg, h.none hn] at hc
        cases hc
    change (w.visual.cells.set id (cell.next value).1).get? n = _
    rw [Settings.Table.get?_set _ hi, hne]
    exact h.none hn

/-- Whatever happens to a visual that is not destroyed, its cells hold what was given last. -/
theorem driven (ids : List Value) : Driven fun a b => a.Recalls ids → b.Recalls ids := by
  have C : Calm fun a b => World.Recalls ids a → World.Recalls ids b :=
    { toCourse := Course.keeps fun w => World.Recalls ids w
      stir := fun {a b} h k => by
        have hc := h.alike.cells
        rcases h.past with ⟨hp, -⟩ | ⟨deed, hp, ⟨hd, -⟩ | ⟨d, rfl, -⟩⟩
        · exact k.congr hc fun id => by rw [hp]
        · exact k.event hc hp fun id => Deed.given?_of_isPlain hd _ id
        · exact k.event hc hp fun id => rfl }
  exact C.driven (fun _ _ k => k.congr rfl fun _ => rfl) (fun _ _ k => k.event rfl rfl fun _ => rfl)
    (fun _ _ _ k => k.event rfl rfl fun _ => rfl)
    (fun _ _ _ _ k => k.event rfl rfl fun _ => rfl)
    (fun r c w k => k.event (congrArg Visual.cells (Run.store_visual r c w)) (Run.store_past r c w)
      fun _ => rfl)
    (fun _ k => k.congr rfl fun _ => rfl) (fun _ _ _ _ k => k.event rfl rfl fun _ => rfl)
    fun w id cell value hg k => k.given hg value

end Recalls

end World

namespace Run

/-- Setting up behaviors one by one leaves a cell under every name of their value ids. -/
theorem setUps_recall (done : List Behavior) {todo : List Behavior}
    (h : w.Recalls (done.filterMap (·.valueId?)))
    (hk : todo.forM setUp w = .ok () w') : w'.Recalls ((done ++ todo).filterMap (·.valueId?)) := by
  induction todo generalizing w done with
  | nil =>
    cases hk
    simpa using h
  | cons b todo ih =>
    obtain ⟨_, w₁, h₁, hk⟩ := bind_eq_ok.mp hk
    obtain ⟨-, hb⟩ := setUp_ok h₁
    have hw : w₁.Recalls ((done ++ [b]).filterMap (·.valueId?)) := by
      cases hi : b.valueId? with
      | none =>
        rw [hi] at hb
        obtain ⟨hp, -, hc, -⟩ := hb
        simpa [hi] using h.congr hc fun id => by rw [hp]
      | some id =>
        rw [hi] at hb
        obtain ⟨key, a, d, s, hkey, -, -, hp, -, hc, -⟩ := hb
        have hid : Descriptor.isName id := by cases id <;> first | rfl | cases hkey
        simpa [hi] using h.seed hid hp hc
    have i := ih _ hw hk
    rwa [List.append_assoc] at i

theorem place_recalls (hc : w.visual.cells = []) (h : place w = .ok () w') :
    w'.Recalls w'.visual.descriptor.valueIds := by
  obtain ⟨w₁, hr, k, -, -, -, -, -, -, hu⟩ := place_ok h
  have h0 : w₁.Recalls [] := by
    refine ⟨fun _ h => absurd h (by simp), fun h => absurd h (by simp), fun _ => ?_⟩
    rw [hr Cells.adopting, hc]
    rfl
  rw [k.descriptor]
  exact setUps_recall [] h0 hu

end Run

/-- In every live world that follows a visual put in place, the cells hold what was given last. -/
theorem World.Follows.recalls {w₁ : World} (h : w₁.Follows w) (h₁ : w₁.Placed) (live : w.isLive) :
    w.Recalls w.visual.descriptor.valueIds := by
  obtain ⟨w₀, h₀, hp⟩ := h₁
  have hd : w.visual.descriptor = w₁.visual.descriptor :=
    descriptor_driven.follows (fun _ _ => rfl) h live
  rw [hd]
  exact (Recalls.driven _).follows (fun _ _ k => k.event rfl rfl fun _ => rfl) h live
    (Run.place_recalls h₀.cells hp)

end LiveSvg
