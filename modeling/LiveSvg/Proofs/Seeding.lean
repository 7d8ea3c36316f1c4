import LiveSvg.Proofs.Agreement
import LiveSvg.Proofs.Loading
/-!
The first values: putting a visual in place leaves every cell with what the settings say for the last
behavior that is declared with its id.
-/

namespace LiveSvg

open Script (Datum Members Memory)
open Settings (Table)

variable {w w' : World}

/-- What a value becomes where it is one of a type; only texts name types. -/
def Value.normalizedAs (v type : Value) : Value :=
  match type with
  | .text t => v.normalize t
  | _ => v

/-- What a behavior starts with where its settings have a default. -/
def Behavior.firstValue (b : Behavior) (default : Value) : Value :=
  match b.kind with
  | .value type _ _ _ _ _ => default.normalizedAs type
  | _ => default

/-- Under each value id scripts see what the settings say for the last of some behaviors that is
declared with it. -/
def Situation.Seeded (s : Situation) (bs : List Behavior) : Prop :=
  ∀ pre b post id, bs = pre ++ b :: post → b.valueId? = some id →
    (∀ b' ∈ post, b'.valueId? ≠ some id) →
      ∃ a d, s.visual.settings.get? b.id = some (.acquisition a) ∧
        Members.get? s.values (.ofName id) = some d ∧ s.memory.Spells d (b.firstValue a.default)

namespace Run

/-! ### The first value of a behavior -/

theorem normalize_ok {d d' : Datum} {v type : Value} (hs : w.memory.Spells d v)
    (h : normalize d type w = .ok d' w') :
    ∃ m, w' = { w with memory := m } ∧ w.memory.Grows m ∧
      m.Spells d' (v.normalizedAs type) := by
  by_cases hd : d = .null
  · subst hd
    obtain rfl : v = .null := by cases v <;> simp [Memory.Spells] at hs ⊢
    cases type with
    | text t =>
      obtain ⟨rfl, rfl⟩ : (w.memory.load (Value.normalize .null t)).1 = d' ∧
          { w with memory := (w.memory.load (Value.normalize .null t)).2 } = w' := by
        cases h; exact ⟨rfl, rfl⟩
      exact ⟨_, rfl, Memory.load_grows _ _, Memory.load_spells _ _⟩
    | list _ | object _ => cases h
    | _ => cases h; exact ⟨_, rfl, Memory.grows_refl _, hs⟩
  · have hv : v ≠ .null := by
      rintro rfl
      exact hd (by simpa [Memory.Spells] using hs)
    have hn : v.normalizedAs type = v := by
      cases type <;> cases v <;> simp [Value.normalizedAs, Value.normalize] at hv ⊢
    have hk : normalize d type w = .ok d w := by
      cases d <;> first | exact absurd rfl hd | rfl
    rw [hk] at h
    cases h
    exact ⟨_, rfl, Memory.grows_refl _, by rw [hn]; exact hs⟩

/-- The cell of an id after it has been given its first value. -/
def seeded (cells : Table (Cell Datum Value)) (id : Value) (d : Datum) : Cell Datum Value :=
  match cells.get? id with
  | some cell => cell.reset d
  | none => ({ value := d } : Cell Datum Value).subscribe id

/-- A behavior that takes a value in gives its id the first value that the settings say, and gets a
getter. -/
theorem setUp_ok {b : Behavior} (h : setUp b w = .ok () w') :
    w.memory.Grows w'.memory ∧
      match b.valueId? with
      | none => w'.past = w.past ∧ w'.values = w.values ∧ w'.visual.cells = w.visual.cells ∧
        w'.visual.getters = w.visual.getters
      | some id => ∃ key a d s, keyDatum id = .ok key ∧
        w.visual.settings.get? b.id = some (.acquisition a) ∧
        w'.memory.Spells d (b.firstValue a.default) ∧ w'.past = ⟨.seed id d, s⟩ :: w.past ∧
        w'.values = Members.set w.values key d ∧
        w'.visual.cells = w.visual.cells.set id (seeded w.visual.cells id d) ∧
        ∃ g, g.behavior = b.id ∧ w'.visual.getters = w.visual.getters.push g := by
  unfold setUp at h
  rw [get_bind] at h
  dsimp only at h
  cases hk : b.kind with
  | value type default id t f st =>
    rw [hk] at h
    cases hs : w.visual.settings.get? b.id with
    | none => rw [hs] at h; cases h
    | some entry =>
      rw [hs] at h
      cases entry with
      | acquisition a =>
        obtain ⟨_, w₁, hl, h⟩ := bind_eq_ok.mp h
        cases hl
        obtain ⟨d, w₂, hn, h⟩ := bind_eq_ok.mp h
        obtain ⟨m, rfl, hg, hd⟩ := normalize_ok (Memory.load_spells w.memory a.default) hn
        obtain ⟨_, w₃, he, h⟩ := bind_eq_ok.mp h
        unfold seed at he
        cases hi : keyDatum id with
        | error f => rw [hi] at he; cases he
        | ok key =>
          rw [hi] at he
          cases he
          cases h
          refine ⟨Memory.grows_trans (Memory.load_grows _ _) hg, ?_⟩
          simp only [Behavior.valueId?, hk]
          refine ⟨key, a, d, _, hi, rfl, ?_, rfl, rfl, rfl, _, ?_, rfl⟩
          · simp only [Behavior.firstValue, hk]
            exact hd
          · rfl
      | _ => cases h
  | action dataType constant function =>
    rw [hk] at h
    simp only [Behavior.valueId?, hk]
    cases hs : w.visual.settings.get? b.id with
    | none => rw [hs] at h; cases h
    | some entry =>
      rw [hs] at h
      cases entry with
      | dispatch s =>
        cases h
        exact ⟨Memory.grows_refl _, rfl, rfl, rfl, rfl⟩
      | _ => cases h
  | widget =>
    rw [hk] at h
    simp only [Behavior.valueId?, hk]
    cases h
    exact ⟨Memory.grows_refl _, rfl, rfl, rfl, rfl⟩

end Run

/-! ### The first values of all behaviors -/

/-- One more behavior adds its own first value and leaves those of other ids. -/
theorem Situation.Seeded.snoc {s s' : Situation} {bs : List Behavior} (h : s.Seeded bs)
    (hm : s.memory.Grows s'.memory) (hs : s'.visual.settings = s.visual.settings) {b : Behavior}
    (old : ∀ c ∈ bs, ∀ id, c.valueId? = some id → b.valueId? ≠ some id →
      Members.get? s'.values (.ofName id) = Members.get? s.values (.ofName id))
    (new : ∀ id, b.valueId? = some id → ∃ a d, s'.visual.settings.get? b.id = some (.acquisition a) ∧
      Members.get? s'.values (.ofName id) = some d ∧ s'.memory.Spells d (b.firstValue a.default)) :
    s'.Seeded (bs ++ [b]) := by
  intro pre c post id hp hc hl
  rcases List.eq_nil_or_concat post with rfl | ⟨front, last, rfl⟩
  · obtain ⟨-, hb⟩ := List.append_inj' hp rfl
    cases hb
    exact new id hc
  · rw [List.concat_eq_append, ← List.cons_append, ← List.append_assoc] at hp
    obtain ⟨rfl, hb⟩ := List.append_inj' hp rfl
    cases hb
    obtain ⟨a, d, ha, hg, hd⟩ := h pre c front id rfl hc fun b' hb => hl b' (by simp [hb])
    refine ⟨a, d, by rw [hs]; exact ha, ?_, hd.grow hm⟩
    rw [old c (by simp) id hc (hl b (by simp))]
    exact hg

namespace Run

/-- Setting up behaviors one by one leaves one cell for each id, and the first values of the last
behaviors in them. -/
theorem setUps_ok {todo done : List Behavior} (hh : w.Holds (done.filterMap (·.valueId?)))
    (hs : w.Seeded done) (ht : AllTexts ((done ++ todo).filterMap (·.valueId?)))
    (h : todo.forM setUp w = .ok () w') :
    w'.Holds ((done ++ todo).filterMap (·.valueId?)) ∧ w'.Seeded (done ++ todo) := by
  induction todo generalizing w done with
  | nil =>
    cases h
    simpa using ⟨hh, hs⟩
  | cons b todo ih =>
    obtain ⟨_, w₁, h₁, h⟩ := bind_eq_ok.mp h
    obtain ⟨hm, hb⟩ := setUp_ok h₁
    have hset := ((setUp_kept b).leads h₁).settings
    have hw : w₁.Holds ((done ++ [b]).filterMap (·.valueId?)) ∧ w₁.Seeded (done ++ [b]) := by
      cases hi : b.valueId? with
      | none =>
        rw [hi] at hb
        constructor
        · simpa [hi] using hh.congr hb.2.1 hb.2.2.1
        · exact hs.snoc hm hset (fun _ _ _ _ _ => by rw [hb.2.1]) fun id k => by simp [hi] at k
      | some id =>
        rw [hi] at hb
        obtain ⟨key, a, d, -, hkey, ha, hsp, -, hv, hc, -⟩ := hb
        obtain ⟨t, rfl⟩ := ht id (by simp [hi])
        cases hkey
        have hcell : (seeded w.visual.cells (.text t) d).isClosed = false ∧
            (seeded w.visual.cells (.text t) d).subscribers = [.text t] ∧
              (seeded w.visual.cells (.text t) d).value = d := by
          unfold seeded
          cases hg : w.visual.cells.get? (.text t) with
          | none => simp [Cell.subscribe]
          | some cell =>
            obtain ⟨c, hc', -, ho, hs⟩ := hh.held _ (hh.only hg)
            obtain rfl : cell = c := Option.some.inj (hg.symm.trans hc')
            simp [Cell.reset, ho, hs]
        constructor
        · refine hh.set t hcell.1 hcell.2.1 (by rw [hcell.2.2]; exact hv) hc ?_ ?_
          · intro id
            simp [hi, or_comm]
          · exact fun id hid => ht id (by
              simp only [List.filterMap_append, List.mem_append]
              exact .inl hid)
        · refine hs.snoc hm hset (fun c hcm id hci hne => ?_) fun id hid => ?_
          · obtain ⟨u, rfl⟩ := ht id (by
              rw [List.mem_filterMap]
              exact ⟨c, by simp [hcm], hci⟩)
            rw [hv]
            exact Members.get?_set_of_ne _ (fun k => hne (by rw [hi, k])) _
          · obtain rfl : Value.text t = id := Option.some.inj (hi.symm.trans hid)
            exact ⟨a, d, by rw [hset]; exact ha, by rw [hv]; exact Members.get?_set_self _ _ _, hsp⟩
    have i := ih hw.1 hw.2 (by simpa using ht) h
    rw [List.append_assoc] at i
    exact i

theorem Cells.calm : Calm fun a b => b.visual.cells = a.visual.cells where
  refl _ := rfl
  trans h k := k.trans h
  stir h := h.alike.cells

theorem Cells.adopting : Adopting fun a b => b.visual.cells = a.visual.cells where
  toGentle := Cells.calm.toGentle
  known _ _ _ _ _ := rfl
  adopt _ _ _ _ _ _ := rfl
  clear _ := rfl

/-- A visual is put in place with values and cells in agreement, and with what its settings, as
resolved for its descriptor and its overrides, say for the last behavior with each id. -/
theorem place_seeds (hc : w.visual.cells = []) (h : place w = .ok () w')
    (ht : AllTexts w'.visual.descriptor.valueIds) :
    w'.Agrees ∧ w'.Seeded w'.visual.descriptor.behaviors ∧
      (Settings.resolve w'.visual.descriptor w.visual.overrides).2 = .ok w'.visual.settings := by
  obtain ⟨w₁, hr, k, hv, -, -, -, -, hs, hu⟩ := place_ok h
  have hc : w₁.visual.cells = [] := (hr Cells.adopting).trans hc
  have hh : w₁.Holds [] := by
    refine ⟨fun k => by simp [hv], by simp [hv], fun id h => absurd h (by simp), fun h => ?_⟩
    rw [hc] at h
    cases h
  have h0 : w₁.Seeded [] := by
    intro pre b post id h
    simp at h
  have hw := setUps_ok hh h0 (by rw [← k.descriptor]; exact ht) hu
  unfold Situation.Agrees
  rw [k.descriptor]
  exact ⟨hw.1, hw.2, by rw [k.settings]; exact hs⟩

end Run

namespace World

/-- A visual that has not been loaded has no cells. -/
theorem Waiting.cells {w : World} (h : w.Waiting) : w.visual.cells = [] := by
  have C : Calm fun a b => a.visual.cells = [] → b.visual.cells = [] :=
    { toCourse := Course.keeps fun w => w.visual.cells = []
      stir := fun h k => h.alike.cells.trans k }
  have D := C.driven (fun _ _ => id) (fun _ _ => id) (fun _ _ _ => id) (fun _ _ _ _ => id)
    (fun r c w k => (congrArg Visual.cells (Run.store_visual r c w)).trans k) (fun _ => id)
    (fun _ _ _ _ => id) fun w id cell _ hg k => by rw [k] at hg; cases hg
  induction h with
  | setup s => rfl
  | @step s w _ ih =>
    by_cases hs : s = .destroy
    · subst hs
      unfold Step.after Step.run Run.destroy
      rw [Run.after_get_bind]
      cases w.visual.isDestroyed with
      | true => exact ih
      | false => exact congrArg (List.map _) ih
    · exact D.step hs (fun _ => D.turn D.steady.plays fun _ _ => id) _ ih

end World

/-- A drawing with a value and an element that carries a tag. -/
def lampSetup : World.Setup where
  path := "lamp"
  documents := [("lamp", "<svg xmlns:t='https://thingsboard.io/svg'><t:metadata>" ++
    "\x7b\"behavior\":[\x7b\"id\":1,\"type\":\"value\",\"valueId\":\"v\"\x7d]," ++
    "\"tags\":[\x7b\"tag\":\"g\"\x7d]\x7d</t:metadata><g t:tag='g'/></svg>")]

end LiveSvg
