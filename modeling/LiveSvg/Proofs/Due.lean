import LiveSvg.Proofs.Equality
import LiveSvg.Proofs.Ordering
import LiveSvg.Proofs.Tasks
/-!
What a turn of a clock takes: all that is due, as long as every timer is due at a number. A time that is none
has no place among the others, and keeps what stands below it in the heap from being seen.
-/

namespace LiveSvg

/-! ### The order of numbers -/

namespace Number.Binary64

variable {x y : Binary64}

theorem Place.compare_eq_lt_iff_size {p q : Place} (hp : p.Proper) (hq : q.Proper) :
    p.compare q = .lt ↔ p.size < q.size := by
  cases p <;> cases q
  case point.point n d m e =>
    have hd : (0 : ℚ) < d := Nat.cast_pos.mpr hp
    have he : (0 : ℚ) < e := Nat.cast_pos.mpr hq
    rw [size, size, WithBot.coe_lt_coe, WithTop.coe_lt_coe, div_lt_div_iff₀ hd he, compare, compare_lt_iff_lt]
    exact_mod_cast Iff.rfl
  case point.above => exact iff_of_true rfl (WithBot.coe_lt_coe.mpr (WithTop.coe_lt_top _))
  all_goals simp [compare, size]

/-- The size of a number. -/
def size (x : Binary64) : Place.Size := (x.place?.map Place.size).getD ⊥

theorem size_eq {p : Place} (h : x.place? = some p) : x.size = p.size := by
  rw [size, h]
  rfl

theorem less_iff (hx : x.isNaN = false) (hy : y.isNaN = false) : x.less y = true ↔ x.size < y.size := by
  obtain ⟨p, hp⟩ := place?_isSome hx
  obtain ⟨q, hq⟩ := place?_isSome hy
  have hc : x.compare? y = some (p.compare q) := by
    rw [compare?, hp, hq]
    rfl
  rw [less, hc, size_eq hp, size_eq hq, ← Place.compare_eq_lt_iff_size (place?_proper hp) (place?_proper hq)]
  simp

theorem atMost_iff (hx : x.isNaN = false) (hy : y.isNaN = false) : x.atMost y = true ↔ x.size ≤ y.size := by
  obtain ⟨p, hp⟩ := place?_isSome hx
  obtain ⟨q, hq⟩ := place?_isSome hy
  have hc : x.compare? y = some (p.compare q) := by
    rw [compare?, hp, hq]
    rfl
  rw [atMost, Bool.or_eq_true, less_iff hx hy, hc, le_iff_lt_or_eq, size_eq hp, size_eq hq,
    ← Place.compare_eq_iff_size (place?_proper hp) (place?_proper hq)]
  simp

theorem isNaN_of_atMost (h : x.atMost y = true) : x.isNaN = false := by
  cases x with
  | nan => cases h
  | _ => rfl

/-- What is at most one number is at most every greater one. -/
theorem atMost_trans {z : Binary64} (h : x.atMost y = true) (hy : y.isNaN = false) (hz : z.isNaN = false)
    (hs : y.size ≤ z.size) : x.atMost z = true := by
  have hx := isNaN_of_atMost h
  exact (atMost_iff hx hz).mpr (((atMost_iff hx hy).mp h).trans hs)

end Number.Binary64

/-! ### Turns -/

namespace Clock

open Number (Binary64)

variable {α : Type} {c : Clock α} {timers : Array (Timer α)} {t : Timer α}

/-- The time of a timer, by which timers are kept in order. -/
def dueSize (t : Timer α) : Binary64.Place.Size := t.due.size

/-- Timers that are all due at a number, in their order. -/
structure Sorted (timers : Array (Timer α)) : Prop where
  numbers : ∀ t ∈ timers, t.due.isNaN = false
  ordered : Heap.Ordered dueSize timers

theorem byKey {items : List (Timer α)} (h : ∀ t ∈ items, t.due.isNaN = false) :
    Heap.ByKey sooner dueSize items :=
  fun s hs t ht => Binary64.less_iff (h s hs) (h t ht)

theorem Sorted.empty : Sorted (#[] : Array (Timer α)) where
  numbers t ht := absurd ht (Array.not_mem_empty t)
  ordered := ⟨fun _ hx => by simp at hx⟩

/-- A new timer takes its place. -/
theorem Sorted.after (h : Sorted c.timers) {seconds : Binary64} (hd : (c.now.add seconds).isNaN = false) (job : α) :
    Sorted (c.after seconds job).1.timers := by
  have hnumbers : ∀ u ∈ (⟨c.now.add seconds, c.nextId, job, true⟩ : Timer α) :: c.timers.toList,
      u.due.isNaN = false := by
    intro u hu
    rcases List.mem_cons.mp hu with rfl | hu
    · exact hd
    · exact h.numbers u (Array.mem_toList_iff.mp hu)
  refine ⟨fun u hu => hnumbers u ?_, Heap.push_ordered (byKey hnumbers) h.ordered⟩
  exact (Heap.push_perm sooner c.timers _).subset (Array.mem_toList_iff.mpr hu)

/-- A timer that is cancelled stays in its place. -/
theorem Sorted.cancel (h : Sorted c.timers) (id : Nat) : Sorted (c.cancel id).timers := by
  have hdue : ∀ u : Timer α, (if u.id = id then { u with isLive := false } else u).due = u.due := by
    intro u
    split <;> rfl
  constructor
  · intro u hu
    obtain ⟨v, hv, rfl⟩ := Array.mem_map.mp hu
    rw [hdue]
    exact h.numbers v hv
  · refine ⟨fun {child place x y} hc hx hy => ?_⟩
    rw [Clock.cancel, Array.getElem?_map] at hx hy
    obtain ⟨u, hu, rfl⟩ := Option.map_eq_some_iff.mp hx
    obtain ⟨v, hv, rfl⟩ := Option.map_eq_some_iff.mp hy
    rw [dueSize, dueSize, hdue, hdue]
    exact h.ordered.le hc hu hv

theorem Sorted.pop (h : Sorted timers) {rest : Array (Timer α)} (hp : Heap.pop? sooner timers = some (t, rest)) :
    Sorted rest ∧ ∀ u ∈ timers, t.due.size ≤ u.due.size := by
  have hk := byKey (fun u hu => h.numbers u (Array.mem_toList_iff.mp hu))
  obtain ⟨hr, hm⟩ := Heap.pop?_ordered hk h.ordered hp
  refine ⟨⟨fun u hu => h.numbers u ?_, hr⟩, hm⟩
  exact Array.mem_toList_iff.mp ((Heap.pop?_perm hp).symm.subset
    (List.mem_cons_of_mem _ (Array.mem_toList_iff.mpr hu)))

/-- Only timers that were cancelled are dropped. -/
theorem Sorted.dropCancelled (h : Sorted timers) (fuel : Nat) : Sorted (dropCancelled fuel timers) ∧
    ∀ u ∈ timers, u.isLive = true → u ∈ Clock.dropCancelled fuel timers := by
  induction fuel generalizing timers with
  | zero => exact ⟨h, fun _ hu _ => hu⟩
  | succ fuel ih =>
    rw [Clock.dropCancelled]
    split
    · rename_i t rest hp
      split
      · exact ⟨h, fun _ hu _ => hu⟩
      · rename_i hl
        obtain ⟨hs, hlive⟩ := ih (h.pop hp).1
        refine ⟨hs, fun u hu hlu => ?_⟩
        rcases List.mem_cons.mp ((Heap.pop?_perm hp).subset (Array.mem_toList_iff.mpr hu)) with rfl | hr
        · exact absurd hlu hl
        · exact hlive u (Array.mem_toList_iff.mp hr) hlu
    · exact ⟨h, fun _ hu _ => hu⟩

theorem isDue_of_taken {fuel : Nat} (h : t ∈ (c.takeDue fuel timers).1) : c.isDue t = true := by
  induction fuel generalizing timers with
  | zero => exact absurd h List.not_mem_nil
  | succ fuel ih =>
    rw [takeDue] at h
    split at h
    · split at h
      · rename_i hd
        rcases List.mem_cons.mp h with rfl | h
        · exact hd
        · exact ih h
      · exact absurd h List.not_mem_nil
    · exact absurd h List.not_mem_nil

theorem pop?_none (h : Heap.pop? (α := Timer α) sooner timers = none) : timers = #[] := by
  unfold Heap.pop? at h
  split at h
  · rename_i hb
    exact Array.back?_eq_none_iff.mp hb
  · split at h <;> cases h

/-- Everything that is due is taken. -/
theorem Sorted.takeDue (h : Sorted timers) {fuel : Nat} (hf : timers.size ≤ fuel) :
    Sorted (c.takeDue fuel timers).2 ∧ ∀ u ∈ timers, c.isDue u = true → u ∈ (c.takeDue fuel timers).1 := by
  induction fuel generalizing timers with
  | zero =>
    have hempty : timers = #[] := Array.eq_empty_of_size_eq_zero (Nat.le_zero.mp hf)
    subst hempty
    exact ⟨h, fun u hu => absurd hu (Array.not_mem_empty u)⟩
  | succ fuel ih =>
    rw [Clock.takeDue]
    split
    · rename_i t rest hp
      have hperm := Heap.pop?_perm hp
      obtain ⟨hrest, hleast⟩ := h.pop hp
      have hmem : ∀ u ∈ timers, u = t ∨ u ∈ rest := fun u hu => by
        simpa using hperm.subset (Array.mem_toList_iff.mpr hu)
      split
      · have hlen := hperm.length_eq
        rw [List.length_cons, Array.length_toList, Array.length_toList] at hlen
        obtain ⟨hs, htaken⟩ := ih hrest (by omega)
        refine ⟨hs, fun u hu hd => ?_⟩
        rcases hmem u hu with rfl | hr
        · exact List.mem_cons_self ..
        · exact List.mem_cons_of_mem _ (htaken u hr hd)
      · rename_i hd
        refine ⟨h, fun u hu hdu => absurd hdu ?_⟩
        have ht : t ∈ timers := Array.mem_toList_iff.mp (hperm.symm.subset (List.mem_cons_self ..))
        unfold isDue at hd ⊢
        have hmost := Binary64.atMost_trans (by simpa using hd) (h.numbers t ht) (h.numbers u hu) (hleast u hu)
        simp [hmost]
    · rename_i hp
      rw [pop?_none hp]
      exact ⟨.empty, fun u hu => absurd hu (Array.not_mem_empty u)⟩

/-- A turn takes what is ready and the live timers that are due, and leaves those that are not. -/
structure Takes (c : Clock α) : Prop where
  sorted : Sorted c.turn.2.timers
  due : ∀ t ∈ c.timers, t.isLive = true → c.isDue t = true → t.job ∈ c.turn.1
  kept : ∀ t ∈ c.timers, t.isLive = true → t ∈ c.turn.2.timers ∨ t.job ∈ c.turn.1
  left : ∀ t ∈ c.turn.2.timers, t ∈ c.timers
  taken : ∀ j ∈ c.turn.1, j ∈ c.ready ∨ ∃ t ∈ c.timers, c.isDue t = true ∧ t.job = j

theorem Sorted.turn (h : Sorted c.timers) : c.Takes := by
  obtain ⟨-, hkeep⟩ := dropCancelled_keeps c.timers.size c.timers
  obtain ⟨hs, hlive⟩ := h.dropCancelled c.timers.size
  obtain ⟨timers, ht⟩ : ∃ timers, timers = Clock.dropCancelled c.timers.size c.timers := ⟨_, rfl⟩
  rw [← ht] at hkeep hs hlive
  have hperm := takeDue_perm c timers.size timers
  obtain ⟨hsorted, htaken⟩ := hs.takeDue (c := c) le_rfl
  have hturn : c.turn = (c.ready ++ ((c.takeDue timers.size timers).1.filter (·.isLive)).map (·.job),
      { c with ready := [], timers := (c.takeDue timers.size timers).2 }) := by
    rw [ht]
    rfl
  have hjob : ∀ t ∈ (c.takeDue timers.size timers).1, t.isLive = true → t.job ∈ c.turn.1 := by
    intro t hm hl
    rw [hturn]
    exact List.mem_append_right _ (List.mem_map_of_mem (List.mem_filter.mpr ⟨hm, hl⟩))
  have hsplit : ∀ t, t ∈ timers ↔ t ∈ (c.takeDue timers.size timers).1 ∨ t ∈ (c.takeDue timers.size timers).2 := by
    intro t
    rw [← Array.mem_toList_iff, hperm.mem_iff, List.mem_append, Array.mem_toList_iff]
  refine ⟨by rw [hturn]; exact hsorted, fun t hm hl hd => hjob t (htaken t (hlive t hm hl) hd) hl,
    fun t hm hl => ?_, fun t hm => ?_, fun j hj => ?_⟩
  · rcases (hsplit t).mp (hlive t hm hl) with hm | hm
    · exact .inr (hjob t hm hl)
    · rw [hturn]
      exact .inl hm
  · rw [hturn] at hm
    exact hkeep t ((hsplit t).mpr (.inr hm))
  · rw [hturn] at hj
    rcases List.mem_append.mp hj with hj | hj
    · exact .inl hj
    · obtain ⟨t, hm, rfl⟩ := List.mem_map.mp hj
      obtain ⟨hm, -⟩ := List.mem_filter.mp hm
      exact .inr ⟨t, hkeep t ((hsplit t).mpr (.inl hm)), isDue_of_taken hm, rfl⟩

end Clock

end LiveSvg
