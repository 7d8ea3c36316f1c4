import LiveSvg.Proofs.Heap
import Mathlib.Order.Lattice
/-!
Heaps keep their items in order where items are compared by keys: none has a lesser key than its parent, and
what is taken out of a heap is an item with the least key.
-/

namespace LiveSvg.Heap

variable {α κ : Type} [LinearOrder κ] {less : α → α → Bool} {key : α → κ} {a : Array α} {hole : Nat} {item : α}

/-- A place stands below another one. -/
def IsBelow (child place : Nat) : Prop := 0 < child ∧ (child - 1) / 2 = place

theorem IsBelow.lt {child place : Nat} (h : IsBelow child place) : place < child := by
  unfold IsBelow at h
  omega

theorem IsBelow.cases {child place : Nat} (h : IsBelow child place) :
    child = 2 * place + 1 ∨ child = 2 * place + 2 := by
  unfold IsBelow at h
  omega

/-- No item has a lesser key than its parent. -/
structure Ordered (key : α → κ) (a : Array α) : Prop where
  le : ∀ {child place : Nat} {x y : α}, IsBelow child place → a[place]? = some x → a[child]? = some y →
    key x ≤ key y

/-- What keeps to the order around a place that is to be filled: all that does not touch it, and what stands
above it with what stands below it. -/
structure Gap (key : α → κ) (a : Array α) (hole : Nat) : Prop where
  apart : ∀ {child place : Nat} {x y : α}, IsBelow child place → child ≠ hole → place ≠ hole →
    a[place]? = some x → a[child]? = some y → key x ≤ key y
  across : ∀ {child place : Nat} {x y : α}, IsBelow hole place → IsBelow child hole →
    a[place]? = some x → a[child]? = some y → key x ≤ key y

/-- Whether items are compared by their keys. -/
def ByKey (less : α → α → Bool) (key : α → κ) (items : List α) : Prop :=
  ∀ x ∈ items, ∀ y ∈ items, less x y = true ↔ key x < key y

theorem ByKey.subset {items others : List α} (h : ByKey less key items) (hs : ∀ x ∈ others, x ∈ items) :
    ByKey less key others :=
  fun x hx y hy => h x (hs x hx) y (hs y hy)

/-- Filling the place with an item that is in order with what stands above and below it. -/
theorem Gap.fill (h : Gap key a hole) (habove : ∀ {place x}, IsBelow hole place → a[place]? = some x → key x ≤ key item)
    (hbelow : ∀ {child y}, IsBelow child hole → a[child]? = some y → key item ≤ key y) :
    Ordered key (a.setIfInBounds hole item) := by
  refine ⟨fun {child place x y} hc hx hy => ?_⟩
  rw [Array.getElem?_setIfInBounds] at hx hy
  by_cases hchild : hole = child
  · subst hchild
    rw [if_neg (Nat.ne_of_gt hc.lt)] at hx
    rw [if_pos rfl] at hy
    split at hy
    · cases hy
      exact habove hc hx
    · cases hy
  · rw [if_neg hchild] at hy
    by_cases hplace : hole = place
    · subst hplace
      rw [if_pos rfl] at hx
      split at hx
      · cases hx
        exact hbelow hc hy
      · cases hx
    · rw [if_neg hplace] at hx
      exact h.apart hc (Ne.symm hchild) (Ne.symm hplace) hx hy

/-! ### Rising -/

/-- The parent of the place moves down into it. -/
theorem Gap.lower (h : Gap key a hole) {above : Nat} {parent : α} (hb : IsBelow hole above)
    (hp : a[above]? = some parent) : Gap key (a.setIfInBounds hole parent) above := by
  have hlt := hb.lt
  constructor
  · intro child place x y hc hchild hplace hx hy
    rw [Array.getElem?_setIfInBounds] at hx hy
    have hne : hole ≠ child := by
      rintro rfl
      exact hplace (hc.2.symm.trans hb.2)
    rw [if_neg hne] at hy
    by_cases hh : hole = place
    · subst hh
      rw [if_pos rfl] at hx
      split at hx
      · cases hx
        exact h.across hb hc hp hy
      · cases hx
    · rw [if_neg hh] at hx
      exact h.apart hc (Ne.symm hne) (Ne.symm hh) hx hy
  · intro child place x y ha hc hx hy
    have hup := ha.lt
    rw [Array.getElem?_setIfInBounds] at hx hy
    rw [if_neg (by omega)] at hx
    have hparent := h.apart ha (by omega) (by omega) hx hp
    by_cases hh : hole = child
    · subst hh
      rw [if_pos rfl] at hy
      split at hy
      · cases hy
        exact hparent
      · cases hy
    · rw [if_neg hh] at hy
      exact hparent.trans (h.apart hc (Ne.symm hh) (by omega) hp hy)

theorem rise_ordered (hk : ByKey less key (item :: a.toList)) (h : Gap key a hole) (hs : hole < a.size)
    (hbelow : ∀ {child y}, IsBelow child hole → a[child]? = some y → key item ≤ key y) :
    Ordered key (rise less a hole item) := by
  induction hole using Nat.strongRecOn generalizing a with
  | ind hole ih =>
    rw [rise]
    split
    · subst hole
      exact h.fill (fun hb => absurd hb.lt (Nat.not_lt_zero _)) hbelow
    · rename_i hne
      have hb : IsBelow hole ((hole - 1) / 2) := ⟨Nat.pos_of_ne_zero hne, rfl⟩
      have hlt := hb.lt
      obtain ⟨parent, hp⟩ : ∃ parent, a[(hole - 1) / 2]? = some parent :=
        ⟨_, Array.getElem?_eq_getElem (Nat.lt_trans hlt hs)⟩
      have hm : parent ∈ a.toList := Array.mem_toList_iff.mpr (Array.mem_of_getElem? hp)
      dsimp only
      rw [hp]
      dsimp only
      have hless := hk item (List.mem_cons_self ..) parent (List.mem_cons_of_mem _ hm)
      split
      · rename_i hl
        have hitem := hless.mp hl
        refine ih _ hlt (hk.subset fun x hx => ?_) (h.lower hb hp) (by rw [Array.size_setIfInBounds]; omega) ?_
        · rcases List.mem_cons.mp hx with rfl | hx
          · exact List.mem_cons_self ..
          · rcases Array.mem_or_eq_of_mem_setIfInBounds (Array.mem_toList_iff.mp hx) with hx | rfl
            · exact List.mem_cons_of_mem _ (Array.mem_toList_iff.mpr hx)
            · exact List.mem_cons_of_mem _ hm
        · intro child y hc hy
          rw [Array.getElem?_setIfInBounds] at hy
          split at hy
          · cases hy
            exact hitem.le
          · exact hitem.le.trans (h.apart hc (Ne.symm ‹_›) (by omega) hp hy)
      · rename_i hl
        refine h.fill (fun hb' hx => ?_) hbelow
        rw [← hb'.2, hp] at hx
        cases hx
        exact not_lt.mp fun hlt => hl (hless.mpr hlt)

/-- Pushing an item keeps the order. -/
theorem push_ordered (hk : ByKey less key (item :: a.toList)) (h : Ordered key a) :
    Ordered key (push less a item) := by
  have hout : ∀ {child : Nat} {y : α}, a.size < child → (a.push item)[child]? ≠ some y := by
    intro child y hc hy
    obtain ⟨hs, -⟩ := Array.getElem?_eq_some_iff.mp hy
    rw [Array.size_push] at hs
    omega
  have hsize : a.size < (a.push item).size := by rw [Array.size_push]; exact Nat.lt_succ_self _
  refine rise_ordered (hk.subset fun x hx => ?_) ⟨?_, ?_⟩ hsize ?_
  · rcases List.mem_cons.mp hx with rfl | hx
    · exact List.mem_cons_self ..
    · rw [Array.toList_push, List.mem_append, List.mem_singleton] at hx
      exact List.mem_cons.mpr hx.symm
  · intro child place x y hc hchild hplace hx hy
    rw [Array.getElem?_push, if_neg hplace] at hx
    rw [Array.getElem?_push, if_neg hchild] at hy
    exact h.le hc hx hy
  · intro child place x y _ hc _ hy
    exact absurd hy (hout hc.lt)
  · intro child y hc hy
    exact absurd hy (hout hc.lt)

/-! ### Sinking -/

/-- The lesser child of a place is one, and no greater than the other. -/
theorem lesserChild_spec (hk : ByKey less key a.toList) {below : Nat} {child : α}
    (h : lesserChild less a hole = some (below, child)) : IsBelow below hole ∧ a[below]? = some child ∧
      ∀ {other y}, IsBelow other hole → a[other]? = some y → key child ≤ key y := by
  have hmem : ∀ {i : Nat} {x : α}, a[i]? = some x → x ∈ a.toList :=
    fun hx => Array.mem_toList_iff.mpr (Array.mem_of_getElem? hx)
  unfold lesserChild at h
  split at h
  · rename_i left right hl hr
    have hless := hk left (hmem hl) right (hmem hr)
    split at h <;> cases h <;> rename_i hc
    · refine ⟨⟨by omega, by omega⟩, hl, fun ho hy => ?_⟩
      rcases ho.cases with rfl | rfl
      · rw [hl] at hy
        cases hy
        exact le_rfl
      · rw [hr] at hy
        cases hy
        exact (hless.mp hc).le
    · refine ⟨⟨by omega, by omega⟩, hr, fun ho hy => ?_⟩
      rcases ho.cases with rfl | rfl
      · rw [hl] at hy
        cases hy
        exact not_lt.mp fun hlt => hc (hless.mpr hlt)
      · rw [hr] at hy
        cases hy
        exact le_rfl
  · rename_i left hl hr
    cases h
    refine ⟨⟨by omega, by omega⟩, hl, fun ho hy => ?_⟩
    rcases ho.cases with rfl | rfl
    · rw [hl] at hy
      cases hy
      exact le_rfl
    · rw [hr] at hy
      cases hy
  · cases h

theorem lesserChild_none (h : lesserChild less a hole = none) {child : Nat} {y : α} (hc : IsBelow child hole) :
    a[child]? ≠ some y := by
  unfold lesserChild at h
  split at h
  · split at h <;> cases h
  · cases h
  · rename_i hl
    rw [Array.getElem?_eq_none_iff] at hl
    intro hy
    obtain ⟨hs, -⟩ := Array.getElem?_eq_some_iff.mp hy
    rcases hc.cases with rfl | rfl <;> omega

/-- The lesser child of the place moves up into it. -/
theorem Gap.lift (h : Gap key a hole) {below : Nat} {child : α} (hb : IsBelow below hole)
    (hc : a[below]? = some child)
    (hmin : ∀ {other y}, IsBelow other hole → a[other]? = some y → key child ≤ key y) :
    Gap key (a.setIfInBounds hole child) below := by
  have hlt := hb.lt
  constructor
  · intro other place x y ho hother hplace hx hy
    rw [Array.getElem?_setIfInBounds] at hx hy
    by_cases hh : hole = other
    · subst hh
      rw [if_neg (Nat.ne_of_gt ho.lt)] at hx
      rw [if_pos rfl] at hy
      split at hy
      · cases hy
        exact h.across ho hb hx hc
      · cases hy
    · rw [if_neg hh] at hy
      by_cases hp : hole = place
      · subst hp
        rw [if_pos rfl] at hx
        split at hx
        · cases hx
          exact hmin ho hy
        · cases hx
      · rw [if_neg hp] at hx
        exact h.apart ho (Ne.symm hh) (Ne.symm hp) hx hy
  · intro other place x y hp ho hx hy
    obtain rfl : hole = place := hb.2.symm.trans hp.2
    have hlow := ho.lt
    rw [Array.getElem?_setIfInBounds] at hx hy
    rw [if_pos rfl] at hx
    rw [if_neg (by omega)] at hy
    split at hx
    · cases hx
      exact h.apart ho (by omega) (by omega) hc hy
    · cases hx

theorem sink_ordered (hk : ByKey less key (item :: a.toList)) {fuel : Nat} (h : Gap key a hole) (hs : hole < a.size)
    (hf : a.size ≤ hole + fuel) : Ordered key (sink less a fuel hole item) := by
  induction fuel generalizing a hole with
  | zero => omega
  | succ fuel ih =>
    rw [sink]
    split
    · rename_i below child hl
      obtain ⟨hb, hc, hmin⟩ := lesserChild_spec (hk.subset fun x hx => List.mem_cons_of_mem _ hx) hl
      obtain ⟨hsize, -⟩ := Array.getElem?_eq_some_iff.mp hc
      have hlt := hb.lt
      refine ih (hk.subset fun x hx => ?_) (h.lift hb hc hmin) (by rwa [Array.size_setIfInBounds])
        (by rw [Array.size_setIfInBounds]; omega)
      rcases List.mem_cons.mp hx with rfl | hx
      · exact List.mem_cons_self ..
      · refine List.mem_cons_of_mem _ (Array.mem_toList_iff.mpr ?_)
        rcases Array.mem_or_eq_of_mem_setIfInBounds (Array.mem_toList_iff.mp hx) with hx | rfl
        · exact hx
        · exact Array.mem_of_getElem? hc
    · exact rise_ordered hk h hs fun hc hy => absurd hy (lesserChild_none ‹_› hc)

/-- The item on top is a least one. -/
theorem Ordered.top_le (h : Ordered key a) {place : Nat} {x y : α} (hx : a[0]? = some x) (hy : a[place]? = some y) :
    key x ≤ key y := by
  induction place using Nat.strongRecOn generalizing y with
  | ind place ih =>
    by_cases h0 : place = 0
    · subst h0
      rw [hx] at hy
      cases hy
      exact le_rfl
    · have hb : IsBelow place ((place - 1) / 2) := ⟨Nat.pos_of_ne_zero h0, rfl⟩
      obtain ⟨hs, -⟩ := Array.getElem?_eq_some_iff.mp hy
      have hp := Array.getElem?_eq_getElem (Nat.lt_trans hb.lt hs)
      exact (ih _ hb.lt hp).trans (h.le hb hp hy)

/-- Taking out an item keeps the order, and no item has a lesser key than the one that is taken out. -/
theorem pop?_ordered (hk : ByKey less key a.toList) (h : Ordered key a) {rest : Array α} {x : α}
    (hp : pop? less a = some (x, rest)) : Ordered key rest ∧ ∀ y ∈ a, key x ≤ key y := by
  unfold pop? at hp
  split at hp
  · cases hp
  · rename_i last hl
    obtain ⟨front, rfl⟩ := Array.back?_eq_some_iff.mp hl
    rw [Array.pop_push] at hp
    split at hp
    · rename_i hn
      cases hp
      have hempty : rest = #[] := Array.eq_empty_of_size_eq_zero (by
        rw [Array.getElem?_eq_none_iff] at hn
        omega)
      subst hempty
      refine ⟨⟨fun _ hx => by simp at hx⟩, fun y hy => ?_⟩
      obtain rfl : y = x := by simpa using hy
      exact le_rfl
    · rename_i least hleast
      cases hp
      obtain ⟨hs, -⟩ := Array.getElem?_eq_some_iff.mp hleast
      have hfront : ∀ {i : Nat} {y : α}, front[i]? = some y → (front.push last)[i]? = some y := by
        intro i y hy
        obtain ⟨hi, -⟩ := Array.getElem?_eq_some_iff.mp hy
        rw [Array.getElem?_push, if_neg (by omega)]
        exact hy
      constructor
      · refine sink_ordered (hk.subset fun y hy => ?_) ⟨fun hb _ _ hx hy => h.le hb (hfront hx) (hfront hy),
          fun hb => absurd hb.lt (Nat.not_lt_zero _)⟩ hs (Nat.le_add_left ..)
        rw [Array.toList_push, List.mem_append, List.mem_singleton]
        exact (List.mem_cons.mp hy).symm
      · intro y hy
        obtain ⟨i, hi⟩ := Array.getElem?_of_mem hy
        exact h.top_le (hfront hleast) hi

end LiveSvg.Heap
