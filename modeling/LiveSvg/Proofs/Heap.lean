import LiveSvg.Clock.Heap
import Mathlib.Data.List.Perm.Basic
/-!
Heaps hold the items that were put into them and have not been taken out, whatever their order.
-/

namespace LiveSvg.Heap

variable {α : Type} (less : α → α → Bool)

/-- Moving the item at one place to another, and a new one to the first, holds the same as putting the
new one in place of the other. -/
theorem move_perm (a : Array α) {i j : Nat} (hij : i ≠ j) (hj : j < a.size) {x : α} (hx : a[i]? = some x)
    (item : α) : ((a.setIfInBounds j x).setIfInBounds i item).Perm (a.setIfInBounds j item) := by
  obtain ⟨hi, rfl⟩ := Array.getElem?_eq_some_iff.mp hx
  have hs : (a.setIfInBounds j a[i]).setIfInBounds i item =
      (a.setIfInBounds j item).swap i j (by simpa using hi) (by simpa using hj) := by
    ext k h1 h2
    · simp
    · simp only [Array.getElem_swap]
      grind
  rw [hs]
  exact Array.swap_perm _ _

theorem rise_perm (a : Array α) {place : Nat} (h : place < a.size) (item : α) :
    (rise less a place item).Perm (a.setIfInBounds place item) := by
  induction place using Nat.strongRecOn generalizing a with
  | ind place ih =>
    rw [rise]
    split
    · subst place
      exact .refl _
    · dsimp only
      split
      · split
        · have habove : (place - 1) / 2 < place := by omega
          exact (ih _ habove _ (by simp; omega)).trans (move_perm a (by omega) h ‹_› item)
        · exact .refl _
      · exact .refl _

variable {less} in
theorem lesserChild_eq {a : Array α} {place below : Nat} {child : α}
    (h : lesserChild less a place = some (below, child)) : place < below ∧ a[below]? = some child := by
  unfold lesserChild at h
  split at h
  · split at h <;> cases h
    · exact ⟨by omega, ‹_›⟩
    · exact ⟨by omega, ‹_›⟩
  · cases h
    exact ⟨by omega, ‹_›⟩
  · cases h

theorem sink_perm (a : Array α) (fuel : Nat) {place : Nat} (h : place < a.size) (item : α) :
    (sink less a fuel place item).Perm (a.setIfInBounds place item) := by
  induction fuel generalizing a place with
  | zero => exact rise_perm less a h item
  | succ fuel ih =>
    rw [sink]
    split
    · obtain ⟨hlt, hc⟩ := lesserChild_eq ‹_›
      obtain ⟨hb, -⟩ := Array.getElem?_eq_some_iff.mp hc
      exact (ih _ (by simpa using hb)).trans (move_perm a (by omega) h hc item)
    · exact rise_perm less a h item

/-- Pushing an item adds it to what the heap holds. -/
theorem push_perm (a : Array α) (item : α) : (push less a item).toList.Perm (item :: a.toList) := by
  have h : (push less a item).Perm (a.push item) := by
    have hs : a.size < (a.push item).size := by simp
    have hr := rise_perm less (a.push item) hs item
    have he : (a.push item).setIfInBounds a.size item = a.push item := by
      ext k h1 h2
      · simp
      · simp only [Array.getElem_push]
        grind
    rwa [he] at hr
  refine h.toList.trans ?_
  rw [Array.toList_push]
  exact List.perm_append_comm

variable {less} in
/-- What is taken out of a heap is taken from what it holds. -/
theorem pop?_perm {a rest : Array α} {x : α} (h : pop? less a = some (x, rest)) :
    a.toList.Perm (x :: rest.toList) := by
  unfold pop? at h
  split at h
  · cases h
  · rename_i last hl
    obtain ⟨front, rfl⟩ := Array.back?_eq_some_iff.mp hl
    rw [Array.pop_push] at h
    split at h
    · rename_i hn
      cases h
      rw [Array.toList_push]
      exact List.perm_append_comm
    · rename_i least hs
      cases h
      obtain ⟨h0, rfl⟩ := Array.getElem?_eq_some_iff.mp hs
      have hk := (sink_perm less front front.size h0 last).toList
      have hfront : front.toList = front[0] :: front.toList.tail := by
        rw [← Array.getElem_toList, List.getElem_zero, List.cons_head_tail]
      rw [Array.toList_push]
      refine List.perm_append_comm.trans ?_
      rw [hfront]
      refine (List.Perm.swap _ _ _).trans (.cons _ ?_)
      refine List.Perm.symm (hk.trans ?_)
      rw [Array.toList_setIfInBounds, hfront]
      exact .refl _

end LiveSvg.Heap
