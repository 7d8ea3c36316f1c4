import LiveSvg.Proofs.Heads
/-!
What a tree keeps when one of its elements is changed: its texts, how deep it is, the labels in it, and what
holds of its start tags.
-/

namespace LiveSvg.Markup

variable {P : Scope → Head → Prop} {f : Head → Content Nat → Head × Content Nat} {id : Nat} {scope around : Scope}
  {c : Content Nat} {e x : Element Nat}

/-- Whether a change leaves only texts in an element that can be written, and nothing that was not there of what is
labelled. -/
structure Tame (f : Head → Content Nat → Head × Content Nat) : Prop where
  texts : ∀ h inner, inner.condense.Texts → (f h inner).2.condense.Texts
  depth : ∀ h inner, (f h inner).2.condense.depth ≤ inner.condense.depth
  ids : ∀ h inner, ((f h inner).2.elements.map (·.id)).Sublist (inner.elements.map (·.id))

theorem Tame.retag (g : Head → Head) : Tame fun h inner => (g h, inner) :=
  ⟨fun _ _ h => h, fun _ _ => Nat.le_refl _, fun _ _ => .refl _⟩

namespace Content

theorem update_element (i : Nat) (head : Head) (inner rest : Content Nat) :
    (element i head inner rest).update id f =
      if i = id then .element i (f head inner).1 (f head inner).2 (rest.update id f)
      else .element i head (inner.update id f) (rest.update id f) := rfl

theorem startsText_update (c : Content Nat) : (c.update id f).condense.startsText = c.condense.startsText := by
  induction c with
  | nil => rfl
  | leaf l rest ih =>
    rw [update, condense, condense]
    split
    · exact ih
    · rfl
  | element i head inner rest =>
    rw [update_element]
    split
    · rfl
    · rfl

theorem Texts.update (hc : c.condense.Texts) (hf : Tame f) (id : Nat) : (c.update id f).condense.Texts := by
  induction c with
  | nil => trivial
  | leaf l rest ih =>
    rw [condense] at hc
    rw [Content.update, condense]
    split at hc
    · next hl =>
      rw [if_pos hl]
      exact ih hc
    · next hl =>
      rw [if_neg hl, Texts, startsText_update]
      exact ⟨hc.1, hc.2.1, ih hc.2.2⟩
  | element i head inner rest hinner hrest =>
    rw [update_element]
    split
    · exact ⟨hf.texts _ _ hc.1, hrest hc.2⟩
    · exact ⟨hinner hc.1, hrest hc.2⟩

theorem depth_update (hf : Tame f) (id : Nat) (c : Content Nat) : (c.update id f).condense.depth ≤ c.condense.depth := by
  induction c with
  | nil => exact Nat.le_refl _
  | leaf l rest ih =>
    rw [update, condense, condense]
    split
    · exact ih
    · exact ih
  | element i head inner rest hinner hrest =>
    have hdepth := hf.depth head inner
    rw [update_element]
    split
    · simp only [condense, depth]
      omega
    · simp only [condense, depth]
      omega

theorem ids_update (hf : Tame f) (id : Nat) (c : Content Nat) :
    ((c.update id f).elements.map (·.id)).Sublist (c.elements.map (·.id)) := by
  induction c with
  | nil => exact .refl _
  | leaf l rest ih => exact ih
  | element i head inner rest hinner hrest =>
    rw [update_element]
    split
    · simp only [elements, List.map_cons, List.map_append]
      exact ((hf.ids head inner).append hrest).cons_cons i
    · simp only [elements, List.map_cons, List.map_append]
      exact (hinner.append hrest).cons_cons i

/-- Where labels are distinct, what holds of all start tags still does if it does at the element that is changed. -/
theorem Holds.update (hc : c.Holds P scope) (hn : (c.elements.map (·.id)).Nodup)
    (hf : ∀ around x, c.find? id scope = some (around, x) → P around x.head →
      x.inner.Holds P (x.head.frame :: around) →
        P around (f x.head x.inner).1 ∧ (f x.head x.inner).2.Holds P ((f x.head x.inner).1.frame :: around)) :
    (c.update id f).Holds P scope := by
  induction c generalizing scope with
  | nil => trivial
  | leaf l rest ih => exact ih hc hn hf
  | element i head inner rest hinner hrest =>
    rw [elements, List.map_cons, List.map_append, List.nodup_cons] at hn
    obtain ⟨hfirst, hn⟩ := hn
    obtain ⟨hni, hnr, hdisjoint⟩ := List.nodup_append.mp hn
    simp only [find?] at hf
    rw [update_element]
    by_cases hi : i = id
    · rw [if_pos hi] at hf ⊢
      obtain ⟨hhead, hinside⟩ := hf scope ⟨i, head, inner⟩ rfl hc.1 hc.2.1
      have hr : rest.update id f = rest := update_absent fun x hx hid =>
        hfirst (List.mem_append_right _ (List.mem_map.mpr ⟨x, hx, hid.trans hi.symm⟩))
      rw [hr]
      exact ⟨hhead, hinside, hc.2.2⟩
    · rw [if_neg hi] at hf ⊢
      cases hfound : inner.find? id (head.frame :: scope) with
      | some found =>
        rw [hfound] at hf
        obtain ⟨hm, hid⟩ := mem_of_find? hfound
        have hr : rest.update id f = rest := update_absent fun x hx hid' =>
          hdisjoint _ (List.mem_map.mpr ⟨_, hm, rfl⟩) _ (List.mem_map.mpr ⟨x, hx, rfl⟩) (hid.trans hid'.symm)
        have hi : (inner.update id f).Holds P (head.frame :: scope) := by
          refine hinner hc.2.1 hni fun around x hx => hf around x ?_
          rw [← hfound, hx]
        rw [hr]
        exact ⟨hc.1, hi, hc.2.2⟩
      | none =>
        rw [hfound] at hf
        have hi : (inner.update id f).Holds P (head.frame :: scope) := by
          refine hinner hc.2.1 hni fun around x hx => ?_
          rw [hfound] at hx
          cases hx
        exact ⟨hc.1, hi, hrest hc.2.2 hnr hf⟩

end Content

namespace Element

theorem update_eq (e : Element Nat) : e.update id f =
    if e.id = id then ⟨e.id, (f e.head e.inner).1, (f e.head e.inner).2⟩
    else ⟨e.id, e.head, e.inner.update id f⟩ := rfl

theorem texts_update (hc : e.inner.condense.Texts) (hf : Tame f) (id : Nat) :
    (e.update id f).inner.condense.Texts := by
  rw [update_eq]
  split
  · exact hf.texts _ _ hc
  · exact hc.update hf id

theorem depth_update (hf : Tame f) (id : Nat) (e : Element Nat) :
    (e.update id f).inner.condense.depth ≤ e.inner.condense.depth := by
  rw [update_eq]
  split
  · exact hf.depth _ _
  · exact Content.depth_update hf id e.inner

theorem ids_update (hf : Tame f) (id : Nat) (e : Element Nat) :
    ((e.update id f).all.map (·.id)).Sublist (e.all.map (·.id)) := by
  rw [update_eq]
  split
  · exact (hf.ids _ _).cons_cons _
  · exact (Content.ids_update hf id e.inner).cons_cons _

theorem Holds.update (he : e.Holds P) (hn : (e.all.map (·.id)).Nodup)
    (hf : ∀ around x, e.find? id = some (around, x) → P around x.head → x.inner.Holds P (x.head.frame :: around) →
      P around (f x.head x.inner).1 ∧ (f x.head x.inner).2.Holds P ((f x.head x.inner).1.frame :: around)) :
    (e.update id f).Holds P := by
  rw [update_eq]
  simp only [find?] at hf
  by_cases hi : e.id = id
  · rw [if_pos hi] at hf ⊢
    exact hf [] e rfl he.1 he.2
  · rw [if_neg hi] at hf ⊢
    exact ⟨he.1, he.2.update (List.nodup_cons.mp hn).2 hf⟩

end Element

end LiveSvg.Markup
