import LiveSvg.Drawing.Basic
import LiveSvg.Proofs.Remainders
import Mathlib.Data.List.Nodup
/-!
Trees in which the start tag of one element is changed: all else is found as it was. The labels that the
elements of a drawing get are distinct.
-/

namespace LiveSvg

open Markup

variable {ι : Type} {g : Head → Head} {id id' : Nat}

namespace Markup

/-- Changes the start tag of an element with a label. -/
abbrev Content.retag (c : Content Nat) (id : Nat) (g : Head → Head) : Content Nat :=
  c.update id fun head inner => (g head, inner)

abbrev Element.retag (e : Element Nat) (id : Nat) (g : Head → Head) : Element Nat :=
  e.update id fun head inner => (g head, inner)

/-- What becomes of the start tag of an element when that of one element is changed. -/
def retagged (id : Nat) (g : Head → Head) (id' : Nat) (h : Head) : Head := if id' = id then g h else h

@[simp] theorem retagged_self (h : Head) : retagged id g id h = g h := if_pos rfl

theorem retagged_of_ne (hne : id' ≠ id) : retagged id g id' = fun h => h := funext fun _ => if_neg hne

namespace Content

/-- An element that is found is one of the tree, and has the label. -/
theorem mem_of_find? {c : Content Nat} {around scope : Scope} {e : Element Nat} (h : c.find? id around = some (scope, e)) :
    e ∈ c.elements ∧ e.id = id := by
  induction c generalizing around with
  | nil => cases h
  | leaf t rest ih => exact ih h
  | element i head inner rest hinner hrest =>
    rw [find?] at h
    split at h
    · next hi =>
      cases h
      exact ⟨List.mem_cons_self, hi⟩
    · cases hf : inner.find? id (head.frame :: around) with
      | some found =>
        rw [hf] at h
        cases h
        exact (hinner hf).imp_left fun h => List.mem_cons_of_mem _ (List.mem_append_left _ h)
      | none =>
        rw [hf] at h
        exact (hrest h).imp_left fun h => List.mem_cons_of_mem _ (List.mem_append_right _ h)

/-- Nothing changes where no element has the label. -/
theorem update_absent {c : Content Nat} {f : Head → Content Nat → Head × Content Nat} (h : ∀ e ∈ c.elements, e.id ≠ id) :
    c.update id f = c := by
  induction c with
  | nil => rfl
  | leaf t rest ih => exact congrArg (Content.leaf t) (ih h)
  | element i head inner rest hinner hrest =>
    obtain ⟨hi, hmore⟩ := List.forall_mem_cons.mp h
    obtain ⟨hi', hr⟩ := List.forall_mem_append.mp hmore
    rw [update, if_neg hi, hinner hi', hrest hr]

/-- The element that was found is found as what it has been replaced by. -/
theorem find?_update (c : Content Nat) (f : Head → Content Nat → Head × Content Nat) (around : Scope) :
    (c.update id f).find? id around =
      (c.find? id around).map fun p => (p.1, ⟨p.2.id, (f p.2.head p.2.inner).1, (f p.2.head p.2.inner).2⟩) := by
  induction c generalizing around with
  | nil => rfl
  | leaf l rest ih => exact ih around
  | element i head inner rest hinner hrest =>
    rw [update]
    by_cases hi : i = id
    · rw [if_pos hi, find?, find?, if_pos hi, if_pos hi]
      rfl
    · rw [if_neg hi, find?, find?, if_neg hi, if_neg hi, hinner, hrest]
      cases inner.find? id (head.frame :: around) <;> rfl

/-- The start tag of the element with a label. -/
def headOf? (id : Nat) : Content Nat → Option Head
  | .nil => none
  | .leaf _ rest => headOf? id rest
  | .element i head inner rest =>
    if i = id then some head else (headOf? id inner).or (headOf? id rest)

theorem find?_head (c : Content Nat) (around : Scope) :
    (c.find? id around).map (·.2.head) = c.headOf? id := by
  induction c generalizing around with
  | nil => rfl
  | leaf l rest ih => exact ih around
  | element i head inner rest hinner hrest =>
    rw [find?, headOf?]
    split
    · rfl
    · have hi := hinner (head.frame :: around)
      cases hf : inner.find? id (head.frame :: around) with
      | some found =>
        rw [hf] at hi
        rw [← hi]
        rfl
      | none =>
        rw [hf] at hi
        rw [← hi, ← hrest around]
        rfl

theorem headOf?_retag (c : Content Nat) :
    (c.retag id g).headOf? id' = (c.headOf? id').map (retagged id g id') := by
  induction c with
  | nil => rfl
  | leaf l rest ih => exact ih
  | element i head inner rest hinner hrest =>
    rw [retag, update]
    by_cases hi : i = id
    · subst hi
      rw [if_pos rfl, headOf?, headOf?, hrest]
      split
      · next hi' =>
        rw [← hi', Option.map_some, retagged_self]
      · next hi' => simp [retagged_of_ne fun k => hi' k.symm]
    · rw [if_neg hi, headOf?, headOf?, hinner, hrest]
      split
      · next hi' =>
        rw [← hi', retagged_of_ne hi, Option.map_some]
      · rw [Option.map_or]

theorem headOf?_isSome {c : Content Nat} {e : Element Nat} (h : e ∈ c.elements) : (c.headOf? e.id).isSome := by
  induction c with
  | nil => cases h
  | leaf l rest ih => exact ih h
  | element i head inner rest hinner hrest =>
    rw [headOf?]
    split
    · rfl
    · next hi =>
      rw [Option.isSome_or]
      rcases List.mem_cons.mp h with rfl | h
      · exact absurd rfl hi
      · rcases List.mem_append.mp h with h | h
        · rw [hinner h, Bool.true_or]
        · rw [hrest h, Bool.or_true]

/-- What is said of the start tags of all elements stays the same when it is not changed for one of them. -/
theorem elements_retag {β : Type} (f : Nat → Head → β) (hf : ∀ i h, f i (g h) = f i h) (c : Content Nat) :
    (c.retag id g).elements.map (fun e => f e.id e.head) = c.elements.map fun e => f e.id e.head := by
  induction c with
  | nil => rfl
  | leaf l rest ih => exact ih
  | element i head inner rest hinner hrest =>
    rw [retag, update]
    split
    · simp [elements, hf, hrest]
    · simp [elements, hinner, hrest]

/-- Elements are labelled by one number after another. -/
theorem label_elements (c : Content ι) (next : Nat) : next ≤ (c.label next).2 ∧
    (c.label next).1.elements.map (·.id) = List.range' next ((c.label next).2 - next) := by
  induction c generalizing next with
  | nil => simp [label, elements]
  | leaf l rest ih => exact ih next
  | element i head inner rest hinner hrest =>
    obtain ⟨hi, hinner⟩ := hinner (next + 1)
    obtain ⟨hr, hrest⟩ := hrest (inner.label (next + 1)).2
    refine ⟨by simp only [label]; omega, ?_⟩
    simp only [label, elements, List.map_cons, List.map_append, hinner, hrest]
    generalize (inner.label (next + 1)).2 = middle at *
    generalize (rest.label middle).2 = last at *
    rw [show last - next = (middle - (next + 1) + (last - middle)) + 1 by omega, List.range'_succ,
      List.range'_append_1.symm]
    congr 3
    omega

end Content

theorem Element.find?_update (e : Element Nat) (f : Head → Content Nat → Head × Content Nat) :
    (e.update id f).find? id =
      (e.find? id).map fun p => (p.1, ⟨p.2.id, (f p.2.head p.2.inner).1, (f p.2.head p.2.inner).2⟩) := by
  rw [update]
  by_cases hi : e.id = id
  · rw [if_pos hi, find?, find?, if_pos hi, if_pos hi]
    rfl
  · rw [if_neg hi, find?, find?, if_neg hi, if_neg hi, Content.find?_update]

theorem Element.find?_head (e : Element Nat) :
    (e.find? id).map (·.2.head) = if e.id = id then some e.head else e.inner.headOf? id := by
  rw [Element.find?]
  split
  · rfl
  · exact e.inner.find?_head _

theorem Element.find?_retag (e : Element Nat) (id : Nat) (g : Head → Head) (id' : Nat) :
    ((e.retag id g).find? id').map (·.2.head) = ((e.find? id').map (·.2.head)).map (retagged id g id') := by
  rw [find?_head, find?_head, retag, update]
  by_cases hi : e.id = id
  · rw [if_pos hi]
    change (if e.id = id' then some (g e.head) else e.inner.headOf? id') = _
    by_cases hi' : e.id = id'
    · rw [if_pos hi', if_pos hi', Option.map_some, ← hi, ← hi', retagged_self]
    · rw [if_neg hi', if_neg hi', retagged_of_ne fun k => hi' (hi.trans k.symm)]
      simp
  · rw [if_neg hi]
    change (if e.id = id' then some e.head else (e.inner.retag id g).headOf? id') = _
    by_cases hi' : e.id = id'
    · rw [if_pos hi', if_pos hi', Option.map_some, retagged_of_ne (hi' ▸ hi)]
    · rw [if_neg hi', if_neg hi', e.inner.headOf?_retag]

end Markup

namespace Drawing

variable {d : Drawing}

/-- A drawing with the start tag of one element changed. -/
abbrev retag (d : Drawing) (id : Nat) (g : Head → Head) : Drawing :=
  d.update id fun head inner => (g head, inner)

theorem element?_retag (d : Drawing) :
    ((d.retag id g).element? id').map (·.head) = ((d.element? id').map (·.head)).map (retagged id g id') := by
  have hloose : ∀ l : List (Element Nat), ((l.map (·.retag id g)).findSome? (·.find? id')).map (·.2.head) =
      ((l.findSome? (·.find? id')).map (·.2.head)).map (retagged id g id') := by
    intro l
    induction l with
    | nil => rfl
    | cons e l ih =>
      have he := e.find?_retag id g id'
      rw [List.map_cons, List.findSome?_cons, List.findSome?_cons]
      cases hf : e.find? id' with
      | some found =>
        cases hf' : (e.retag id g).find? id' with
        | some found' =>
          rw [hf, hf'] at he
          exact he
        | none => rw [hf, hf'] at he; cases he
      | none =>
        cases hf' : (e.retag id g).find? id' with
        | some found' => rw [hf, hf'] at he; cases he
        | none => exact ih
  have hroot := d.root.find?_retag id g id'
  have hr : (d.retag id g).root = d.root.retag id g := rfl
  have hl : (d.retag id g).loose = d.loose.map (·.retag id g) := rfl
  unfold element? find?
  rw [hr, hl]
  cases hf : d.root.find? id' with
  | some found =>
    cases hf' : (d.root.retag id g).find? id' with
    | some found' =>
      rw [hf, hf'] at hroot
      exact hroot
    | none => rw [hf, hf'] at hroot; cases hroot
  | none =>
    cases hf' : (d.root.retag id g).find? id' with
    | some found' => rw [hf, hf'] at hroot; cases hroot
    | none =>
      have h := hloose d.loose
      dsimp only
      rw [Option.map_map, Option.map_map (fun e : Element Nat => e.head)]
      exact h

/-- The element that was found is found as what it has been replaced by. -/
theorem find?_update (d : Drawing) (f : Head → Content Nat → Head × Content Nat) : (d.update id f).find? id =
    (d.find? id).map fun p => (p.1, ⟨p.2.id, (f p.2.head p.2.inner).1, (f p.2.head p.2.inner).2⟩) := by
  have hloose : ∀ l : List (Element Nat), (l.map (·.update id f)).findSome? (·.find? id) =
      (l.findSome? (·.find? id)).map fun p => (p.1, ⟨p.2.id, (f p.2.head p.2.inner).1, (f p.2.head p.2.inner).2⟩) := by
    intro l
    induction l with
    | nil => rfl
    | cons e l ih =>
      rw [List.map_cons, List.findSome?_cons, List.findSome?_cons, e.find?_update]
      cases e.find? id with
      | some found => rfl
      | none => exact ih
  rw [find?, find?, update]
  dsimp only
  rw [d.root.find?_update]
  cases d.root.find? id with
  | some found => rfl
  | none => exact hloose d.loose

theorem valueOf?_eq (d : Drawing) (id : Nat) (key : Key) :
    d.valueOf? id key = ((d.element? id).map (·.head)).bind (attrOf? · key) := by
  unfold valueOf?
  rw [Option.bind_map]
  rfl

theorem valueOf?_retag (d : Drawing) (key : Key) : (d.retag id g).valueOf? id' key =
    ((d.element? id').map (·.head)).bind fun h => attrOf? (retagged id g id' h) key := by
  rw [valueOf?_eq, element?_retag, Option.bind_map]
  rfl

theorem below_retag {β : Type} (f : Nat → Head → β) (hf : ∀ i h, f i (g h) = f i h) (d : Drawing) :
    (d.retag id g).below.map (fun e => f e.id e.head) = d.below.map fun e => f e.id e.head := by
  unfold below
  change ((d.root.retag id g).inner.elements.map _) = _
  rw [Element.retag, Element.update]
  split
  · rfl
  · exact Content.elements_retag f hf d.root.inner

/-- Changing a start tag leaves the tags of elements alone if it leaves alone what it says of its own tag. -/
theorem tagged_retag (hg : ∀ h, attrOf? (g h) tagKey = attrOf? h tagKey) (d : Drawing) :
    (d.retag id g).tagged = d.tagged := by
  have hd : ∀ d : Drawing, d.tagged = (d.below.map fun e => (attrOf? e.head tagKey, e.id)).filterMap
      fun (o, i) => o.map fun tag => (tag, i) := by
    intro d
    rw [List.filterMap_map]
    rfl
  rw [hd, hd, below_retag (fun i h => (attrOf? h tagKey, i)) fun i h => by rw [hg]]

theorem element?_isSome_of_mem_below {e : Element Nat} (h : e ∈ d.below) : (d.element? e.id).isSome := by
  have hr : ((d.root.find? e.id).map (·.2.head)).isSome := by
    rw [Element.find?_head]
    split
    · rfl
    · exact Content.headOf?_isSome h
  rw [Option.isSome_map] at hr
  obtain ⟨found, hf⟩ := Option.isSome_iff_exists.mp hr
  unfold element? find?
  rw [hf]
  rfl

/-- The elements below the root have labels of their own. -/
def Apart (d : Drawing) : Prop := (d.below.map (·.id)).Nodup

theorem Apart.ofElement {κ : Type} (e : Element κ) (first generated : Nat) : (ofElement e first generated).Apart := by
  have h := (e.inner.label_elements (first + 1)).2
  rw [Apart, show (Drawing.ofElement e first generated).below.map (·.id) = _ from h]
  exact List.nodup_range'

theorem Apart.retag (h : d.Apart) (id : Nat) (g : Head → Head) : (d.retag id g).Apart := by
  rw [Apart, below_retag (fun i _ => i) fun _ _ => rfl]
  exact h

theorem mem_tagged {tag : String} : (tag, id) ∈ d.tagged ↔ ∃ e ∈ d.below, e.id = id ∧ attrOf? e.head tagKey = some tag := by
  simp only [tagged, List.mem_filterMap, Option.map_eq_some_iff, Prod.mk.injEq]
  constructor
  · rintro ⟨e, he, _, ht, rfl, rfl⟩
    exact ⟨e, he, rfl, ht⟩
  · rintro ⟨e, he, rfl, ht⟩
    exact ⟨e, he, tag, ht, rfl, rfl⟩

theorem Apart.nodup_tagged (h : d.Apart) : (d.tagged.map (·.2)).Nodup := by
  have hsub : ∀ l : List (Element Nat), ((l.filterMap fun e => (attrOf? e.head tagKey).map fun tag => (tag, e.id)).map
      (·.2)).Sublist (l.map (·.id)) := by
    intro l
    induction l with
    | nil => exact .slnil
    | cons e l ih =>
      rw [List.filterMap_cons]
      split
      · exact ih.cons _
      · next ht =>
        obtain ⟨tag, -, rfl⟩ := Option.map_eq_some_iff.mp ht
        exact ih.cons_cons _
  exact h.sublist (hsub d.below)

/-- An element has one tag at most. -/
theorem Apart.tag_eq (h : d.Apart) {tag tag' : String} (ht : (tag, id) ∈ d.tagged) (ht' : (tag', id) ∈ d.tagged) :
    tag = tag' := by
  exact congrArg Prod.fst (List.inj_on_of_nodup_map h.nodup_tagged ht ht' rfl)

theorem mem_findByTag {tag : String} : id ∈ d.findByTag tag ↔ (tag, id) ∈ d.tagged := by
  simp [findByTag]

theorem Apart.nodup_findByTag (h : d.Apart) (tag : String) : (d.findByTag tag).Nodup :=
  h.nodup_tagged.sublist (List.filter_sublist.map _)

/-! ### Attributes -/

theorem Key.names_iff {key : Key} {n : Name} : key.names n = true ↔ key = ⟨n.uri, n.base⟩ := by
  obtain ⟨uri, base⟩ := key
  rw [Key.names, Bool.and_eq_true, beq_iff_eq, beq_iff_eq, Key.mk.injEq, eq_comm, @eq_comm _ n.base]

theorem find?_setIn {key : Key} (new : Attr) (hn : key.names new.name = true) (key' : Key) (attrs : List Attr) :
    ((setIn key new attrs).find? fun a => key'.names a.name).map (·.value) =
      if key' = key then some new.value else (attrs.find? fun a => key'.names a.name).map (·.value) := by
  have hnames : ∀ n, key.names n = true → key'.names n = decide (key' = key) := fun n h => by
    rw [Bool.eq_iff_iff, decide_eq_true_iff, Key.names_iff, Key.names_iff.mp h]
  induction attrs with
  | nil =>
    rw [setIn, List.find?_cons, hnames _ hn]
    by_cases h : key' = key <;> simp [h]
  | cons a attrs ih =>
    rw [setIn]
    split
    · next ha =>
      rw [List.find?_cons, List.find?_cons, hnames _ hn, hnames _ ha]
      by_cases h : key' = key <;> simp [h]
    · next ha =>
      rw [List.find?_cons, List.find?_cons]
      cases hk : key'.names a.name with
      | true =>
        have hne : key' ≠ key := fun h => ha (h ▸ hk)
        simp [hne]
      | false => exact ih

/-- Setting an attribute is a change of one start tag, which says something else then of that attribute only. -/
theorem put_ok {d' : Drawing} {key : Key} {value : String} (h : d.put id key value = .ok d') :
    ∃ g generated, (∀ h key', attrOf? (g h) key' = if key' = key then some value else attrOf? h key') ∧
      d' = { d.retag id g with generated } := by
  unfold put at h
  split at h
  · cases h
  · split at h
    · cases h
    · obtain ⟨uri, base⟩ := key
      cases uri with
      | none =>
        cases h
        refine ⟨fun h => ⟨h.name, h.declarations, setIn ⟨none, base⟩ ⟨Name.plain base, value⟩ h.attrs⟩, _,
          fun h key' => ?_, rfl⟩
        exact find?_setIn ⟨Name.plain base, value⟩ (Key.names_iff.mpr rfl) key' h.attrs
      | some uri =>
        have huri := bindingFor_uri (d.scope id) true uri none d.generated
        cases h
        refine ⟨_, _, fun h key' => ?_, rfl⟩
        refine find?_setIn ⟨⟨some _, base⟩, value⟩ (Key.names_iff.mpr ?_) key' h.attrs
        exact congrArg (fun u => (⟨some u, base⟩ : Key)) huri.symm

end Drawing

end LiveSvg
