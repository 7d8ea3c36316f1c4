import LiveSvg.Proofs.Prefixes
import LiveSvg.Proofs.Trees
/-!
Start tags in the scopes around them. What holds of all start tags of a tree, each in the scope around it, is
found with each element. A document that has been read has its names bound as they are written; they stay so
when a new prefix is declared around them.
-/

namespace LiveSvg.Markup

variable {ι : Type} {P Q : Scope → Head → Prop} {scope scope' around : Scope} {f : Frame} {h : Head}
  {c : Content ι} {e : Element ι} {n : Name} {w : Written} {id : Nat}

/-! ### Scopes in which more is declared -/

/-- What is declared in one scope is declared in another one, which has the same default namespace. -/
structure Scope.Extends (scope scope' : Scope) : Prop where
  find : ∀ short d, scope.find? (some short) = some d → scope'.find? (some short) = some d
  default : scope'.find? none = scope.find? none

theorem Scope.Extends.refl (scope : Scope) : scope.Extends scope := ⟨fun _ _ h => h, rfl⟩

theorem Scope.Extends.cons (hx : scope.Extends scope') (f : Frame) : Scope.Extends (f :: scope) (f :: scope') := by
  constructor
  · intro short d h
    rw [Scope.find?_cons] at h ⊢
    cases hf : f.declarations.find? (·.short == some short) with
    | some d' =>
      rw [hf] at h
      exact h
    | none =>
      rw [hf, Option.none_or] at h
      exact hx.find short d h
  · rw [Scope.find?_cons, Scope.find?_cons, hx.default]

theorem elementName?_extends (hx : scope.Extends scope') (h : elementName? scope w = some n) :
    elementName? scope' w = some n := by
  obtain ⟨short, base⟩ := w
  cases short with
  | none =>
    rw [elementName?_default, hx.default, ← elementName?_default]
    exact h
  | some short =>
    by_cases hs : short = "xml"
    · subst hs
      exact h
    · rw [elementName?_prefixed hs] at h ⊢
      obtain ⟨d, hd, hn⟩ := Option.map_eq_some_iff.mp h
      rw [hx.find short d hd, Option.map_some, hn]

theorem attrName?_extends (hx : scope.Extends scope') (h : attrName? scope w = some n) :
    attrName? scope' w = some n := by
  obtain ⟨short, base⟩ := w
  cases short with
  | none => exact h
  | some short => exact elementName?_extends hx h

/-! ### Start tags -/

theorem Head.Bound.extends (hb : h.Bound scope) (hx : scope.Extends scope') : h.Bound scope' :=
  ⟨elementName?_extends hx hb.name, fun a ha => attrName?_extends hx (hb.attrs a ha), hb.apart⟩

/-- Whether a start tag can be written, and is read as what it is in the scope around it. -/
structure Head.Reads (scope : Scope) (h : Head) : Prop where
  legible : h.Legible
  bound : h.Bound (h.frame :: scope)

/-- What is read stays so where more is declared. -/
theorem Head.Reads.extends (hr : h.Reads scope) (hx : scope.Extends scope') : h.Reads scope' :=
  ⟨hr.legible, hr.bound.extends (hx.cons h.frame)⟩

/-- Whether it is so, and its addresses are written as they are read. -/
structure Head.Returns (scope : Scope) (h : Head) : Prop where
  reads : h.Reads scope
  plain : ∀ d ∈ h.declarations, isPlainAddress d.uri = true

theorem Head.Returns.extends (hr : h.Returns scope) (hx : scope.Extends scope') : h.Returns scope' :=
  ⟨hr.reads.extends hx, hr.plain⟩

/-! ### Scopes of what has been read -/

/-- A name that has been read is bound to what is in force. -/
theorem elementName?_inForce {d : Declaration} (h : elementName? scope n.parts = some n) (hd : n.space = some d) :
    scope.InForce d := by
  obtain ⟨space, base⟩ := n
  cases hd
  obtain ⟨short, uri⟩ := d
  cases short with
  | none =>
    have hread : elementName? scope (none, base) = some ⟨some ⟨none, uri⟩, base⟩ := h
    rw [elementName?_default] at hread
    obtain ⟨hfind, -⟩ := Option.filter_eq_some_iff.mp (Name.mk.inj (Option.some.inj hread)).1
    exact .inr hfind
  | some short =>
    by_cases hs : short = "xml"
    · subst hs
      cases h
      exact .inl rfl
    · have hread : elementName? scope (some short, base) = some ⟨some ⟨some short, uri⟩, base⟩ := h
      rw [elementName?_prefixed hs] at hread
      obtain ⟨d, hfind, hname⟩ := Option.map_eq_some_iff.mp hread
      cases hname
      exact .inr hfind

/-- Whether the elements around a place could have been read: no prefix is declared twice by one, and the name of
each is bound to what is in force there. -/
structure Scope.Sound (scope : Scope) : Prop where
  legible : scope.Legible
  owned : scope.Owned
  distinct : ∀ f ∈ scope, (f.declarations.map (·.short)).Nodup

theorem Scope.Sound.nil : Scope.Sound [] := ⟨nofun, trivial, nofun⟩

theorem Scope.Sound.cons (hs : scope.Sound) (hr : h.Reads scope) : Scope.Sound (h.frame :: scope) where
  legible := List.forall_mem_cons.mpr ⟨hr.legible.declarations, hs.legible⟩
  owned := ⟨fun _ hd => elementName?_inForce hr.bound.name hd, hs.owned⟩
  distinct := List.forall_mem_cons.mpr ⟨hr.legible.distinct, hs.distinct⟩

/-! ### All start tags of a tree -/

namespace Content

/-- Whether something holds of all start tags, each in the scope around it. -/
def Holds (P : Scope → Head → Prop) (scope : Scope) : Content ι → Prop
  | .nil => True
  | .leaf _ rest => Holds P scope rest
  | .element _ h inner rest => P scope h ∧ Holds P (h.frame :: scope) inner ∧ Holds P scope rest

theorem Holds.mono (hc : c.Holds P scope) (h : ∀ scope h, P scope h → Q scope h) : c.Holds Q scope := by
  induction c generalizing scope with
  | nil => trivial
  | leaf l rest ih => exact ih hc
  | element id head inner rest hinner hrest => exact ⟨h _ _ hc.1, hinner hc.2.1, hrest hc.2.2⟩

theorem Holds.and (hP : c.Holds P scope) (hQ : c.Holds Q scope) : c.Holds (fun s h => P s h ∧ Q s h) scope := by
  induction c generalizing scope with
  | nil => trivial
  | leaf l rest ih => exact ih hP hQ
  | element id head inner rest hinner hrest =>
    exact ⟨⟨hP.1, hQ.1⟩, hinner hP.2.1 hQ.2.1, hrest hP.2.2 hQ.2.2⟩

/-- What is the same in every scope holds of all start tags if it holds of each. -/
theorem holds_iff_elements {Q : Head → Prop} : c.Holds (fun _ h => Q h) scope ↔ ∀ x ∈ c.elements, Q x.head := by
  induction c generalizing scope with
  | nil => exact iff_of_true trivial nofun
  | leaf l rest ih => exact ih
  | element id head inner rest hinner hrest =>
    rw [Holds, elements, List.forall_mem_cons, List.forall_mem_append, hinner, hrest]

theorem holds_label (c : Content ι) (next : Nat) : (c.label next).1.Holds P scope ↔ c.Holds P scope := by
  induction c generalizing scope next with
  | nil => exact Iff.rfl
  | leaf l rest ih => exact ih next
  | element id head inner rest hinner hrest =>
    exact and_congr Iff.rfl (and_congr (hinner (next + 1)) (hrest (inner.label (next + 1)).2))

theorem holds_condense : c.condense.Holds P scope ↔ c.Holds P scope := by
  induction c generalizing scope with
  | nil => exact Iff.rfl
  | leaf l rest ih =>
    rw [condense]
    split
    · exact ih
    · exact ih
  | element id head inner rest hinner hrest => exact and_congr Iff.rfl (and_congr hinner hrest)

/-- An element is found with the scope in which its start tag has been looked at. -/
theorem Holds.of_find? {c : Content Nat} {x : Element Nat} (hc : c.Holds P scope)
    (hf : c.find? id scope = some (around, x)) : P around x.head := by
  induction c generalizing scope with
  | nil => cases hf
  | leaf l rest ih => exact ih hc hf
  | element i head inner rest hinner hrest =>
    rw [find?] at hf
    split at hf
    · cases hf
      exact hc.1
    · cases hi : inner.find? id (head.frame :: scope) with
      | some found =>
        rw [hi] at hf
        cases hf
        exact hinner hc.2.1 hi
      | none =>
        rw [hi] at hf
        exact hrest hc.2.2 hf

/-- Content that can be written is bound as it is written if its start tags are. -/
theorem holds_bound_iff (hl : c.Legible) :
    c.Holds (fun scope h => h.Bound (h.frame :: scope)) scope ↔ c.rebind scope = some c := by
  induction c generalizing scope with
  | nil => exact iff_of_true trivial rfl
  | leaf l rest ih =>
    rw [Holds, ih hl.2.2, rebind_leaf]
    constructor
    · exact fun h => ⟨rest, h, rfl⟩
    · rintro ⟨rest', hr, h⟩
      cases h
      exact hr
  | element id h inner rest hinner hrest =>
    rw [Holds, Head.bound_iff hl.1, hinner hl.2.1, hrest hl.2.2, rebind_element]
    constructor
    · exact fun ⟨hh, hi, hr⟩ => ⟨h, inner, rest, hh, hi, hr, rfl⟩
    · rintro ⟨head, inner', rest', hh, hi, hr, k⟩
      cases k
      exact ⟨hh, hi, hr⟩

theorem Holds.extends (hP : ∀ scope scope' h, P scope h → Scope.Extends scope scope' → P scope' h)
    (hc : c.Holds P scope) (hx : scope.Extends scope') : c.Holds P scope' := by
  induction c generalizing scope scope' with
  | nil => trivial
  | leaf l rest ih => exact ih hc hx
  | element id head inner rest hinner hrest =>
    exact ⟨hP _ _ _ hc.1 hx, hinner hc.2.1 (hx.cons head.frame), hrest hc.2.2 hx⟩

/-- What is read stands in what could have been read. -/
theorem Holds.within (hs : scope.Sound) (hc : c.Holds Head.Reads scope) :
    c.Holds (fun scope h => scope.Sound ∧ h.Reads scope) scope := by
  induction c generalizing scope with
  | nil => trivial
  | leaf l rest ih => exact ih hs hc
  | element id head inner rest hinner hrest => exact ⟨⟨hs, hc.1⟩, hinner (hs.cons hc.1) hc.2.1, hrest hs hc.2.2⟩

/-! ### Texts -/

/-- Whether all leaves can be written, and no text borders on another one. -/
def Texts : Content ι → Prop
  | .nil => True
  | .leaf l rest => l.Legible ∧ (l.isText = true → rest.startsText = false) ∧ rest.Texts
  | .element _ _ inner rest => inner.Texts ∧ rest.Texts

theorem legible_iff (scope : Scope) : c.Legible ↔ c.Texts ∧ c.Holds (fun _ h => h.Legible) scope := by
  induction c generalizing scope with
  | nil => exact iff_of_true trivial ⟨trivial, trivial⟩
  | leaf l rest ih => rw [Legible, Texts, Holds, ih scope, and_assoc, and_assoc]
  | element id h inner rest hinner hrest =>
    rw [Legible, Texts, Holds, hinner (h.frame :: scope), hrest scope]
    tauto

/-! ### Labels -/

/-- Where labels are distinct, each element is found by its own. -/
theorem find?_of_mem {c : Content Nat} {x : Element Nat} (hn : (c.elements.map (·.id)).Nodup) (hx : x ∈ c.elements)
    (scope : Scope) : ∃ around, c.find? x.id scope = some (around, x) := by
  induction c generalizing scope with
  | nil => cases hx
  | leaf l rest ih => exact ih hn hx scope
  | element i head inner rest hinner hrest =>
    rw [elements, List.map_cons, List.map_append, List.nodup_cons] at hn
    obtain ⟨hfirst, hn⟩ := hn
    obtain ⟨hni, hnr, hdisjoint⟩ := List.nodup_append.mp hn
    rw [elements, List.mem_cons, List.mem_append] at hx
    rw [find?]
    by_cases hi : i = x.id
    · rw [if_pos hi]
      rcases hx with rfl | hx | hx
      · exact ⟨scope, rfl⟩
      · exact absurd (hi ▸ List.mem_append_left _ (List.mem_map_of_mem (f := (·.id)) hx)) hfirst
      · exact absurd (hi ▸ List.mem_append_right _ (List.mem_map_of_mem (f := (·.id)) hx)) hfirst
    · rw [if_neg hi]
      rcases hx with rfl | hx | hx
      · exact absurd rfl hi
      · obtain ⟨around, hf⟩ := hinner hni hx (head.frame :: scope)
        exact ⟨around, by rw [hf]⟩
      · cases hf : inner.find? x.id (head.frame :: scope) with
        | some found =>
          obtain ⟨hm, hid⟩ := mem_of_find? hf
          exact absurd hid (hdisjoint _ (List.mem_map_of_mem (f := (·.id)) hm) _
            (List.mem_map_of_mem (f := (·.id)) hx))
        | none => exact hrest hnr hx scope

end Content

namespace Element

/-- Whether something holds of all start tags of an element that stands for itself. -/
def Holds (P : Scope → Head → Prop) (e : Element ι) : Prop := P [] e.head ∧ e.inner.Holds P [e.head.frame]

theorem Holds.of_find? {e x : Element Nat} (he : e.Holds P) (hf : e.find? id = some (around, x)) : P around x.head := by
  rw [find?] at hf
  split at hf
  · cases hf
    exact he.1
  · exact he.2.of_find? hf

/-- The start tags of a document that has been read are read as what they are. -/
theorem Sound.holds {e : Element Unit} {depth : Nat} (hs : e.Sound [] depth) : e.Holds Head.Reads := by
  have hlegible := ((Content.legible_iff [e.head.frame]).mp hs.legible.2).2
  have hbound := (Content.holds_bound_iff hs.legible.2).mpr hs.inner
  exact ⟨⟨hs.legible.1, (Head.bound_iff hs.legible.1).mpr hs.head⟩, (hlegible.and hbound).mono fun _ _ h => ⟨h.1, h.2⟩⟩

theorem Holds.within (he : e.Holds Head.Reads) : e.Holds fun scope h => scope.Sound ∧ h.Reads scope :=
  ⟨⟨.nil, he.1⟩, he.2.within (Scope.Sound.nil.cons he.1)⟩

theorem find?_of_mem {e x : Element Nat} (hn : (e.all.map (·.id)).Nodup) (hx : x ∈ e.all) :
    ∃ around, e.find? x.id = some (around, x) := by
  obtain ⟨hfirst, hn⟩ := List.nodup_cons.mp hn
  rw [find?]
  rcases List.mem_cons.mp hx with rfl | hx
  · exact ⟨[], if_pos rfl⟩
  · rw [if_neg fun h => hfirst (List.mem_map.mpr ⟨x, hx, h.symm⟩)]
    exact Content.find?_of_mem hn hx _

end Element

end LiveSvg.Markup
