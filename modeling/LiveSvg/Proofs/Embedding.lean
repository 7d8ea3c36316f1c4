import LiveSvg.Proofs.Binding
import LiveSvg.Proofs.Descriptors
import LiveSvg.Proofs.Sections
/-!
Descriptors in documents: what is left of an element once those inside it are gone, where a new one is
put, and what the element is read as when it has been written with it.
-/

namespace LiveSvg.Document

open Markup

variable {ι : Type} {scope : Scope} {depth : Nat} {h : Head} {c c' : Content ι} {removing : Bool}

/-! ### Content without descriptors -/

theorem isDescriptor_bare {h' : Head} (hb : h'.bare = h.bare) : isDescriptor h' = isDescriptor h := by
  have hbare : ∀ h : Head, isDescriptor h.bare = isDescriptor h := fun h => by
    obtain ⟨⟨_ | d, base⟩, ds, attrs⟩ := h <;> rfl
  rw [← hbare, hb, hbare]

theorem startsText_drop (removing : Bool) (c : Content ι) :
    (dropDescriptors removing c).startsText = (!removing && c.startsText) := by
  induction c generalizing removing with
  | nil => cases removing <;> rfl
  | leaf l rest ih =>
    cases removing with
    | false => rfl
    | true =>
      rw [dropDescriptors]
      cases hd : l.isData with
      | true => exact ih true
      | false =>
        have ht : l.isText = false := by cases l <;> first | rfl | cases hd
        exact ht
  | element id h inner rest ihi ihr =>
    rw [dropDescriptors]
    split
    · rw [ihr]
      cases removing <;> rfl
    · cases removing <;> rfl

theorem drop_legible (hl : c.Legible) : (dropDescriptors removing c).Legible := by
  induction c generalizing removing with
  | nil => trivial
  | leaf l rest ih =>
    rw [dropDescriptors]
    split
    · exact ih hl.2.2
    · refine ⟨hl.1, fun k => ?_, ih hl.2.2⟩
      rw [startsText_drop, hl.2.1 k]
      rfl
  | element id h inner rest ihi ihr =>
    rw [dropDescriptors]
    split
    · exact ihr hl.2.2
    · exact ⟨hl.1, ihi hl.2.1, ihr hl.2.2⟩

/-- Content that is bound as it is written is so without descriptors. -/
theorem drop_rebind (hb : c.rebind scope = some c) :
    (dropDescriptors removing c).rebind scope = some (dropDescriptors removing c) := by
  induction c generalizing scope removing with
  | nil => rfl
  | leaf l rest ih =>
    obtain ⟨rest', hr, k⟩ := Content.rebind_leaf.mp hb
    cases k
    rw [dropDescriptors]
    split
    · exact ih hr
    · exact Content.rebind_leaf.mpr ⟨_, ih hr, rfl⟩
  | element id h inner rest ihi ihr =>
    obtain ⟨head, inner', rest', hh, hi, hr, k⟩ := Content.rebind_element.mp hb
    cases k
    rw [dropDescriptors]
    split
    · exact ihr hr
    · exact Content.rebind_element.mpr ⟨_, _, _, hh, ihi hi, ihr hr, rfl⟩

theorem depth_drop (c : Content ι) : (dropDescriptors removing c).depth ≤ c.depth := by
  induction c generalizing removing with
  | nil => exact Nat.le_refl _
  | leaf l rest ih =>
    rw [dropDescriptors]
    split <;> exact ih
  | element id h inner rest ihi ihr =>
    rw [dropDescriptors, Content.depth]
    split
    · exact Nat.le_trans ihr (Nat.le_max_right _ _)
    · exact Nat.max_le.mpr ⟨Nat.le_trans (Nat.succ_le_succ ihi) (Nat.le_max_left _ _),
        Nat.le_trans ihr (Nat.le_max_right _ _)⟩

/-- What is left are elements that were there, and no descriptors. -/
theorem elements_drop (c : Content ι) : ∀ x ∈ (dropDescriptors removing c).elements,
    isDescriptor x.head = false ∧ ∃ y ∈ c.elements, y.head = x.head := by
  induction c generalizing removing with
  | nil => exact fun _ k => absurd k List.not_mem_nil
  | leaf l rest ih =>
    rw [dropDescriptors]
    split <;> exact ih
  | element id h inner rest ihi ihr =>
    have hrest : ∀ {removing : Bool}, ∀ x ∈ (dropDescriptors removing rest).elements, isDescriptor x.head = false ∧
        ∃ y ∈ (Content.element id h inner rest).elements, y.head = x.head := fun x hx => by
      obtain ⟨hd, y, hy, he⟩ := ihr x hx
      exact ⟨hd, y, List.mem_cons_of_mem _ (List.mem_append_right _ hy), he⟩
    rw [dropDescriptors]
    split
    · exact hrest
    · next hn =>
      intro x hx
      rcases List.mem_cons.mp hx with rfl | hx
      · exact ⟨Bool.eq_false_iff.mpr hn, _, List.mem_cons_self, rfl⟩
      · rcases List.mem_append.mp hx with hx | hx
        · obtain ⟨hd, y, hy, he⟩ := ihi x hx
          exact ⟨hd, y, List.mem_cons_of_mem _ (List.mem_append_left _ hy), he⟩
        · exact hrest x hx

/-- Nothing is taken out of content without descriptors, unless it starts with the data after one. -/
theorem drop_eq_self (removing : Bool) (hn : ∀ x ∈ c.elements, isDescriptor x.head = false)
    (hl : removing = true → ∀ l rest, c = .leaf l rest → l.isData = false) : dropDescriptors removing c = c := by
  induction c generalizing removing with
  | nil => rfl
  | leaf l rest ih =>
    rw [dropDescriptors, ih false hn fun k => by cases k]
    split
    · next k =>
      rw [Bool.and_eq_true] at k
      exact absurd k.2 (Bool.eq_false_iff.mp (hl k.1 l rest rfl))
    · rfl
  | element id h inner rest ihi ihr =>
    have hh : isDescriptor h = false := hn ⟨id, h, inner⟩ List.mem_cons_self
    have hinner := ihi false (fun x hx => hn x (List.mem_cons_of_mem _ (List.mem_append_left _ hx))) fun k => by
      cases k
    have hrest := ihr false (fun x hx => hn x (List.mem_cons_of_mem _ (List.mem_append_right _ hx))) fun k => by
      cases k
    rw [dropDescriptors, hh, hinner, hrest]
    rfl

/-! ### Where a descriptor is put -/

section insert

variable {id : ι} {inner : Content ι}

theorem elements_insertFirst (id : ι) (h : Head) (inner c : Content ι) :
    (insertFirst id h inner c).elements = ⟨id, h, inner⟩ :: (inner.elements ++ c.elements) := by
  induction c with
  | leaf l rest ih =>
    rw [insertFirst]
    split
    · exact ih
    · rfl
  | _ => rfl

/-- The first of the nodes that are no character data, if it is an element. -/
def firstNode? : Content ι → Option (Element ι)
  | .nil => none
  | .leaf l rest => if l.isData then firstNode? rest else none
  | .element id h inner _ => some ⟨id, h, inner⟩

theorem firstNode?_insertFirst (id : ι) (h : Head) (inner c : Content ι) :
    firstNode? (insertFirst id h inner c) = some ⟨id, h, inner⟩ := by
  induction c with
  | leaf l rest ih =>
    rw [insertFirst]
    split
    · next hd => rw [firstNode?, if_pos hd, ih]
    · rfl
  | _ => rfl

theorem startsText_insertFirst (id : ι) (h : Head) (inner c : Content ι) :
    (insertFirst id h inner c).startsText = c.startsText := by
  cases c with
  | leaf l rest =>
    rw [insertFirst]
    split
    · rfl
    · next hd => cases l <;> first | rfl | exact absurd rfl hd
  | _ => rfl

theorem insertFirst_legible (hh : h.Legible) (hi : inner.Legible) (hc : c.Legible) :
    (insertFirst id h inner c).Legible := by
  induction c with
  | leaf l rest ih =>
    rw [insertFirst]
    split
    · refine ⟨hc.1, fun k => ?_, ih hc.2.2⟩
      rw [startsText_insertFirst]
      exact hc.2.1 k
    · exact ⟨hh, hi, hc⟩
  | _ => exact ⟨hh, hi, hc⟩

theorem depth_insertFirst (id : ι) (h : Head) (inner c : Content ι) :
    (insertFirst id h inner c).depth = max (inner.depth + 1) c.depth := by
  induction c with
  | leaf l rest ih =>
    rw [insertFirst]
    split
    · exact ih
    · rfl
  | _ => rfl

theorem rebind_insertFirst {h' : Head} {inner' : Content ι} (hh : bind? scope h.name.parts h.raw = some h')
    (hi : inner.rebind (h'.frame :: scope) = some inner') :
    (insertFirst id h inner c).rebind scope = (c.rebind scope).map (insertFirst id h' inner') := by
  have hfirst : ∀ c : Content ι, (Content.element id h inner c).rebind scope =
      (c.rebind scope).map (.element id h' inner') := fun c => by
    rw [Content.rebind, hh]
    simp only [Option.bind_eq_bind, Option.bind_some, hi]
    exact (Option.map_eq_bind ..).symm
  induction c with
  | nil => exact hfirst .nil
  | leaf l rest ih =>
    have hleaf : ∀ c : Content ι, (Content.leaf l c).rebind scope = (c.rebind scope).map (.leaf l) := fun _ => rfl
    rw [insertFirst]
    split
    · next hd =>
      rw [hleaf, hleaf, ih, Option.map_map, Option.map_map]
      refine congrArg (Option.map · _) (funext fun c => ?_)
      simp only [Function.comp_apply, insertFirst, hd, if_true]
    · next hd =>
      rw [hfirst, hleaf, Option.map_map, Option.map_map]
      refine congrArg (Option.map · _) (funext fun c => ?_)
      simp only [Function.comp_apply, insertFirst, hd, Bool.false_eq_true, if_false]
  | element id' head inner'' rest ihi ihr =>
    refine (hfirst _).trans (Option.map_congr fun c hc => ?_)
    obtain ⟨_, _, _, -, -, -, rfl⟩ := Content.rebind_element.mp hc
    rfl

/-- A descriptor that has been put in is taken out again, and nothing else. -/
theorem drop_insertFirst (hh : isDescriptor h = true) (hn : ∀ x ∈ c.elements, isDescriptor x.head = false) :
    dropDescriptors false (insertFirst id h inner c) = c := by
  have hfirst : (∀ l rest, c = .leaf l rest → l.isData = false) →
      dropDescriptors false (.element id h inner c) = c := fun hl => by
    rw [dropDescriptors, if_pos hh]
    exact drop_eq_self true hn fun _ => hl
  induction c with
  | leaf l rest ih =>
    rw [insertFirst]
    split
    · next hd =>
      rw [dropDescriptors, ih hn fun hl => ?_]
      · rfl
      · rw [dropDescriptors, if_pos hh]
        exact drop_eq_self true hn fun _ => hl
    · next hd =>
      refine hfirst fun l' rest' k => ?_
      cases k
      exact Bool.eq_false_iff.mpr hd
  | _ => exact hfirst fun l rest k => by cases k

end insert

/-! ### Elements that a descriptor may be put into -/

/-- What is put into an element as its descriptor. -/
def body (d : Descriptor) : Content ι :=
  .leaf (.cdata (String.ofList (sectionSafe d.toJson.toList))) .nil

/-- The element with a descriptor before all but its leading data. -/
def put (d : Descriptor) (e : Element Unit) : Element Unit :=
  { e with inner := insertFirst () (descriptorHead e.head) (body d) e.inner }

/-- The element without descriptors and with their namespace declared, if its prefix is free. -/
def cleared (e : Element ι) : Element ι := withSpace (stripCounter e) (strip e)

theorem embed_eq (d : Descriptor) (e : Element Unit) : embed d e = put d (cleared e) := rfl

/-- An element that stands for a document, and is no descriptor. -/
structure Ready (e : Element Unit) : Prop where
  legible : e.Legible
  plain : e.Plain
  shallow : e.inner.depth < Markup.maxDepth
  named : e.head.Named
  other : isDescriptor e.head = false

theorem space_legible : space.Legible := by
  have hv : Address.isValid space.uri = true := rfl
  exact ⟨by decide, rfl, declaration?_prefixed.mpr ⟨by decide, by decide, by decide, hv⟩⟩

theorem space_plain : isPlainAddress space.uri = true := rfl

theorem descriptorHead_congr {h' : Head} (hd : h'.declarations = h.declarations) :
    descriptorHead h' = descriptorHead h := by
  have hof : Scope.declarationOf? [h'.frame] space.uri = Scope.declarationOf? [h.frame] space.uri := by
    simp only [Scope.declarationOf?, Scope.byUri?, Head.frame, hd, List.isEmpty_nil, if_true]
  unfold descriptorHead
  rw [hof]

/-- The start tag of a descriptor can be written and is read as what it is, below any element. -/
theorem descriptorHead_spec {f : Frame} (hl : h.Legible) (hf : f.declarations = h.declarations) :
    (descriptorHead h).Legible ∧ (∀ d ∈ (descriptorHead h).declarations, isPlainAddress d.uri = true) ∧
      isDescriptor (descriptorHead h) = true ∧
      bind? [f] (descriptorHead h).name.parts (descriptorHead h).raw = some (descriptorHead h) := by
  have hbase : isName "metadata".toList = true := by decide
  have hne : space.uri ≠ "" := by decide
  unfold descriptorHead
  split
  · next d hof =>
    obtain ⟨hd, hu⟩ : d ∈ h.declarations ∧ d.uri = space.uri := by
      simp only [Scope.declarationOf?, Scope.byUri?, List.isEmpty_nil, if_true, List.append_nil] at hof
      split at hof
      · next k =>
        cases hof
        have hp := List.find?_some k
        simp only [Bool.and_eq_true, beq_iff_eq] at hp
        exact ⟨List.mem_of_find?_eq_some k, hp.1.1⟩
      · cases hof
    have hlegible : (⟨⟨some d, "metadata"⟩, [], []⟩ : Head).Legible :=
      ⟨⟨hbase, fun e he => by
        cases he
        exact ⟨.inl (hl.declarations d hd), hu ▸ hne⟩⟩, fun _ k => absurd k List.not_mem_nil, List.nodup_nil,
        fun _ k => absurd k List.not_mem_nil⟩
    refine ⟨hlegible, fun _ k => absurd k List.not_mem_nil, ?_, ?_⟩
    · simp [isDescriptor, Name.uri, hu]
    · refine (bind?_raw hlegible).mpr ⟨List.nodup_nil, rfl, rfl, List.nodup_nil, ?_⟩
      have hread : elementName? [f] (⟨some d, "metadata"⟩ : Name).parts = some ⟨some d, "metadata"⟩ :=
        elementName?_of_mem (hf ▸ hl.distinct) (hl.declarations d hd) (hf ▸ hd) (hu ▸ hne)
      exact (elementName?_congr (fun short => rfl) _).trans hread
  · have hlegible : (⟨⟨some space, "metadata"⟩, [space], []⟩ : Head).Legible :=
      ⟨⟨hbase, fun e he => by
        cases he
        exact ⟨.inl space_legible, hne⟩⟩, List.forall_mem_singleton.mpr space_legible, by decide,
        fun _ k => absurd k List.not_mem_nil⟩
    refine ⟨hlegible, List.forall_mem_singleton.mpr space_plain, by decide, ?_⟩
    refine (bind?_raw hlegible).mpr ⟨by decide, rfl, rfl, List.nodup_nil, ?_⟩
    exact elementName?_of_mem (by decide) space_legible List.mem_cons_self hne

/-! ### Clearing -/

section plain

variable {scope : Scope} {c : Content ι}

/-- Whether all addresses that a scope declares are written as they are read. -/
def PlainAround (scope : Scope) : Prop := ∀ f ∈ scope, ∀ d ∈ f.declarations, isPlainAddress d.uri = true

theorem head_plain (hl : h.Legible) (hb : bind? scope h.name.parts h.raw = some h)
    (hs : PlainAround (h.frame :: scope)) : h.Plain := by
  obtain ⟨-, -, ha, -, he⟩ := (bind?_raw hl).mp hb
  have hspace : ∀ {w : Written} {n : Name}, elementName? (⟨h.declarations, none⟩ :: scope) w = some n → n.Plain := by
    intro w n hn d hd
    rcases elementName?_space hn hd with rfl | ⟨f, hf, hm⟩
    · rfl
    · rcases List.mem_cons.mp hf with rfl | hf
      · exact hs h.frame List.mem_cons_self d hm
      · exact hs f (List.mem_cons_of_mem _ hf) d hm
  refine ⟨hs h.frame List.mem_cons_self, hspace he, fun a hm => ?_⟩
  obtain ⟨b, hb, hr⟩ := mapM_rebind_mem ha a hm
  obtain ⟨n, hn, rfl⟩ := Option.map_eq_some_iff.mp hr
  unfold attrName? at hn
  split at hn
  · cases hn
    exact fun d hd => by cases hd
  · exact hspace hn

/-- Where all declared addresses are written as they are read, so are those of all names. -/
theorem heads_plain (hl : c.Legible) (hb : c.rebind scope = some c) (hs : PlainAround scope) (hp : c.Plain) :
    ∀ x ∈ c.elements, x.head.Plain := by
  induction c generalizing scope with
  | nil => exact fun _ k => absurd k List.not_mem_nil
  | leaf l rest ih =>
    obtain ⟨rest', hr, k⟩ := Content.rebind_leaf.mp hb
    cases k
    exact ih hl.2.2 hr hs hp
  | element id h inner rest ihi ihr =>
    obtain ⟨head, inner', rest', hh, hi, hr, k⟩ := Content.rebind_element.mp hb
    cases k
    have hframe : PlainAround (h.frame :: scope) :=
      List.forall_mem_cons.mpr ⟨hp ⟨id, h, inner⟩ List.mem_cons_self, hs⟩
    have hpi : inner.Plain := fun x hx => hp x (List.mem_cons_of_mem _ (List.mem_append_left _ hx))
    have hpr : rest.Plain := fun x hx => hp x (List.mem_cons_of_mem _ (List.mem_append_right _ hx))
    intro x hx
    rcases List.mem_cons.mp hx with rfl | hx
    · exact head_plain hl.1 hh hframe
    · exact (List.mem_append.mp hx).elim (ihi hl.2.1 hi hframe hpi x) (ihr hl.2.2 hr hs hpr x)

end plain

theorem heads_bare (c : Content ι) : c.bare.elements.map (·.head) = c.elements.map (·.head.bare) := by
  induction c with
  | nil => rfl
  | leaf l rest ih => exact ih
  | element id h inner rest ihi ihr =>
    simp only [Content.bare, Content.elements, List.map_cons, List.map_append, ihi, ihr]

/-- Content that says the same has descriptors where there were some. -/
theorem no_descriptors_bare (hb : c'.bare = c.bare) (hn : ∀ x ∈ c.elements, isDescriptor x.head = false) :
    ∀ x ∈ c'.elements, isDescriptor x.head = false := by
  intro x hx
  have hm : x.head.bare ∈ c.elements.map (·.head.bare) := by
    rw [← heads_bare, ← hb, heads_bare]
    exact List.mem_map.mpr ⟨x, hx, rfl⟩
  obtain ⟨y, hy, he⟩ := List.mem_map.mp hm
  rw [← isDescriptor_bare he]
  exact hn y hy

/-- Whether an element declares the prefix of descriptors for their namespace. -/
def Bound (e : Element ι) : Prop := Scope.uri? [e.head.frame] "tb" = some space.uri

section clearing

variable {e : Element Unit} {keep : List String} {counter : Nat}

theorem strip_sound (hs : e.Sound [] Markup.maxDepth) : (strip e).Sound [] Markup.maxDepth :=
  ⟨⟨hs.legible.1, drop_legible hs.legible.2⟩, hs.head, drop_rebind hs.inner,
    Nat.lt_of_le_of_lt (depth_drop _) hs.shallow⟩

theorem strip_plain (hp : e.Plain) : (strip e).Plain := by
  refine List.forall_mem_cons.mpr ⟨hp e List.mem_cons_self, fun x hx => ?_⟩
  obtain ⟨-, y, hy, he⟩ := elements_drop e.inner x hx
  rw [← he]
  exact hp y (List.mem_cons_of_mem _ hy)

theorem ready_of_sound (hs : e.Sound [] Markup.maxDepth) (hp : e.Plain) (ho : isDescriptor e.head = false) :
    Ready e :=
  ⟨hs.legible, hp, hs.shallow, hs.named, ho⟩

/-- The element with the namespace of descriptors declared, unless their prefix is, and nothing cleared. -/
def declaring (e : Element ι) : Element ι :=
  let declarations :=
    if e.head.declarations.any (·.short == space.short) then e.head.declarations
    else e.head.declarations ++ [space]
  { e with head := { e.head with declarations } }

theorem declare_eq (keep : List String) (counter : Nat) (e : Element ι) :
    e.declare space keep counter = ((declaring e).relocate counter).1.prune keep := rfl

theorem mem_declaring {d : Declaration} : d ∈ (declaring e).head.declarations ↔
    d ∈ e.head.declarations ∨ d = space ∧ ∀ d' ∈ e.head.declarations, d'.short ≠ space.short := by
  unfold declaring
  dsimp only
  split
  · next hany =>
    obtain ⟨d', hd', hs⟩ := List.any_eq_true.mp hany
    exact ⟨.inl, fun h => h.resolve_right fun k => k.2 d' hd' (beq_iff_eq.mp hs)⟩
  · next hany =>
    have hfree : ∀ d' ∈ e.head.declarations, d'.short ≠ space.short := fun d' hd' k =>
      hany (List.any_eq_true.mpr ⟨d', hd', beq_iff_eq.mpr k⟩)
    rw [List.mem_append, List.mem_singleton]
    exact or_congr_right (and_iff_left hfree).symm

theorem declaring_legible (hl : e.Legible) : (declaring e).Legible := by
  refine ⟨⟨hl.1.name, fun d hd => ?_, ?_, hl.1.attrs⟩, hl.2⟩
  · rcases mem_declaring.mp hd with hd | ⟨rfl, -⟩
    · exact hl.1.declarations d hd
    · exact space_legible
  · unfold declaring
    dsimp only
    split
    · exact hl.1.distinct
    · next hany =>
      rw [List.map_append]
      refine List.nodup_append.mpr ⟨hl.1.distinct, List.nodup_singleton _, fun x hx y hy k => hany ?_⟩
      obtain ⟨d, hd, rfl⟩ := List.mem_map.mp hx
      rw [List.mem_singleton.mp hy] at k
      exact List.any_eq_true.mpr ⟨d, hd, beq_iff_eq.mpr k⟩

/-- What relocation keeps once the namespace of descriptors is declared. -/
theorem relocate_declaring (hs : e.Sound [] Markup.maxDepth) (hp : e.Plain) (counter : Nat) :
    Element.Tidied (declaring e) ((declaring e).relocate counter).1 ∧
      (declaring e).head.declarations <+: ((declaring e).relocate counter).1.head.declarations := by
  have hframe : PlainAround [e.head.frame] := List.forall_mem_singleton.mpr (hp e List.mem_cons_self)
  have hhead := head_plain hs.legible.1 hs.head hframe
  have hplain : ∀ x ∈ (declaring e).all, x.head.Plain := by
    refine List.forall_mem_cons.mpr ⟨⟨fun d hd => ?_, hhead.name, hhead.attrs⟩, ?_⟩
    · rcases mem_declaring.mp hd with hd | ⟨rfl, -⟩
      · exact hp e List.mem_cons_self d hd
      · exact space_plain
    · exact heads_plain hs.legible.2 hs.inner hframe fun x hx => hp x (List.mem_cons_of_mem _ hx)
  have hname : ∀ d, (declaring e).head.name.space = some d → d = .xml ∨ d ∈ (declaring e).head.declarations := by
    intro d hd
    refine (elementName?_space hs.named hd).imp_right fun ⟨f, hf, hm⟩ => mem_declaring.mpr (.inl ?_)
    rwa [List.mem_singleton.mp hf] at hm
  exact Element.relocate_spec (declaring_legible hs.legible) hplain hname (Eq.refl ((declaring e).relocate counter))

/-- What declaring the namespace of descriptors keeps. -/
theorem declare_spec (hs : e.Sound [] Markup.maxDepth) (hp : e.Plain) (ho : isDescriptor e.head = false) :
    Ready (e.declare space keep counter) ∧ (e.declare space keep counter).inner.bare = e.inner.bare ∧
      (e.declare space keep counter).Stands ∧
      ∀ d ∈ (declaring e).head.declarations, (∃ short ∈ keep, d.short = some short) →
        d ∈ (e.declare space keep counter).head.declarations := by
  obtain ⟨ht, hfirst⟩ := relocate_declaring hs hp counter
  have ht : Element.Tidied (declaring e) (e.declare space keep counter) := Element.prune_spec ht
  refine ⟨⟨ht.legible, ht.plain, ?_, ?_, ?_⟩, ht.inner, ht.stands, fun d hd ⟨short, hshort, hk⟩ => ?_⟩
  · rw [← Content.depth_bare, ht.inner, Content.depth_bare]
    exact hs.shallow
  · refine hs.named.other ht.name hs.legible.1 ht.legible.1 ht.stands.1.1 fun d hd hshort => ?_
    rcases mem_declaring.mp (ht.default d hd hshort) with hd | ⟨rfl, -⟩
    · exact hd
    · cases hshort
  · rw [isDescriptor_bare ht.head]
    exact ho
  · refine List.mem_filter.mpr ⟨hfirst.subset hd, ?_⟩
    simp [hk, hshort]

/-- What an element is once it has been cleared. -/
theorem cleared_spec (hs : e.Sound [] Markup.maxDepth) (hp : e.Plain) (ho : isDescriptor e.head = false) :
    Ready (cleared e) ∧ (∀ x ∈ (cleared e).inner.elements, isDescriptor x.head = false) ∧
      (Bound e → cleared e = strip e) ∧ (¬ Bound e → (cleared e).Stands) := by
  have hnone : ∀ x ∈ (strip e).inner.elements, isDescriptor x.head = false := fun x hx => (elements_drop _ x hx).1
  by_cases hb : Bound e
  · have heq : cleared e = strip e := if_pos hb
    rw [heq]
    exact ⟨ready_of_sound (strip_sound hs) (strip_plain hp) ho, hnone, fun _ => rfl, absurd hb⟩
  · have heq : cleared e = (strip e).declare space (shorts (strip e).head ++ ["tb"]) (stripCounter e) := if_neg hb
    obtain ⟨hr, hbare, hst, -⟩ := declare_spec (strip_sound hs) (strip_plain hp) ho
    rw [heq]
    exact ⟨hr, no_descriptors_bare hbare hnone, fun k => absurd k hb, fun _ => hst⟩

/-- Clearing an element declares the prefix of descriptors, unless that stands for another namespace. -/
theorem bound_cleared (hs : e.Sound [] Markup.maxDepth) (hp : e.Plain) (ho : isDescriptor e.head = false)
    (hf : Scope.uri? [e.head.frame] "tb" = none ∨ Bound e) : Bound (cleared e) := by
  obtain ⟨hr, -, hbound, -⟩ := cleared_spec hs hp ho
  by_cases hb : Bound e
  · rw [hbound hb]
    exact hb
  · have heq : cleared e = (strip e).declare space (shorts (strip e).head ++ ["tb"]) (stripCounter e) := if_neg hb
    have hfree := Scope.find?_eq_none (Option.map_eq_none_iff.mp (hf.resolve_right hb)) e.head.frame List.mem_cons_self
    have hmem : space ∈ (cleared e).head.declarations := by
      rw [heq]
      refine (declare_spec (strip_sound hs) (strip_plain hp) ho).2.2.2 space (mem_declaring.mpr (.inr ⟨rfl, hfree⟩)) ?_
      exact ⟨"tb", List.mem_append_right _ List.mem_cons_self, rfl⟩
    have hfind : Scope.find? [(cleared e).head.frame] space.short = some space :=
      Scope.find?_of_mem hr.legible.1.distinct hmem
    exact congrArg (Option.map (·.uri)) hfind

/-- An element can be read once it has been cleared, unless clearing has made attributes the same. -/
theorem exists_rebind_cleared (hs : e.Sound [] Markup.maxDepth) (hp : e.Plain) (ho : isDescriptor e.head = false) :
    (∃ e', (cleared e).rebind = some e') ↔ Bound e ∨ (cleared e).Distinct := by
  obtain ⟨hr, -, hbound, hst⟩ := cleared_spec hs hp ho
  by_cases hb : Bound e
  · rw [hbound hb]
    have hstrip := strip_sound hs
    exact iff_of_true ⟨strip e, Element.rebind_iff.mpr ⟨_, _, hstrip.head, hstrip.inner, rfl⟩⟩ (.inl hb)
  · rw [Element.rebind_isSome_iff hr.legible (hst hb)]
    exact (or_iff_right hb).symm

end clearing

/-! ### Documents with a descriptor -/

section put

variable {d : Descriptor} {e e' : Element Unit} {n : Nat}

theorem body_legible (h : Json.Fits n d.toValue) : (body d : Content Unit).Legible := by
  refine ⟨⟨?_, ?_⟩, fun _ => rfl, trivial⟩
  · rw [String.toList_ofList]
    exact Json.precedes_sectionSafe _
  · rw [String.toList_ofList]
    refine Json.isClean_sectionSafe ?_
    unfold Descriptor.toJson Json.tree
    rw [String.toList_ofList]
    exact h.isClean_chars 0

/-- An element with a descriptor put into it can be written. -/
theorem put_legible (hr : Ready e) (hd : Json.Fits n d.toValue) : (put d e).Legible ∧ (put d e).Plain := by
  obtain ⟨hlh, hph, -, -⟩ := descriptorHead_spec hr.legible.1 (show e.head.frame.declarations = _ from rfl)
  refine ⟨⟨hr.legible.1, insertFirst_legible hlh (body_legible hd) hr.legible.2⟩, ?_⟩
  refine List.forall_mem_cons.mpr ⟨hr.plain e List.mem_cons_self, ?_⟩
  change ∀ x ∈ (insertFirst () (descriptorHead e.head) (body d) e.inner).elements, _
  rw [elements_insertFirst]
  exact List.forall_mem_cons.mpr ⟨hph, fun x hx => hr.plain x (List.mem_cons_of_mem _ hx)⟩

/-- A descriptor that has been put into an element is bound as it is written. -/
theorem rebind_put (hl : e.head.Legible) : (put d e).rebind = e.rebind.map (put d) := by
  have hput : (put d e).rebind = (bind? [] e.head.name.parts e.head.raw).bind fun head =>
      ((insertFirst () (descriptorHead e.head) (body d) e.inner).rebind [head.frame]).bind fun inner =>
        some ⟨(), head, inner⟩ := rfl
  have he : e.rebind = (bind? [] e.head.name.parts e.head.raw).bind fun head =>
      (e.inner.rebind [head.frame]).bind fun inner => some ⟨(), head, inner⟩ := rfl
  rw [hput, he]
  cases hh : bind? [] e.head.name.parts e.head.raw with
  | none => rfl
  | some head =>
    have hds : head.declarations = e.head.declarations := ((bind?_raw hl).mp hh).2.1
    have hbind := (descriptorHead_spec hl (show head.frame.declarations = _ from hds)).2.2.2
    have hbody : (body d : Content Unit).rebind ((descriptorHead e.head).frame :: [head.frame]) = some (body d) := rfl
    rw [Option.bind_some, Option.bind_some, rebind_insertFirst hbind hbody]
    cases e.inner.rebind [head.frame] with
    | none => rfl
    | some inner =>
      change some (Element.mk () head (insertFirst () (descriptorHead e.head) (body d) inner)) = some (put d _)
      unfold put
      rw [descriptorHead_congr hds]

/-- A document with a descriptor put into it is read with the descriptor in it. -/
theorem read_put (hr : Ready e) (hd : Json.Fits n d.toValue) :
    Markup.read (.text (put d e).markup) = e.rebind.map (put d) := by
  obtain ⟨hl, hp⟩ := put_legible hr hd
  refine (read_markup hl hp ?_).trans (rebind_put hr.legible.1)
  change (insertFirst () (descriptorHead e.head) (body d) e.inner).depth < _
  rw [depth_insertFirst]
  exact Nat.max_lt.mpr ⟨show 1 < Markup.maxDepth by decide, hr.shallow⟩

theorem declarations_of_rebind (hl : e.head.Legible) (hb : e.rebind = some e') :
    e'.head.declarations = e.head.declarations := by
  obtain ⟨head, inner, hh, -, rfl⟩ := Element.rebind_iff.mp hb
  exact ((bind?_raw hl).mp hh).2.1

/-- Whether the prefix of descriptors is declared depends on the declarations alone. -/
theorem Bound.of_declarations (hd : e'.head.declarations = e.head.declarations) (h : Bound e) : Bound e' := by
  have halike : Scope.Alike [e'.head.frame] [e.head.frame] := (Scope.Alike.refl []).cons hd
  unfold Bound Scope.uri? at h ⊢
  rwa [halike.find?]

/-- An element bound anew is a descriptor if and only if it was one. -/
theorem other_of_rebind (hr : Ready e) (hb : e.rebind = some e') : isDescriptor e'.head = false := by
  obtain ⟨head, inner, hh, -, rfl⟩ := Element.rebind_iff.mp hb
  obtain ⟨-, -, -, -, hn⟩ := (bind?_raw hr.legible.1).mp hh
  have hframe : Scope.Alike [⟨e.head.declarations, none⟩] [e.head.frame] := (Scope.Alike.refl []).cons rfl
  rw [hframe.elementName?] at hn
  have hname : head.name = e.head.name := Option.some.inj (hn.symm.trans hr.named)
  have ho := hr.other
  unfold isDescriptor at ho ⊢
  rwa [hname]

theorem descriptors_put (hl : e.head.Legible) (ho : isDescriptor e.head = false) :
    descriptors (put d e) = ⟨(), descriptorHead e.head, body d⟩ ::
      e.inner.elements.filter (isDescriptor ·.head) := by
  have hd := (descriptorHead_spec hl (show e.head.frame.declarations = _ from rfl)).2.2.1
  unfold descriptors Element.all put
  dsimp only
  rw [elements_insertFirst, List.filter_cons_of_neg (by simp [ho]), List.filter_cons, if_pos hd]
  rfl

/-- The descriptor that has been put into an element is the one found there. -/
theorem descriptor_put {source : String} (hl : e.head.Legible) (ho : isDescriptor e.head = false)
    (hd : Descriptor.parse source = .ok d) : descriptor (put d e) = ([], .ok d) := by
  have hdata : (body d : Content Unit).leadingData = String.ofList (sectionSafe d.toJson.toList) :=
    String.append_empty
  unfold descriptor
  rw [descriptors_put hl ho]
  dsimp only
  rw [hdata, (Descriptor.parse_spec hd).2]

theorem strip_put (hl : e.head.Legible) (hn : ∀ x ∈ e.inner.elements, isDescriptor x.head = false) :
    strip (put d e) = e := by
  have hd := (descriptorHead_spec hl (show e.head.frame.declarations = _ from rfl)).2.2.1
  unfold strip put
  dsimp only
  rw [drop_insertFirst hd hn]

end put

end LiveSvg.Document
