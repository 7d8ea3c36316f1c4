import LiveSvg.Proofs.Embedding
import LiveSvg.Proofs.Prefixes
/-!
What a document says beside the descriptors in it. Clearing it for another one takes away those and the
character data right after them; the cleared document is read as what it is where prefixes are not mixed up.
-/

namespace LiveSvg.Markup

variable {ι : Type} {table : Replacements}

/-! ### What relocation does not change -/

theorem bindingFor_uri (scope : Scope) (isAttr : Bool) (uri : String) (wanted : Option String) (counter : Nat) :
    (scope.bindingFor isAttr uri wanted counter).1.uri = uri := by
  unfold Scope.bindingFor
  split
  · next d hd => exact (Scope.inForce?_some hd).1
  · split <;> rfl

/-- Replacements under which declarations keep their addresses. -/
def Replacements.Alike (table : Replacements) : Prop := ∀ p ∈ table, p.2.uri = p.1.uri

theorem relocateName_bare (ht : Replacements.Alike table) (root : Frame) (s : Supply) (isAttr : Bool) (n : Name) :
    (relocateName root table s isAttr n).1.bare = n.bare := by
  obtain ⟨space, base⟩ := n
  cases space with
  | none => rfl
  | some old =>
    unfold relocateName
    dsimp only
    split
    · next new hnew =>
      have huri : new.uri = old.uri := ht _ (replacement?_some hnew).1
      simp only [Name.bare, Name.uri, Option.map_some, huri]
    · have huri := bindingFor_uri [s.extend root] isAttr old.uri old.short s.counter
      simp only [Name.bare, Name.uri, Option.map_some, huri]

theorem relocateAttrs_bare (ht : Replacements.Alike table) (root : Frame) (s : Supply) (attrs : List Attr) :
    (relocateAttrs root table s attrs).1.map (·.bare) = attrs.map (·.bare) := by
  induction attrs generalizing s with
  | nil => rfl
  | cons a attrs ih =>
    rw [relocateAttrs]
    dsimp only
    rw [List.map_cons, List.map_cons, ih, Attr.bare, Attr.bare, relocateName_bare ht]

/-- A start tag that has been relocated says the same, and so will those inside it. -/
theorem relocateHead_bare (ht : Replacements.Alike table) (root : Frame) (around : Scope) (s : Supply) (h : Head) :
    (relocateHead root around table s h).1.bare = h.bare ∧
      Replacements.Alike (relocateHead root around table s h).2.1 := by
  have hinner : Replacements.Alike
      ((h.declarations.map fun d => (d, ((around ++ [s.extend root]).declarationOf? d.uri).getD d)) ++ table) := by
    intro p hp
    rcases List.mem_append.mp hp with hp | hp
    · obtain ⟨d, -, rfl⟩ := List.mem_map.mp hp
      dsimp only
      cases hd : (around ++ [s.extend root]).declarationOf? d.uri with
      | none => rfl
      | some e => exact (Scope.byUri?_some hd).1
    · exact ht p hp
  unfold relocateHead
  dsimp only
  refine ⟨?_, hinner⟩
  simp only [Head.bare, relocateName_bare hinner, relocateAttrs_bare hinner]

theorem Content.relocate_bare (ht : Replacements.Alike table) (root : Frame) (around : Scope) (s : Supply)
    (c : Content ι) : (c.relocate root around table s).1.bare = c.bare := by
  induction c generalizing around table s with
  | nil => rfl
  | leaf l rest ih =>
    rw [relocate, bare, bare, ih ht]
  | element id h inner rest ihi ihr =>
    obtain ⟨hhead, htable⟩ := relocateHead_bare ht root around s h
    rw [relocate, bare, bare, hhead, ihi htable, ihr ht]

/-- Declaring a namespace on an element changes nothing that the element says. -/
theorem Element.declare_bare (d : Declaration) (keep : List String) (counter : Nat) (e : Element ι) :
    (e.declare d keep counter).head.bare = e.head.bare ∧ (e.declare d keep counter).inner.bare = e.inner.bare := by
  have ht : ∀ ds : List Declaration, Replacements.Alike (ds.map fun d => (d, d)) := by
    intro ds p hp
    obtain ⟨d, -, rfl⟩ := List.mem_map.mp hp
    rfl
  have hrelocate : ∀ e : Element ι, (e.relocate counter).1.head.bare = e.head.bare ∧
      (e.relocate counter).1.inner.bare = e.inner.bare := by
    intro e
    unfold relocate
    dsimp only
    refine ⟨?_, Content.relocate_bare (ht _) _ _ _ _⟩
    simp only [Head.bare, relocateName_bare (ht _), relocateAttrs_bare (ht _)]
  unfold declare
  dsimp only
  exact ⟨(hrelocate _).1, (Content.prune_spec keep _).1.trans (hrelocate _).2⟩

end LiveSvg.Markup

namespace LiveSvg.Document

open Markup

variable {ι : Type} {c : Content ι} {removing : Bool}

/-! ### Descriptors alone taken out -/

/-- The content without its descriptors and what is inside them: all else stays. -/
def others : Content ι → Content ι
  | .nil => .nil
  | .leaf l rest => .leaf l (others rest)
  | .element id head inner rest =>
    if isDescriptor head then others rest else .element id head (others inner) (others rest)

/-- Whether character data comes right after a descriptor, of which the first may stand before the content. -/
def trailing (after : Bool) : Content ι → Bool
  | .nil => false
  | .leaf l rest => (after && l.isData) || trailing false rest
  | .element _ head inner rest =>
    if isDescriptor head then trailing true rest else trailing false inner || trailing false rest

/-- What stands in the content beside elements, at any depth. -/
def leaves : Content ι → List Leaf
  | .nil => []
  | .leaf l rest => l :: leaves rest
  | .element _ _ inner rest => leaves inner ++ leaves rest

theorem leaves_bare (c : Content ι) : leaves c.bare = leaves c := by
  induction c with
  | nil => rfl
  | leaf l rest ih => rw [Content.bare, leaves, leaves, ih]
  | element id h inner rest ihi ihr => rw [Content.bare, leaves, leaves, ihi, ihr]

theorem others_bare (c : Content ι) : (others c).bare = others c.bare := by
  induction c with
  | nil => rfl
  | leaf l rest ih => rw [others, Content.bare, Content.bare, others, ih]
  | element id h inner rest ihi ihr =>
    have hd : isDescriptor h.bare = isDescriptor h := by
      obtain ⟨⟨_ | d, base⟩, ds, attrs⟩ := h <;> rfl
    rw [others, Content.bare, others, hd]
    split
    · exact ihr
    · rw [Content.bare, ihi, ihr]

/-- Without descriptors in it, content is all that is not in descriptors. -/
theorem others_eq_self (hn : ∀ x ∈ c.elements, isDescriptor x.head = false) : others c = c := by
  induction c with
  | nil => rfl
  | leaf l rest ih => rw [others, ih hn]
  | element id h inner rest ihi ihr =>
    have hh : isDescriptor h = false := hn ⟨id, h, inner⟩ List.mem_cons_self
    have hinner := ihi fun x hx => hn x (List.mem_cons_of_mem _ (List.mem_append_left _ hx))
    have hrest := ihr fun x hx => hn x (List.mem_cons_of_mem _ (List.mem_append_right _ hx))
    rw [others, hh, hinner, hrest]
    rfl

theorem others_insertFirst {id : ι} {h : Head} {inner : Content ι} (hh : isDescriptor h = true) (c : Content ι) :
    others (insertFirst id h inner c) = others c := by
  have hfirst : ∀ c : Content ι, others (.element id h inner c) = others c := by
    intro c
    rw [others, if_pos hh]
  induction c with
  | leaf l rest ih =>
    rw [insertFirst]
    split
    · rw [others, others, ih]
    · exact hfirst _
  | _ => exact hfirst _

/-- Nothing but descriptors is dropped if no character data comes right after one. -/
theorem drop_eq_others (ht : trailing removing c = false) : dropDescriptors removing c = others c := by
  induction c generalizing removing with
  | nil => rfl
  | leaf l rest ih =>
    rw [trailing, Bool.or_eq_false_iff] at ht
    rw [dropDescriptors, others, ht.1, ih ht.2]
    rfl
  | element id h inner rest ihi ihr =>
    rw [trailing] at ht
    rw [dropDescriptors, others]
    split
    · next hd =>
      rw [if_pos hd] at ht
      exact ihr ht
    · next hd =>
      rw [if_neg hd, Bool.or_eq_false_iff] at ht
      rw [ihi ht.1, ihr ht.2]

/-- What is dropped beside descriptors is the character data right after them: fewer leaves are left then. -/
theorem length_leaves_drop (removing : Bool) (c : Content ι) :
    (leaves (dropDescriptors removing c)).length + (trailing removing c).toNat ≤ (leaves (others c)).length := by
  induction c generalizing removing with
  | nil => exact Nat.le_refl _
  | leaf l rest ih =>
    have htrue := ih true
    have hfalse := ih false
    have hbound : (trailing false rest).toNat ≤ 1 := Bool.toNat_le _
    rw [dropDescriptors, trailing, others, leaves]
    cases hd : removing && l.isData with
    | true =>
      simp only [if_true, Bool.true_or, Bool.toNat_true, List.length_cons]
      omega
    | false =>
      simp only [Bool.false_eq_true, if_false, Bool.false_or, leaves, List.length_cons]
      omega
  | element id h inner rest ihi ihr =>
    rw [dropDescriptors, trailing, others]
    split
    · exact ihr true
    · have hinner := ihi false
      have hrest := ihr false
      have hor : (trailing false inner || trailing false rest).toNat ≤
          (trailing false inner).toNat + (trailing false rest).toNat := by
        cases trailing false inner <;> cases trailing false rest <;> decide
      simp only [leaves, List.length_append]
      omega

theorem drop_bare_iff : (dropDescriptors removing c).bare = (others c).bare ↔ trailing removing c = false := by
  constructor
  · intro h
    have hleaves : leaves (dropDescriptors removing c) = leaves (others c) := by
      rw [← leaves_bare, h, leaves_bare]
    have hlength := length_leaves_drop removing c
    rw [hleaves] at hlength
    have hnat : (trailing removing c).toNat = 0 := by omega
    cases ht : trailing removing c with
    | false => rfl
    | true =>
      rw [ht] at hnat
      cases hnat
  · intro ht
    rw [drop_eq_others ht]

/-- What an element says beside the descriptors inside it, whatever its namespaces are abbreviated to. -/
def remainder (e : Element ι) : Head × Content ι := (e.head.bare, (others e.inner).bare)

theorem isDescriptor_descriptorHead (h : Head) : isDescriptor (descriptorHead h) = true := by
  unfold descriptorHead
  split
  · next d hd =>
    have huri := (Scope.byUri?_some hd).1
    simp [isDescriptor, Name.uri, huri]
  · rfl

/-- Clearing an element takes away what is stripped from it, and nothing else that it says. -/
theorem cleared_bare (e : Element ι) :
    (cleared e).head.bare = e.head.bare ∧ (cleared e).inner.bare = (dropDescriptors false e.inner).bare := by
  unfold cleared withSpace
  split
  · exact ⟨rfl, rfl⟩
  · exact Element.declare_bare space _ _ (strip e)

/-- A document with a descriptor embedded says what it said without descriptors and the data right after them. -/
theorem remainder_embed (d : Descriptor) (e : Element Unit) :
    remainder (embed d e) = (e.head.bare, (dropDescriptors false e.inner).bare) := by
  obtain ⟨hhead, hinner⟩ := cleared_bare e
  have hput : others (put d (cleared e)).inner = others (cleared e).inner :=
    others_insertFirst (isDescriptor_descriptorHead _) _
  have hnone : others (dropDescriptors false e.inner) = dropDescriptors false e.inner :=
    others_eq_self fun x hx => (elements_drop e.inner x hx).1
  rw [embed_eq, remainder, hput, others_bare, hinner, ← others_bare, hnone]
  exact Prod.ext hhead rfl

/-! ### Documents that are read again -/

/-- All declarations of an element and of those inside it. -/
def declarations (e : Element ι) : List Declaration := e.all.flatMap (·.head.declarations)

theorem mem_declarations {e : Element ι} {x : Declaration} :
    x ∈ declarations e ↔ ∃ y ∈ e.all, x ∈ y.head.declarations := List.mem_flatMap

/-- A document is bound as it was once the namespace of descriptors is declared. -/
theorem declaring_meant {e : Element Unit} (he : e.Meant) : (declaring e).Meant := by
  unfold declaring
  dsimp only
  split
  · exact he
  · let s : Supply := ⟨[], 0⟩
    let t : Supply := ⟨[space], 0⟩
    have hx : s.added <+: t.added := List.nil_prefix
    have hprefixed : ∀ d ∈ t.added, d.short.isSome = true := List.forall_mem_singleton.mpr rfl
    have hs : s.extend e.head.frame = e.head.frame := by
      simp [s, Supply.extend, Head.frame]
    obtain ⟨hh, hi⟩ := he
    rw [← hs, ← List.nil_append [_]] at hh hi
    have hh := hh.extend hx hprefixed
    exact ⟨⟨hh.name, hh.attrs, hh.apart⟩, hi.extend hx hprefixed⟩

/-- A cleared document is read as what it is, if its prefixes are not mixed up. -/
theorem rebind_cleared {e : Element Unit} (hs : e.Sound [] Markup.maxDepth) (hp : e.Plain)
    (hu : Bound e ∨ Unmixed (space :: declarations (strip e))) : (cleared e).rebind = some (cleared e) := by
  have hstrip := strip_sound hs
  by_cases hb : Bound e
  · have heq : cleared e = strip e := if_pos hb
    rw [heq]
    exact Element.rebind_iff.mpr ⟨_, _, hstrip.head, hstrip.inner, rfl⟩
  · have hu := hu.resolve_left hb
    have heq : cleared e = (strip e).declare space (shorts (strip e).head ++ ["tb"]) (stripCounter e) := if_neg hb
    have hheads := hstrip.legible.heads
    have hmem : ∀ x ∈ (strip e).all, ∀ d ∈ x.head.declarations, d ∈ space :: declarations (strip e) := fun x hx d hd =>
      List.mem_cons_of_mem _ (mem_declarations.mpr ⟨x, hx, hd⟩)
    have hlegible : ∀ d ∈ space :: declarations (strip e), d.Legible := by
      intro d hd
      rcases List.mem_cons.mp hd with rfl | hd
      · exact space_legible
      · obtain ⟨x, hx, hd⟩ := mem_declarations.mp hd
        exact (hheads x hx).declarations d hd
    have hmeant : (strip e).Meant := by
      rw [Element.meant_iff hstrip.legible fun x hx d hd => (hu d (hmem x hx d hd)).1]
      exact Element.rebind_iff.mpr ⟨_, _, hstrip.head, hstrip.inner, rfl⟩
    have hdmem : ∀ x ∈ (declaring (strip e)).all, ∀ d ∈ x.head.declarations, d ∈ space :: declarations (strip e) := by
      intro x hx d hd
      rcases List.mem_cons.mp hx with rfl | hx
      · rcases mem_declaring.mp hd with hd | ⟨rfl, -⟩
        · exact hmem _ List.mem_cons_self d hd
        · exact List.mem_cons_self
      · exact hmem x (List.mem_cons_of_mem _ hx) d hd
    obtain ⟨ht, -⟩ := relocate_declaring hstrip (strip_plain hp) (stripCounter e)
    obtain ⟨hrelocated, hafter⟩ := Element.relocate_meant hu hlegible (stripCounter e) hdmem
      (fun x hx => ((declaring_legible hstrip.legible).heads x hx).distinct) (declaring_meant hmeant)
    rw [heq, declare_eq]
    have hpruned : (((declaring (strip e)).relocate (stripCounter e)).1.prune (shorts (strip e).head ++ ["tb"])).Meant :=
      Element.prune_meant (fun x hx => (ht.legible.heads x hx).distinct) hrelocated
    rw [Element.meant_iff (Element.prune_spec ht).legible fun x hx d hd =>
      (hu d (Element.mem_prune (P := fun d => d ∈ space :: declarations (strip e)) hafter x hx d hd)).1] at hpruned
    exact hpruned

end LiveSvg.Document
