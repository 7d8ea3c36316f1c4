import LiveSvg.Drawing.Basic
import LiveSvg.Proofs.Lines
import LiveSvg.Proofs.Parsing
import LiveSvg.Proofs.Sections
/-!
Styles and sizes of drawings. What the root of a drawing carries can be carried again when it has been
taken apart and put together, so that a style can be set and a size be written.
-/

namespace LiveSvg.Drawing

open Markup

variable {d d' : Drawing} {base s t : String} {cs ds : List Char} {mark : Char}

/-! ### Texts that markup can carry -/

theorem isCarried_append : isCarried (s ++ t) = (isCarried s && isCarried t) := by
  unfold isCarried
  rw [String.toList_append, List.all_append]

theorem isCarried_ofList (h : ∀ c ∈ cs, isMarkupChar c = true) : isCarried (String.ofList cs) = true := by
  unfold isCarried
  rw [String.toList_ofList]
  exact List.all_eq_true.mpr h

theorem isCarried_intercalate {l : List String} (hs : isCarried s = true) (h : ∀ t ∈ l, isCarried t = true) :
    isCarried (s.intercalate l) = true := by
  induction l with
  | nil => rfl
  | cons t l ih =>
    have ht : isCarried t = true := h t List.mem_cons_self
    cases l with
    | nil =>
      rw [String.intercalate_singleton]
      exact ht
    | cons u l =>
      rw [String.intercalate_cons_cons, isCarried_append, isCarried_append, ht, hs]
      exact ih fun t k => h t (List.mem_cons_of_mem _ k)

/-- Numbers are shown by texts that markup can carry. -/
theorem isCarried_plainText (x : Number.Binary64) : isCarried x.plainText = true := by
  unfold Number.Binary64.plainText
  split
  · exact all_isMarkupChar_of_isClean (Json.isClean_of_isNumeral (Json.mem_intText _))
  · cases x with
    | nan => decide
    | infinity negative => cases negative <;> decide
    | finite negative m e hc =>
      exact all_isMarkupChar_of_isClean (Json.isClean_of_isNumeral (Json.mem_text negative hc))

/-! ### Styles -/

theorem mem_of_mem_trim {c : Char} (hc : c ∈ Text.trim cs) : c ∈ cs := by
  unfold Text.trim Text.dropBlankRight at hc
  have hleft := (List.dropWhile_sublist _).subset (List.mem_reverse.mp hc)
  exact (List.dropWhile_sublist _).subset (List.mem_reverse.mp hleft)

/-- Whether a style has nothing in it that markup cannot carry. -/
def Style.Carried (style : Style) : Prop := ∀ p ∈ style, isCarried p.1 = true ∧ isCarried p.2 = true

namespace Style

variable {style : Style} {name value : String}

theorem Carried.set (h : style.Carried) (hn : isCarried name = true) (hv : isCarried value = true) :
    Carried (Value.Members.set style name value) := by
  induction style with
  | nil => exact List.forall_mem_singleton.mpr ⟨hn, hv⟩
  | cons p style ih =>
    obtain ⟨hp, hrest⟩ := List.forall_mem_cons.mp h
    rw [Value.Members.set]
    split
    · exact List.forall_mem_cons.mpr ⟨⟨hp.1, hv⟩, hrest⟩
    · exact List.forall_mem_cons.mpr ⟨hp, ih hrest⟩

theorem declaration?_carried (hcs : ∀ c ∈ cs, isMarkupChar c = true) (h : declaration? cs = some (name, value)) :
    isCarried name = true ∧ isCarried value = true := by
  obtain ⟨⟨before, after⟩, hsplit, h⟩ := Option.bind_eq_some_iff.mp h
  dsimp only at h
  split at h
  · cases h
  · cases h
    rw [(splitFirst_some hsplit).1] at hcs
    constructor
    · exact isCarried_ofList fun c hc => hcs c (List.mem_append_left _ (mem_of_mem_trim hc))
    · exact isCarried_ofList fun c hc =>
        hcs c (List.mem_append_right _ (List.mem_cons_of_mem _ (mem_of_mem_trim hc)))

theorem parse_carried (h : isCarried s = true) : (parse s).Carried := by
  have hparts : ∀ part ∈ Text.splitAt ';' s.toList, ∀ c ∈ part, isMarkupChar c = true := fun part hp c hc =>
    List.all_eq_true.mp h c (Text.mem_of_mem_splitAt hp hc)
  have hnil : Carried [] := fun p hp => by cases hp
  refine List.foldlRecOn _ _ hnil fun style hstyle part hpart => ?_
  split
  · next name value hd =>
    obtain ⟨hn, hv⟩ := declaration?_carried (hparts part hpart) hd
    exact hstyle.set hn hv
  · exact hstyle

theorem Carried.text (h : style.Carried) : isCarried style.text = true := by
  refine isCarried_intercalate (by decide) fun t ht => ?_
  obtain ⟨⟨name, value⟩, hp, rfl⟩ := List.mem_map.mp ht
  obtain ⟨hn, hv⟩ := h _ hp
  rw [isCarried_append, isCarried_append, hn, hv]
  decide

end Style

/-! ### The root of a drawing -/

/-- Whether the root of a drawing has only values that markup can carry. -/
def Carried (d : Drawing) : Prop := ∀ a ∈ d.root.head.attrs, isCarried a.value = true

theorem Carried.rootAttr? (h : d.Carried) (hs : d.rootAttr? base = some s) : isCarried s = true := by
  obtain ⟨a, ha, rfl⟩ := Option.map_eq_some_iff.mp hs
  exact h a (List.mem_of_find?_eq_some ha)

theorem Carried.style (h : d.Carried) : d.style.Carried := by
  unfold Drawing.style
  split
  · next s hs => exact Style.parse_carried (h.rootAttr? hs)
  · exact fun p hp => by cases hp

theorem mem_setIn {key : Key} {new a : Attr} {attrs : List Attr} (h : a ∈ setIn key new attrs) : a = new ∨ a ∈ attrs := by
  induction attrs with
  | nil => exact .inl (List.mem_singleton.mp h)
  | cons b attrs ih =>
    rw [setIn] at h
    split at h
    · exact (List.mem_cons.mp h).imp_right (List.mem_cons_of_mem _)
    · rcases List.mem_cons.mp h with rfl | h
      · exact .inr List.mem_cons_self
      · exact (ih h).imp_right (List.mem_cons_of_mem _)

theorem update_root_head (d : Drawing) (f : Head → Content Nat → Head × Content Nat) :
    (d.update d.root.id f).root.head = (f d.root.head d.root.inner).1 := by
  unfold update Element.update
  rw [if_pos rfl]

/-- What can be carried can be written to the root of a drawing. -/
theorem putRoot_ok (h : d.Carried) (base : String) (hb : isName base.toList = true) (hs : isCarried s = true) :
    ∃ d', d.putRoot base s = .ok d' ∧ d'.Carried := by
  unfold putRoot put
  rw [hb, hs]
  refine ⟨_, rfl, fun a ha => ?_⟩
  dsimp only at ha
  rw [update_root_head] at ha
  rcases mem_setIn ha with rfl | ha
  · exact hs
  · exact h a ha

theorem setStyle_ok (h : d.Carried) (name value : String) (hn : isCarried name = true) (hv : isCarried value = true) :
    ∃ d', d.setStyle name (some value) = .ok d' ∧ d'.Carried := by
  unfold setStyle putStyle
  have hstyle : (d.style.put name (some value)).Carried := h.style.set hn hv
  split
  · refine ⟨_, rfl, fun a ha => ?_⟩
    unfold erase at ha
    rw [update_root_head] at ha
    exact h a (List.mem_of_mem_filter ha)
  · exact putRoot_ok h "style" (by decide) hstyle.text

theorem Key.ofName_cursor (scope : Scope) : Key.ofName scope "cursor" = .ok ⟨none, "cursor"⟩ := by
  have hsplit : Text.splitFirst ':' "cursor".toList = none := by decide
  have hplain : Key.qualify scope "cursor" = "cursor" := by
    unfold Key.qualify
    rw [hsplit]
  have htext : Key.ofText "cursor" = .ok ⟨none, "cursor"⟩ := by
    unfold Key.ofText
    rw [if_neg (by decide)]
    rfl
  unfold Key.ofName
  rw [hplain, htext]

/-- Every element can be given a cursor. -/
theorem setAttr_cursor (d : Drawing) (id : Nat) : ∃ d', d.setAttr id "cursor" (some "pointer") = .ok d' := by
  unfold setAttr
  rw [Key.ofName_cursor]
  exact ⟨_, rfl⟩

/-- The drawing of a document carries what the document carries. -/
theorem carried_ofElement {e : Element Unit} (he : ∀ a ∈ e.head.attrs, isCarried a.value = true) (first generated : Nat) :
    (ofElement e first generated).Carried := he

end LiveSvg.Drawing
