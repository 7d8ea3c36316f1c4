import LiveSvg.Proofs.Placement
/-!
Texts put into elements. What is in an element is taken out before the text is looked at, so a text that is refused
leaves the element empty. Around the element all stays as it was.
-/

namespace LiveSvg

open Markup
open Script (Datum)

variable {id : Nat} {scope : Scope} {e : Element Nat}

namespace Markup

/-- Changes what is in the element with a label. -/
abbrev Content.refill (c : Content Nat) (id : Nat) (k : Content Nat → Content Nat) : Content Nat :=
  c.update id fun head inner => (head, k inner)

abbrev Element.refill (e : Element Nat) (id : Nat) (k : Content Nat → Content Nat) : Element Nat :=
  e.update id fun head inner => (head, k inner)

/-- A tree with nothing left in the element with a label. -/
abbrev Element.hollow (e : Element Nat) (id : Nat) : Element Nat := e.refill id fun _ => .nil

variable {k l : Content Nat → Content Nat}

namespace Content

theorem refill_element (i : Nat) (head : Head) (inner rest : Content Nat) : (element i head inner rest).refill id k =
    if i = id then .element i head (k inner) (rest.refill id k)
    else .element i head (inner.refill id k) (rest.refill id k) := rfl

theorem refill_refill (c : Content Nat) : (c.refill id k).refill id l = c.refill id fun inner => l (k inner) := by
  induction c with
  | nil => rfl
  | leaf t rest ih => exact congrArg (Content.leaf t) ih
  | element i head inner rest hinner hrest =>
    rw [refill_element, refill_element]
    by_cases hi : i = id
    · rw [if_pos hi, if_pos hi, refill_element, if_pos hi, hrest]
    · rw [if_neg hi, if_neg hi, refill_element, if_neg hi, hinner, hrest]

/-- The element that was found is found with its new content. -/
theorem find?_refill (c : Content Nat) (around : Scope) : (c.refill id k).find? id around =
    (c.find? id around).map fun p => (p.1, ⟨p.2.id, p.2.head, k p.2.inner⟩) :=
  c.find?_update _ around

/-- Where labels are distinct, a tree stays the same if the content of the element that is found does. -/
theorem refill_self {c : Content Nat} {around : Scope} (hn : (c.elements.map (·.id)).Nodup)
    (h : c.find? id around = some (scope, e)) (hk : k e.inner = e.inner) : c.refill id k = c := by
  induction c generalizing around with
  | nil => rfl
  | leaf t rest ih => exact congrArg (Content.leaf t) (ih hn h)
  | element i head inner rest hinner hrest =>
    rw [elements, List.map_cons, List.map_append, List.nodup_cons] at hn
    obtain ⟨hfirst, hn⟩ := hn
    obtain ⟨hni, hnr, hdisjoint⟩ := List.nodup_append.mp hn
    rw [find?] at h
    rw [refill_element]
    split at h
    · next hi =>
      cases h
      have hr : rest.refill id k = rest := update_absent fun e he hid =>
        hfirst (List.mem_append_right _ (List.mem_map.mpr ⟨e, he, hid.trans hi.symm⟩))
      rw [if_pos hi, hr, hk]
    · next hi =>
      rw [if_neg hi]
      cases hf : inner.find? id (head.frame :: around) with
      | some found =>
        rw [hf] at h
        cases h
        obtain ⟨hm, hid⟩ := mem_of_find? hf
        have hr : rest.refill id k = rest := update_absent fun e' he' hid' =>
          hdisjoint _ (List.mem_map.mpr ⟨_, hm, rfl⟩) _ (List.mem_map.mpr ⟨e', he', rfl⟩) (hid.trans hid'.symm)
        rw [hinner hni hf, hr]
      | none =>
        rw [hf] at h
        have hi : inner.refill id k = inner := update_absent fun e' he' hid' => by
          obtain ⟨hm, hid⟩ := mem_of_find? h
          exact hdisjoint _ (List.mem_map.mpr ⟨e', he', rfl⟩) _ (List.mem_map.mpr ⟨_, hm, rfl⟩) (hid'.trans hid.symm)
        rw [hi, hrest hnr h]

end Content

namespace Element

theorem refill_eq (t : Element Nat) : t.refill id k =
    ⟨t.id, t.head, if t.id = id then k t.inner else t.inner.refill id k⟩ := by
  unfold refill update
  split <;> rfl

theorem refill_refill (t : Element Nat) : (t.refill id k).refill id l = t.refill id fun inner => l (k inner) := by
  rw [refill_eq (t.refill id k), refill_eq, refill_eq]
  by_cases hi : t.id = id
  · simp only [if_pos hi]
  · simp only [if_neg hi, Content.refill_refill]

theorem find?_refill (t : Element Nat) : (t.refill id k).find? id =
    (t.find? id).map fun p => (p.1, ⟨p.2.id, p.2.head, k p.2.inner⟩) :=
  t.find?_update _

theorem refill_self {t : Element Nat} (hn : (t.inner.elements.map (·.id)).Nodup) (h : t.find? id = some (scope, e))
    (hk : k e.inner = e.inner) : t.refill id k = t := by
  rw [find?] at h
  rw [refill_eq]
  by_cases hi : t.id = id
  · rw [if_pos hi] at h
    cases h
    rw [if_pos hi, hk]
  · rw [if_neg hi] at h
    rw [if_neg hi, Content.refill_self hn h hk]

/-- Only content that stays leaves the tree as it was. -/
theorem refill_eq_iff {t : Element Nat} (hn : (t.inner.elements.map (·.id)).Nodup) (h : t.find? id = some (scope, e)) :
    t.refill id k = t ↔ k e.inner = e.inner := by
  refine ⟨fun heq => ?_, refill_self hn h⟩
  have hfound : (t.refill id k).find? id = _ := t.find?_refill
  rw [heq, h, Option.map_some, Option.some.injEq, Prod.mk.injEq] at hfound
  exact (congrArg Element.inner hfound.2).symm

end Element

end Markup

namespace Drawing

variable {d d' : Drawing} {inner : Content Nat}

/-- Whether a drawing is another one with an element filled anew: around the element nothing has changed, and what
is in it is this content. -/
structure Filled (d : Drawing) (id : Nat) (inner : Content Nat) (d' : Drawing) : Prop where
  around : d'.root.hollow id = d.root.hollow id
  found : d'.root.find? id = (d.root.find? id).map fun p => (p.1, ⟨p.2.id, p.2.head, inner⟩)

theorem Filled.of_refill {k : Content Nat → Content Nat} (hr : d'.root = d.root.refill id k)
    (h : d.root.find? id = some (scope, e)) : d.Filled id (k e.inner) d' := by
  constructor
  · rw [hr]
    exact d.root.refill_refill
  · rw [hr, d.root.find?_refill, h]
    rfl

theorem Filled.element? (hf : d.Filled id inner d') (h : d.root.find? id = some (scope, e)) :
    d'.element? id = some ⟨e.id, e.head, inner⟩ := by
  have hfound := hf.found
  rw [h] at hfound
  rw [Drawing.element?, Drawing.find?, hfound]
  rfl

/-- What is in an element after a text has been put there, or refused. -/
def textContent (value : String) : Content Nat := if isCarried value then .leaf (.text value) .nil else .nil

theorem clearChildren_root (d : Drawing) (id : Nat) : (d.clearChildren id).root = d.root.refill id leading := rfl

theorem setText_root (d : Drawing) (id : Nat) (value : String) :
    (d.setText id value).1.root = d.root.refill id fun _ => textContent value := by
  unfold setText textContent
  split <;> exact d.root.refill_refill (k := leading)

end Drawing

namespace Run

open World (element)
open Drawing (isCarried notCarried drawingUri)

variable {w : World} {d : Drawing} {value : Datum} {s : String} {f : Failure}

/-- The text that a value is put into an element as: none is put there as an empty one. -/
def newText (w : World) : Datum → Except Failure String
  | .null => .ok ""
  | value => Script.Operation.textOf w.view value

theorem setText_eq (value : Datum) : setText id value w = putText id (newText w value) w := by
  by_cases hv : value = .null
  · rw [hv]
    rfl
  · rw [setText.eq_2 _ _ hv, newText.eq_2 _ _ hv]
    rfl

theorem text_eq_ok (h : setText id value w = .ok () w') : text id [value] w = .ok (element id) w' := by
  rw [text, bind_ok h]
  rfl

theorem text_eq_error (h : setText id value w = .error f w') : text id [value] w = .error f w' := by
  rw [text, bind_error h]

theorem putText_text (hw : w.drawing = some d) : putText id (.ok s) w =
    if isCarried s then .ok () ((setDrawing (d.setText id s).1).after w)
    else .error notCarried ((setDrawing (d.setText id s).1).after w) := by
  rw [putText, bind_ok (drawing_eq "node" hw)]
  dsimp only
  rw [Drawing.setText]
  split <;> rfl

theorem putText_failure (hw : w.drawing = some d) :
    putText id (.error f) w = .error f ((setDrawing (d.clearChildren id)).after w) := by
  rw [putText, bind_ok (drawing_eq "node" hw)]
  rfl

/-- Putting a value into an element replaces all that is in it by the text of the value, if it has one that markup can
carry. Else it fails, and what was in the element is lost: all of it, or all but the data it starts with where there
is no text at all. Either way the element keeps its attributes, and around it all is as before; so the tree is as
before a failure only if there was nothing to lose. -/
theorem text_replaced (hw : w.drawing = some d) (he : d.root.find? id = some (scope, e)) (value : Datum) :
    (∀ s, newText w value = .ok s → isCarried s = true → ∃ d' w', text id [value] w = .ok (element id) w' ∧
      w'.drawing = some d' ∧ d.Filled id (.leaf (.text s) .nil) d' ∧ text id [] w' = .ok (.text s) w' ∧
      d'.children id = [] ∧ d'.attrs id = d.attrs id) ∧
    (∀ s, newText w value = .ok s → isCarried s = false → ∃ d' w', text id [value] w = .error notCarried w' ∧
      w'.drawing = some d' ∧ d.Filled id .nil d' ∧ (d.Apart → (d'.root = d.root ↔ e.inner = .nil))) ∧
    ∀ f, newText w value = .error f → ∃ d' w', text id [value] w = .error f w' ∧
      w'.drawing = some d' ∧ d.Filled id (Drawing.leading e.inner) d' ∧
      (d.Apart → (d'.root = d.root ↔ Drawing.leading e.inner = e.inner)) := by
  have hset : ∀ t, newText w value = t → setText id value w = putText id t w := fun t ht => ht ▸ setText_eq value
  refine ⟨fun s hs hc => ?_, fun s hs hc => ?_, fun f hf => ?_⟩
  · have hroot := d.setText_root id s
    have hrun := (hset _ hs).trans (putText_text hw)
    rw [Drawing.textContent, if_pos hc] at hroot
    rw [if_pos hc] at hrun
    have hfilled := Drawing.Filled.of_refill hroot he
    have hfound := hfilled.element? he
    refine ⟨_, _, text_eq_ok hrun, rfl, hfilled, ?_, ?_, ?_⟩
    · have hread : (d.setText id s).1.text id = s := by
        rw [Drawing.text, hfound]
        simp [Content.data, Leaf.data?]
      rw [text, bind_ok (drawing_eq "node" rfl), hread]
      rfl
    · rw [Drawing.children, hfound]
      rfl
    · rw [Drawing.attrs, hfound, Drawing.attrs, Drawing.element?, Drawing.find?, he]
      rfl
  · have hroot := d.setText_root id s
    have hrun := (hset _ hs).trans (putText_text hw)
    rw [Drawing.textContent, hc, if_neg Bool.false_ne_true] at hroot
    rw [hc, if_neg Bool.false_ne_true] at hrun
    refine ⟨_, _, text_eq_error hrun, rfl, .of_refill hroot he, fun hn => ?_⟩
    rw [hroot, Element.refill_eq_iff hn he, eq_comm]
  · have hrun := (hset _ hf).trans (putText_failure hw)
    refine ⟨_, _, text_eq_error hrun, rfl, .of_refill (d.clearChildren_root id) he, fun hn => ?_⟩
    rw [d.clearChildren_root, Element.refill_eq_iff hn he]

/-- A drawing of a caption: a text with a part of its own in it, and a remark after it. -/
def captioned : Element Unit :=
  let space : Declaration := ⟨none, drawingUri⟩
  ⟨(), ⟨⟨some space, "svg"⟩, [space], []⟩,
    .element () ⟨⟨some space, "text"⟩, [], []⟩
      (.element () ⟨⟨some space, "tspan"⟩, [], []⟩ (.leaf (.text "old") .nil) .nil)
      (.leaf (.text "after") .nil)⟩

theorem text_replaced_caption : ∃ d' w', text 1 [.text "new"] (World.ofDrawing (some captioned) false) =
      .ok (element 1) w' ∧ w'.drawing = some d' ∧ text 1 [] w' = .ok (.text "new") w' ∧ d'.children 1 = [] := by
  obtain ⟨hreplaced, -⟩ := @text_replaced 1 _ _ (.ofDrawing (some captioned) false) _ rfl rfl (.text "new")
  obtain ⟨d', w', hset, hdrawing, -, htext, hchildren, -⟩ := hreplaced "new" rfl (by decide)
  exact ⟨d', w', hset, hdrawing, htext, hchildren⟩

/-- A control character cannot be put into the caption, and the part that was there before is gone. -/
theorem caption_lost : ¬ ∀ (w w' : World) (d d' : Drawing) (id : Nat) (scope : Scope) (e : Element Nat)
    (value : Datum) (f : Failure), w.drawing = some d → d.root.find? id = some (scope, e) →
    text id [value] w = .error f w' → w'.drawing = some d' → d'.root = d.root := by
  intro h
  have hsame := h (World.ofDrawing (some captioned) false) _ _ _ 1 _ _ (.text "\x01") notCarried rfl rfl rfl rfl
  have helements := congrArg (fun t : Element Nat => t.inner.elements.length) hsame
  exact absurd helements (by decide)

end Run

end LiveSvg
