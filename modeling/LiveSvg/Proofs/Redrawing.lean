import LiveSvg.Proofs.Embedding
import LiveSvg.Proofs.Scaling
/-!
Drawings as documents: a drawing that comes from a document is written as one that is read again, and stays so
while attributes are set on its root.
-/

namespace LiveSvg

open Markup

namespace Markup

variable {ι : Type} {h : Head} {new : Attr} {key : Drawing.Key} {base value : String} {scope : Scope}

/-! ### Labels -/

theorem Content.chars_label (c : Content ι) (next : Nat) : (c.label next).1.chars = c.chars := by
  induction c generalizing next with
  | nil => rfl
  | leaf l rest ih => exact congrArg (l.chars ++ ·) (ih next)
  | element id h inner rest hinner hrest =>
    have hbody : (inner.label (next + 1)).1.body = inner.body := by
      cases inner with
      | nil => rfl
      | leaf | element => exact congrArg some (hinner (next + 1))
    rw [Content.chars_element, ← hbody, ← hrest (inner.label (next + 1)).2]
    exact Content.chars_element _ _ _ _

/-- Labels are not written. -/
theorem Content.body_label (c : Content ι) (next : Nat) : (c.label next).1.body = c.body := by
  cases c with
  | nil => rfl
  | leaf | element => exact congrArg some (chars_label _ next)

/-! ### Attributes that are set -/

/-- Attributes with different names still have them when one of them is set. -/
theorem nodup_setIn {attrs : List Attr} (hn : key.names new.name = true)
    (hd : (attrs.map fun a => (a.name.uri, a.name.base)).Nodup) :
    ((Drawing.setIn key new attrs).map fun a => (a.name.uri, a.name.base)).Nodup := by
  have hsame : ∀ a : Attr, key.names a.name = true ↔ (a.name.uri, a.name.base) = (new.name.uri, new.name.base) := by
    intro a
    rw [Drawing.Key.names_iff, Drawing.Key.names_iff.mp hn]
    simp [eq_comm]
  induction attrs with
  | nil => exact List.nodup_singleton _
  | cons b attrs ih =>
    rw [List.map_cons, List.nodup_cons] at hd
    rw [Drawing.setIn]
    split
    · next hb =>
      rw [List.map_cons, List.nodup_cons, ← (hsame b).mp hb]
      exact hd
    · next hb =>
      rw [List.map_cons, List.nodup_cons]
      refine ⟨fun hm => ?_, ih hd.2⟩
      obtain ⟨a, ha, hname⟩ := List.mem_map.mp hm
      rcases Drawing.mem_setIn ha with rfl | ha
      · exact hb ((hsame b).mpr hname.symm)
      · exact hd.1 (hname ▸ List.mem_map_of_mem ha)

/-- A start tag with an attribute that has no namespace. -/
def Head.setting (h : Head) (base value : String) : Head :=
  ⟨h.name, h.declarations, Drawing.setIn ⟨none, base⟩ ⟨Name.plain base, value⟩ h.attrs⟩

/-- Whether an attribute with this name and value can be written, and declares nothing. -/
structure Writes (base value : String) : Prop where
  name : isName base.toList = true
  value : isWritable value = true
  other : base ≠ "xmlns"

theorem Writes.legible (hw : Writes base value) : Attr.Legible ⟨Name.plain base, value⟩ where
  name := ⟨hw.name, fun _ h => nomatch h⟩
  prefixed := fun _ h => nomatch h
  writable := hw.value
  other := by
    have hparts : (Name.plain base).parts = (none, base) := rfl
    rw [hparts, isDeclaration, Bool.or_eq_false_iff]
    refine ⟨rfl, beq_eq_false_iff_ne.mpr fun k => hw.other (Prod.mk.inj k).2⟩

theorem Head.Legible.setting (hl : h.Legible) (hw : Writes base value) : (h.setting base value).Legible where
  name := hl.name
  declarations := hl.declarations
  distinct := hl.distinct
  attrs := fun a ha => (Drawing.mem_setIn ha).elim (fun k => k ▸ hw.legible) (hl.attrs a)

/-- An outermost start tag that is bound as it is written stays so when an attribute is set. -/
theorem Head.bind?_setting (hl : h.Legible) (hb : bind? [] h.name.parts h.raw = some h) (hw : Writes base value) :
    bind? [] (h.setting base value).name.parts (h.setting base value).raw = some (h.setting base value) := by
  have hbound := (Head.bound_iff hl).mpr hb
  have hnames : (⟨none, base⟩ : Drawing.Key).names (Name.plain base) = true := Drawing.Key.names_iff.mpr rfl
  refine (Head.bound_iff (hl.setting hw)).mp ⟨hbound.name, fun a ha => ?_, ?_⟩
  · exact (Drawing.mem_setIn ha).elim (fun k => k ▸ rfl) (hbound.attrs a)
  · exact @nodup_setIn ⟨Name.plain base, value⟩ _ _ hnames hbound.apart

end Markup

/-! ### Drawings that are written as documents -/

namespace Drawing

variable {d d' : Drawing} {e : Element Unit} {base value name : String}

/-- Whether a drawing is written as an element that stands for itself. -/
structure Shows (d : Drawing) (e : Element Unit) : Prop where
  head : d.root.head = e.head
  body : d.root.inner.body = e.inner.body
  sound : e.Sound [] maxDepth
  plain : e.Plain

theorem Shows.of_root (h : d.Shows e) (hr : d'.root = d.root) : d'.Shows e where
  head := hr ▸ h.head
  body := hr ▸ h.body
  sound := h.sound
  plain := h.plain

/-- A drawing is read again from its markup. -/
theorem Shows.read (h : d.Shows e) : Markup.read (.text d.markup) = some e := by
  have hmarkup : d.markup = e.markup := by
    rw [← String.toList_inj]
    change d.root.markup.toList = _
    rw [Element.markup_toList, Element.markup_toList, h.head, h.body]
  rw [hmarkup, read_markup h.sound.legible h.plain h.sound.shallow]
  exact Element.rebind_iff.mpr ⟨_, _, h.sound.head, h.sound.inner, rfl⟩

theorem Shows.putRoot (h : d.Shows e) (hb : base ≠ "xmlns") (hp : d.putRoot base value = .ok d') :
    d'.Shows ⟨(), e.head.setting base value, e.inner⟩ := by
  unfold Drawing.putRoot put at hp
  split at hp
  · cases hp
  · next hname =>
    split at hp
    · cases hp
    · next hvalue =>
      have hcarried : isCarried value = true := by simpa using hvalue
      have hw : Writes base value := ⟨by simpa using hname, hcarried, hb⟩
      cases hp
      have hroot := d.root_retag (·.setting base value)
      refine ⟨?_, ?_, ⟨⟨h.sound.legible.1.setting hw, h.sound.legible.2⟩, ?_, h.sound.inner, h.sound.shallow⟩, ?_⟩
      · exact (congrArg Element.head hroot).trans (congrArg (·.setting base value) h.head)
      · exact (congrArg (·.inner.body) hroot).trans h.body
      · exact Head.bind?_setting h.sound.legible.1 h.sound.head hw
      · exact List.forall_mem_cons.mpr ⟨h.plain e List.mem_cons_self, fun x hx =>
          h.plain x (List.mem_cons_of_mem _ hx)⟩

/-- A drawing of a document stands for what is left of it without descriptors. -/
theorem shows_drawingOf (hs : e.Sound [] maxDepth) (hp : e.Plain) (first : Nat) :
    (Run.drawingOf first (some e)).Shows (Document.strip e) where
  head := rfl
  body := Content.body_label _ _
  sound := Document.strip_sound hs
  plain := Document.strip_plain hp

/-- Whether a drawing is read again from its markup. -/
def Readable (d : Drawing) : Prop := ∃ e, d.Shows e

theorem Readable.putRoot (h : d.Readable) (hb : base ≠ "xmlns") (hp : d.putRoot base value = .ok d') : d'.Readable := by
  obtain ⟨e, he⟩ := h
  exact ⟨_, he.putRoot hb hp⟩

theorem Readable.setStyle (h : d.Readable) (hs : d.setStyle name (some value) = .ok d') : d'.Readable :=
  h.putRoot (by decide) ((d.setStyle_some name value).symm.trans hs)

theorem Readable.prepared (h : d.Readable) (hp : Run.prepared d = .ok d') : d'.Readable := by
  obtain ⟨d₁, h₁, hp⟩ := Json.bind_eq_ok.mp hp
  exact (h.setStyle h₁).setStyle hp

theorem Readable.naturallySized {box : Box} (h : d.Readable) (hn : Run.naturallySized d box = .ok d') :
    d'.Readable := by
  unfold Run.naturallySized at hn
  split at hn
  · cases hn
    exact h
  · obtain ⟨d₁, h₁, hn⟩ := Json.bind_eq_ok.mp hn
    exact (h.putRoot (by decide) h₁).putRoot (by decide) hn

end Drawing

end LiveSvg
