import LiveSvg.Proofs.Naming
import LiveSvg.Proofs.Replacing
import LiveSvg.Proofs.Upkeep
/-!
Scenes: drawings that come from documents and have been changed as scripts change them. A scene is read again from
its markup, where an attribute that has been set has its value.
-/

namespace LiveSvg

open Markup
open Script (Datum)

namespace Markup

variable {ι : Type} {P : Scope → Head → Prop} {scope around : Scope} {c : Content ι} {k : Content Nat → Content Nat}
  {h : Head}

/-! ### What is left in an element -/

theorem Content.condense_label (c : Content ι) (next : Nat) : (c.label next).1.condense = c.condense := by
  induction c generalizing next with
  | nil => rfl
  | leaf l rest ih =>
    change (if l = .text "" then (rest.label next).1.condense else .leaf l (rest.label next).1.condense) = _
    rw [ih, condense]
  | element id h inner rest hinner hrest =>
    change Content.element () h (inner.label (next + 1)).1.condense
      (rest.label (inner.label (next + 1)).2).1.condense = _
    rw [hinner, hrest, condense]

/-- Labels and empty texts say nothing of start tags. -/
theorem Content.heads_condense (c : Content ι) : c.condense.elements.map (·.head) = c.elements.map (·.head) := by
  induction c with
  | nil => rfl
  | leaf l rest ih =>
    rw [condense]
    split
    · exact ih
    · exact ih
  | element id h inner rest hinner hrest =>
    simp only [condense, elements, List.map_cons, List.map_append, hinner, hrest]

theorem Content.holds_of_elements_eq_nil (hc : c.elements = []) : c.Holds P scope := by
  induction c generalizing scope with
  | nil => trivial
  | leaf l rest ih => exact ih hc
  | element => cases hc

theorem Content.depth_of_elements_eq_nil (hc : c.elements = []) : c.condense.depth = 0 := by
  induction c with
  | nil => rfl
  | leaf l rest ih =>
    rw [condense]
    split
    · exact ih hc
    · exact ih hc
  | element => cases hc

theorem Tame.refill (hk : ∀ inner, (k inner).elements = [])
    (ht : ∀ inner, inner.condense.Texts → (k inner).condense.Texts) : Tame fun h inner => (h, k inner) where
  texts := fun _ inner => ht inner
  depth := fun _ inner => by
    rw [Content.depth_of_elements_eq_nil (hk inner)]
    exact Nat.zero_le _
  ids := fun _ inner => by
    rw [hk inner]
    exact List.nil_sublist _

theorem elements_leading (c : Content ι) : (Drawing.leading c).elements = [] := by
  induction c with
  | nil | element => rfl
  | leaf l rest ih =>
    rw [Drawing.leading]
    split
    · exact ih
    · rfl

theorem startsText_leading (hc : c.condense.startsText = false) : (Drawing.leading c).condense.startsText = false := by
  induction c with
  | nil | element => rfl
  | leaf l rest ih =>
    rw [Content.condense] at hc
    rw [Drawing.leading]
    split
    · rw [Content.condense]
      split at hc
      · next hl =>
        rw [if_pos hl]
        exact ih hc
      · next hl =>
        rw [if_neg hl]
        exact hc
    · rfl

theorem texts_leading (hc : c.condense.Texts) : (Drawing.leading c).condense.Texts := by
  induction c with
  | nil | element => trivial
  | leaf l rest ih =>
    rw [Content.condense] at hc
    rw [Drawing.leading]
    split
    · rw [Content.condense]
      split at hc
      · next hl =>
        rw [if_pos hl]
        exact ih hc
      · next hl =>
        rw [if_neg hl]
        exact ⟨hc.1, fun ht => startsText_leading (hc.2.1 ht), ih hc.2.2⟩
    · trivial

theorem texts_textContent (value : String) : (Drawing.textContent value).condense.Texts := by
  unfold Drawing.textContent
  split
  · next hv =>
    rw [Content.condense]
    split
    · trivial
    · next hl => exact ⟨⟨fun h => hl (congrArg Leaf.text h), hv⟩, fun _ => rfl, trivial⟩
  · trivial

theorem elements_textContent (value : String) : (Drawing.textContent value).elements = [] := by
  unfold Drawing.textContent
  split
  · rfl
  · rfl

/-- A start tag that is read again is so without some of its attributes. -/
theorem Head.Returns.erase (hr : h.Returns around) (p : Attr → Bool) : Head.Returns around { h with attrs := h.attrs.filter p } := by
  have hsub : h.attrs.filter p ⊆ h.attrs := List.filter_sublist.subset
  have hl := hr.reads.legible
  have hb := hr.reads.bound
  exact ⟨⟨⟨hl.name, hl.declarations, hl.distinct, fun a ha => hl.attrs a (hsub ha)⟩,
    ⟨hb.name, fun a ha => hb.attrs a (hsub ha), hb.apart.sublist (List.filter_sublist.map _)⟩⟩, hr.plain⟩

end Markup

namespace Drawing

/-- Drawings that come from documents whose addresses are written as they are read, and have been changed as scripts
change them. -/
inductive Scene : Drawing → Prop
  | document {source : Source} {e : Element Unit} (hread : Markup.read source = some e) (hp : e.Plain)
      (first generated : Nat) : Scene (ofElement e first generated)
  | loaded {source : Source} {e : Element Unit} (hread : Markup.read source = some e) (hp : e.Plain) (first : Nat) :
      Scene (Run.drawingOf first (some e))
  | blank (first generated : Nat) : Scene (ofElement blank first generated)
  | put {d d' : Drawing} {id : Nat} {key : Key} {value : String} (hd : d.Scene) (hk : key.Sayable)
      (hp : d.put id key value = .ok d') : Scene d'
  | erase {d : Drawing} (hd : d.Scene) (id : Nat) (key : Key) : Scene (d.erase id key)
  | setText {d : Drawing} (hd : d.Scene) (id : Nat) (value : String) : Scene (d.setText id value).1
  | clearChildren {d : Drawing} (hd : d.Scene) (id : Nat) : Scene (d.clearChildren id)
  | loose {d : Drawing} (hd : d.Scene) (loose : List (Element Nat)) : Scene { d with loose }

variable {d d' : Drawing} {e : Element Unit} {source : Source} {key : Key} {value name : String} {id : Nat}
  {around : Scope} {x : Element Nat} {f : Head → Content Nat → Head × Content Nat}

/-! ### Drawings that are read again -/

/-- Whether a drawing is read again from its markup. -/
structure Sound (d : Drawing) : Prop where
  heads : d.root.Holds Head.Returns
  texts : d.root.inner.condense.Texts
  shallow : d.root.inner.condense.depth < maxDepth
  apart : (d.root.all.map (·.id)).Nodup

/-- What is read is the drawing without its labels and its empty texts. -/
theorem Sound.read (hd : d.Sound) : Markup.read (.text d.markup) = some d.root.condense := by
  obtain ⟨hhead, hinner⟩ := hd.heads
  have hcondense : d.root.inner.condense.Holds Head.Returns [d.root.head.frame] := Content.holds_condense.mpr hinner
  have hlegible : d.root.inner.condense.Legible :=
    (Content.legible_iff _).mpr ⟨hd.texts, hcondense.mono fun _ _ hr => hr.reads.legible⟩
  have hplain : d.root.condense.Plain := by
    refine List.forall_mem_cons.mpr ⟨hhead.plain, ?_⟩
    exact Content.holds_iff_elements.mp (hcondense.mono fun _ _ hr => hr.plain)
  have hself := (Content.holds_bound_iff hlegible).mp (hcondense.mono fun _ _ hr => hr.reads.bound)
  have hread : Markup.read (.text d.markup) = d.root.condense.rebind :=
    read_condense ⟨hhead.reads.legible, hlegible⟩ hplain hd.shallow
  rw [hread]
  exact Element.rebind_iff.mpr ⟨_, _, (Head.bound_iff hhead.reads.legible).mp hhead.reads.bound, hself, rfl⟩

theorem heads_condense (d : Drawing) : d.root.condense.all.map (·.head) = d.root.all.map (·.head) :=
  congrArg (d.root.head :: ·) d.root.inner.heads_condense

theorem Sound.ofElement (hs : e.Sound [] maxDepth) (hp : e.Plain) (first generated : Nat) :
    (Drawing.ofElement e first generated).Sound := by
  have hplain : e.inner.Holds (fun _ h => ∀ d ∈ h.declarations, isPlainAddress d.uri = true) [e.head.frame] :=
    Content.holds_iff_elements.mpr fun x hx => hp x (List.mem_cons_of_mem _ hx)
  have hreturns : e.Holds Head.Returns :=
    ⟨⟨hs.holds.1, hp e List.mem_cons_self⟩, (hs.holds.2.and hplain).mono fun _ _ h => ⟨h.1, h.2⟩⟩
  have hself : (Drawing.ofElement e first generated).root.inner.condense = e.inner :=
    (e.inner.condense_label (first + 1)).trans (Content.condense_of_legible hs.legible.2)
  refine ⟨ofElement_holds hreturns first generated, ?_, ?_, ofElement_nodup e first generated⟩
  · rw [hself]
    exact ((Content.legible_iff []).mp hs.legible.2).1
  · rw [hself]
    exact hs.shallow

/-- A change that leaves the start tag and the content of an element readable leaves the drawing so. -/
theorem Sound.update (hd : d.Sound) (hf : Tame f) (hr : d'.root = d.root.update id f)
    (hx : ∀ around x, d.root.find? id = some (around, x) → around.Sound → x.head.Returns around →
      x.inner.Holds Head.Returns (x.head.frame :: around) →
        (f x.head x.inner).1.Returns around ∧
          (f x.head x.inner).2.Holds Head.Returns ((f x.head x.inner).1.frame :: around)) : d'.Sound := by
  have hreads : d.root.Holds Head.Reads := ⟨hd.heads.1.reads, hd.heads.2.mono fun _ _ hr => hr.reads⟩
  constructor
  · rw [hr]
    exact hd.heads.update hd.apart fun around x hfind hret hin => hx around x hfind (hreads.within.of_find? hfind).1 hret hin
  · rw [hr]
    exact Element.texts_update hd.texts hf id
  · rw [hr]
    exact Nat.lt_of_le_of_lt (Element.depth_update hf id d.root) hd.shallow
  · rw [hr]
    exact hd.apart.sublist (Element.ids_update hf id d.root)

theorem Sound.put (hd : d.Sound) (hk : key.Sayable) (hp : d.put id key value = .ok d') : d'.Sound := by
  obtain ⟨hname, hvalue, ds, n, generated, hn, rfl⟩ := put_named hp
  have hroot : (d.retag id (given ds key ⟨n, value⟩)).root = d.root.retag id (given ds key ⟨n, value⟩) := rfl
  refine hd.update (.retag (given ds key ⟨n, value⟩)) hroot fun around x hfind hs hret hin => ?_
  rw [scope_of_find? (find?_of_root hfind)] at hn
  exact ⟨hn.returns hs hret hk hname hvalue, hin.extends (fun _ _ _ => Head.Returns.extends) (hn.extends _)⟩

theorem Sound.erase (hd : d.Sound) (id : Nat) (key : Key) : (d.erase id key).Sound :=
  hd.update (.retag fun h => { h with attrs := h.attrs.filter fun a => !key.names a.name }) rfl
    fun _ _ _ _ hret hin => ⟨hret.erase _, hin⟩

theorem Sound.refill {k : Content Nat → Content Nat} (hd : d.Sound) (hk : ∀ inner, (k inner).elements = [])
    (ht : ∀ inner, inner.condense.Texts → (k inner).condense.Texts) (hr : d'.root = d.root.refill id k) : d'.Sound :=
  hd.update (.refill hk ht) hr fun _ x _ _ hret _ => ⟨hret, Content.holds_of_elements_eq_nil (hk x.inner)⟩

theorem Sound.clearChildren (hd : d.Sound) (id : Nat) : (d.clearChildren id).Sound :=
  hd.refill elements_leading (fun _ => texts_leading) (d.clearChildren_root id)

theorem Sound.setText (hd : d.Sound) (id : Nat) (value : String) : (d.setText id value).1.Sound :=
  hd.refill (fun _ => elements_textContent value) (fun _ _ => texts_textContent value) (d.setText_root id value)

/-! ### Scenes -/

theorem blank_sound : blank.Sound [] maxDepth := by
  have hspace : (⟨none, drawingUri⟩ : Declaration).Legible := ⟨by decide, by decide, by decide⟩
  have hname : blank.head.name.Legible := by
    refine ⟨by decide, fun d hd => ?_⟩
    cases hd
    exact ⟨.inl hspace, by decide⟩
  have hdeclarations : ∀ d ∈ blank.head.declarations, d.Legible := by
    intro d hd
    rw [List.mem_singleton.mp hd]
    exact hspace
  exact ⟨⟨⟨hname, hdeclarations, by decide, nofun⟩, trivial⟩, by decide, rfl, by decide⟩

theorem blank_plain : blank.Plain := by
  intro x hx d hd
  rw [List.mem_singleton.mp hx] at hd
  rw [List.mem_singleton.mp hd]
  decide

theorem Scene.sound (hd : d.Scene) : d.Sound := by
  induction hd with
  | document hread hp first generated => exact .ofElement (read_eq_some hread) hp first generated
  | loaded hread hp first =>
    exact .ofElement (Document.strip_sound (read_eq_some hread)) (Document.strip_plain hp) first _
  | blank first generated => exact .ofElement blank_sound blank_plain first generated
  | put hd hk hp ih => exact ih.put hk hp
  | erase hd id key ih => exact ih.erase id key
  | setText hd id value ih => exact ih.setText id value
  | clearChildren hd id ih => exact ih.clearChildren id
  | loose hd loose ih => exact ⟨ih.heads, ih.texts, ih.shallow, ih.apart⟩

/-- A scene is read again from its markup with the start tags that it has. -/
theorem Scene.read (hd : d.Scene) :
    ∃ e, Markup.read (.text d.markup) = some e ∧ e.all.map (·.head) = d.root.all.map (·.head) :=
  ⟨_, hd.sound.read, d.heads_condense⟩

/-! ### Attributes that are set or removed -/

theorem attrOf?_given {ds : List Declaration} {n : Name} (hn : Key.of n = key) (key' : Key) (h : Head) :
    attrOf? (given ds key ⟨n, value⟩ h) key' = if key' = key then some value else attrOf? h key' :=
  find?_setIn ⟨n, value⟩ (Key.names_iff.mpr hn.symm) key' h.attrs

theorem attrOf?_filter (key key' : Key) (h : Head) :
    attrOf? { h with attrs := h.attrs.filter fun a => !key.names a.name } key' =
      if key' = key then none else attrOf? h key' := by
  rw [attrOf?, attrOf?, List.find?_filter]
  split
  · next hkey =>
    rw [hkey, Option.map_eq_none_iff, List.find?_eq_none]
    intro a ha
    simp
  · next hkey =>
    refine congrArg (fun p => (h.attrs.find? p).map (·.value)) (funext fun a => ?_)
    cases hk : key'.names a.name with
    | false => simp
    | true =>
      have hne : key.names a.name = false := names_of_ne (Ne.symm hkey) hk
      simp [hne]

/-- What setting an attribute or removing it does to a start tag, and what its name means from then on. -/
theorem setAttr_ok {text : Option String} (hx : d.find? id = some (around, x)) (h : d.setAttr id name text = .ok d') :
    ∃ key g generated, Key.ofName (d.scope id) name = .ok key ∧ d' = { d.retag id g with generated } ∧
      (∀ h key', attrOf? (g h) key' = if key' = key then text else attrOf? h key') ∧
      Key.ofName ((g x.head).frame :: around) name = .ok key ∧ (d.Scene → key.Sayable → d'.Scene) := by
  cases hkey : Key.ofName (d.scope id) name with
  | error f =>
    rw [Drawing.setAttr, hkey] at h
    cases h
  | ok key =>
    have hscope := scope_of_find? hx
    cases text with
    | some value =>
      have hput : d.put id key value = .ok d' := (setAttr_of_key hkey value).symm.trans h
      obtain ⟨-, -, ds, n, generated, hn, hd'⟩ := put_named hput
      rw [hscope] at hn
      refine ⟨key, given ds key ⟨n, value⟩, generated, rfl, hd', fun h key' => attrOf?_given hn.key_of key' h, ?_,
        fun hd hk => hd.put hk hput⟩
      rw [hscope] at hkey
      exact hn.ofName hkey
    | none =>
      have herase : d' = d.erase id key := by
        rw [Drawing.setAttr, hkey] at h
        exact (Except.ok.inj h).symm
      refine ⟨key, fun h => { h with attrs := h.attrs.filter fun a => !key.names a.name }, d.generated, rfl, herase,
        fun h key' => attrOf?_filter key key' h, ?_, fun hd _ => herase ▸ hd.erase id key⟩
      rw [hscope] at hkey
      exact hkey

/-- Other attributes, and those of other elements, keep their values. -/
theorem valueOf?_retag_of_ne {g : Head → Head} {text : Option String} {id' : Nat} {key' : Key}
    (hg : ∀ h key', attrOf? (g h) key' = if key' = key then text else attrOf? h key') (hne : id' ≠ id ∨ key' ≠ key) :
    (d.retag id g).valueOf? id' key' = d.valueOf? id' key' := by
  rw [valueOf?_retag, valueOf?_eq]
  refine congrArg (Option.bind _) (funext fun h => ?_)
  unfold retagged
  split
  · next hid => rw [hg, if_neg (hne.resolve_left fun k => k hid)]
  · rfl

end Drawing

namespace Run

open World (attrText optionalText element)
open Drawing (Key)

variable {w w' : World} {d : Drawing} {id : Nat} {name : String} {value : Datum} {r : Datum}

theorem attr_set_ok (hw : w.drawing = some d) (h : attr id [.text name, value] w = .ok r w') :
    ∃ text d', attrText w.view value = .ok text ∧ d.setAttr id name text = .ok d' ∧ w' = (setDrawing d').after w := by
  rw [attr_set hw] at h
  cases hresult : attrText w.view value >>= d.setAttr id name with
  | error f =>
    rw [hresult] at h
    cases h
  | ok d' =>
    rw [hresult] at h
    cases h
    obtain ⟨text, htext, hset⟩ := Json.bind_eq_ok.mp hresult
    exact ⟨text, d', htext, hset, rfl⟩

/-- An attribute that has been set is read as the text of its value, and one that has been set to none is not there;
all other attributes, and those of other elements, keep their values. A scene is read again from its markup with just
these attributes, unless the name declares a namespace or its address is not written as it is read. -/
theorem attr_set_read (hw : w.drawing = some d) (hid : (d.element? id).isSome = true)
    (h : attr id [.text name, value] w = .ok r w') :
    ∃ key text d', Key.ofName (d.scope id) name = .ok key ∧ attrText w.view value = .ok text ∧ w'.drawing = some d' ∧
      attr id [.text name] w' = .ok (optionalText text) w' ∧
      (∀ id' key', id' ≠ id ∨ key' ≠ key → d'.valueOf? id' key' = d.valueOf? id' key') ∧
      (d.Scene → key.Sayable → d'.Scene ∧
        ∃ e, Markup.read (.text d'.markup) = some e ∧ e.all.map (·.head) = d'.root.all.map (·.head)) := by
  obtain ⟨text, d', htext, hset, rfl⟩ := attr_set_ok hw h
  rw [Drawing.element?, Option.isSome_map] at hid
  obtain ⟨⟨around, x⟩, hx⟩ := Option.isSome_iff_exists.mp hid
  obtain ⟨key, g, generated, hkey, hd', hg, hkept, hscene⟩ := Drawing.setAttr_ok hx hset
  have hfound : d'.find? id = some (around, ⟨x.id, g x.head, x.inner⟩) := hd' ▸ Drawing.find?_retag hx
  refine ⟨key, text, d', hkey, htext, rfl, ?_, fun id' key' hne => ?_, fun hd hk => ⟨hscene hd hk, (hscene hd hk).read⟩⟩
  · rw [← Drawing.scope_of_find? hfound] at hkept
    rw [attr_get rfl, Drawing.attr?_of_key hkept, Drawing.valueOf?_of_find? hfound, hg, if_pos rfl]
  · rw [hd']
    exact Drawing.valueOf?_retag_of_ne hg hne

/-- The prefix of tags is declared nowhere in a blank drawing, and the value needs escapes. -/
theorem attr_set_read_mode : ∃ w' d' e,
    attr 0 [.text "tb:mode", .text "<\"a\" & b>\t\n"] (World.ofDrawing (none : Option (Element Nat)) false) =
      .ok (element 0) w' ∧ attr 0 [.text "tb:mode"] w' = .ok (.text "<\"a\" & b>\t\n") w' ∧ w'.drawing = some d' ∧
      Markup.read (.text d'.markup) = some e ∧ e.all.map (·.head) = d'.root.all.map (·.head) := by
  have hkey : Key.ofName ((Drawing.ofElement Drawing.blank 0 0).scope 0) "tb:mode" =
      .ok ⟨some Document.space.uri, "mode"⟩ := by rfl
  have hsayable : Key.Sayable ⟨some Document.space.uri, "mode"⟩ := by
    refine ⟨by decide, fun uri huri => .inr ?_⟩
    cases huri
    decide
  obtain ⟨w', hset⟩ : ∃ w', attr 0 [.text "tb:mode", .text "<\"a\" & b>\t\n"]
    (World.ofDrawing (none : Option (Element Nat)) false) = .ok (element 0) w' := ⟨_, rfl⟩
  obtain ⟨key, text, d', hkey', htext, hd', hget, -, hscene⟩ := attr_set_read rfl rfl hset
  cases htext
  cases hkey.symm.trans hkey'
  obtain ⟨-, e, hread, hheads⟩ := hscene (.blank 0 0) hsayable
  exact ⟨w', d', e, hset, hget, hd', hread, hheads⟩

/-- An ampersand in an address is written as it is, and the markup is none then. -/
theorem address_unread : ¬ ∀ (w w' : World) (d d' : Drawing) (id : Nat) (name : String) (value r : Datum) (key : Key),
    d.Scene → w.drawing = some d → (d.element? id).isSome = true → Key.ofName (d.scope id) name = .ok key →
      key ≠ ⟨none, "xmlns"⟩ → key.uri ≠ some xmlnsUri → attr id [.text name, value] w = .ok r w' →
        w'.drawing = some d' → ∃ e, Markup.read (.text d'.markup) = some e := by
  intro h
  obtain ⟨r, w', d', hset, hd', hread⟩ : ∃ r w' d',
      attr 0 [.text "\x7bu?a=1&b=2\x7dx", .text "1"] (World.ofDrawing (none : Option (Element Nat)) false) = .ok r w' ∧
        w'.drawing = some d' ∧ Markup.read (.text d'.markup) = none := by
    refine ⟨_, _, _, rfl, rfl, Option.isNone_iff_eq_none.mp ?_⟩
    decide +kernel
  have hkey : Key.ofName ((Drawing.ofElement Drawing.blank 0 0).scope 0) "\x7bu?a=1&b=2\x7dx" =
      .ok ⟨some "u?a=1&b=2", "x"⟩ := by rfl
  obtain ⟨e, he⟩ := h _ w' _ d' 0 _ _ r _ (.blank 0 0) rfl rfl hkey (by decide) (by decide) hset hd'
  rw [hread] at he
  cases he

end Run

end LiveSvg
