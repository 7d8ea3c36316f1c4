import LiveSvg.Proofs.Declarations
/-!
Drawings that differ in the style of their root alone. What neither reads nor writes that style comes to the
same in both, and leaves drawings that differ in that style alone.
-/

namespace LiveSvg

open Markup

variable {id : Nat} {s t name : String}

/-- Which element another one stands in depends on the label of what is around them only. -/
theorem Markup.Content.parent?_congr {a b : Element Nat} (h : a.id = b.id) (id : Nat) (c : Content Nat) :
    (c.parent? id a).map (·.id) = (c.parent? id b).map (·.id) := by
  induction c with
  | nil => rfl
  | leaf l rest ih => exact ih
  | element i head inner rest _ ih =>
    rw [Content.parent?, Content.parent?]
    split
    · exact congrArg some h
    · cases inner.parent? id ⟨i, head, inner⟩ with
      | some e => rfl
      | none => exact ih

namespace Drawing

variable {d : Drawing} {key : Key}

def styleKey : Key := ⟨none, "style"⟩

/-- A start tag with a style. -/
def dressed (s : String) (h : Head) : Head :=
  { h with attrs := setIn styleKey ⟨Name.plain "style", s⟩ h.attrs }

/-- A drawing with a style on its root. -/
def dress (d : Drawing) (s : String) : Drawing :=
  { d with root := { d.root with head := dressed s d.root.head } }

/-- The style on the root of a drawing is a text. -/
def Wears (d : Drawing) (s : String) : Prop := d.dress s = d

/-! ### Attributes of a start tag -/

theorem names_style (s : String) : styleKey.names (⟨Name.plain "style", s⟩ : Attr).name = true :=
  Key.names_iff.mpr rfl

theorem names_of_ne {k : Key} {n : Name} (hne : key ≠ k) (h : k.names n = true) : key.names n = false := by
  rw [Bool.eq_false_iff]
  intro hk
  exact hne ((Key.names_iff.mp hk).trans (Key.names_iff.mp h).symm)

/-- What is set twice is what is set last. -/
theorem setIn_setIn {a b : Attr} (ha : key.names a.name = true) (attrs : List Attr) :
    setIn key b (setIn key a attrs) = setIn key b attrs := by
  induction attrs with
  | nil => simp [setIn, ha]
  | cons c attrs ih =>
    by_cases hc : key.names c.name = true
    · rw [setIn, if_pos hc, setIn, if_pos ha, setIn, if_pos hc]
    · rw [setIn, if_neg hc, setIn, if_neg hc, setIn, if_neg hc, ih]

/-- Whether an attribute that is there is set before another one or after it makes no difference. -/
theorem setIn_comm {k : Key} {a b : Attr} {attrs : List Attr} (hne : key ≠ k) (ha : key.names a.name = true)
    (hb : k.names b.name = true) (hthere : ∃ c ∈ attrs, k.names c.name = true) :
    setIn key a (setIn k b attrs) = setIn k b (setIn key a attrs) := by
  have hkb : ¬ key.names b.name = true := by rw [names_of_ne hne hb]; exact Bool.false_ne_true
  have hka : ¬ k.names a.name = true := by rw [names_of_ne hne.symm ha]; exact Bool.false_ne_true
  induction attrs with
  | nil =>
    obtain ⟨c, hc, -⟩ := hthere
    cases hc
  | cons c attrs ih =>
    by_cases hkc : k.names c.name = true
    · have hc : ¬ key.names c.name = true := by rw [names_of_ne hne hkc]; exact Bool.false_ne_true
      rw [setIn, if_pos hkc, setIn, if_neg hkb, setIn, if_neg hc, setIn, if_pos hkc]
    · by_cases hc : key.names c.name = true
      · rw [setIn, if_neg hkc, setIn, if_pos hc, setIn, if_pos hc, setIn, if_neg hka]
      · have hrest : ∃ c ∈ attrs, k.names c.name = true := by
          obtain ⟨e, he, hke⟩ := hthere
          rcases List.mem_cons.mp he with rfl | he
          · exact absurd hke hkc
          · exact ⟨e, he, hke⟩
        rw [setIn, if_neg hkc, setIn, if_neg hc, setIn, if_neg hc, setIn, if_neg hkc, ih hrest]

/-- What names another attribute is not taken out with it. -/
theorem filter_setIn {a : Attr} (hne : key ≠ styleKey) (ha : styleKey.names a.name = true) (attrs : List Attr) :
    (setIn styleKey a attrs).filter (fun b => !key.names b.name) =
      setIn styleKey a (attrs.filter fun b => !key.names b.name) := by
  have hka : key.names a.name = false := names_of_ne hne ha
  induction attrs with
  | nil => simp [setIn, hka]
  | cons c attrs ih =>
    by_cases hc : styleKey.names c.name = true
    · have hkc : key.names c.name = false := names_of_ne hne hc
      simp [setIn, hc, hka, hkc]
    · cases hkc : key.names c.name with
      | true => simp [setIn, hc, hkc, ih]
      | false => simp [setIn, hc, hkc, ih]

theorem attrOf?_dressed (hne : key ≠ styleKey) (s : String) (h : Head) : attrOf? (dressed s h) key = attrOf? h key := by
  rw [attrOf?, dressed, find?_setIn _ (names_style s), if_neg hne]
  rfl

/-! ### Dressing -/

theorem dress_dress (d : Drawing) (s t : String) : (d.dress s).dress t = d.dress t := by
  simp only [dress, dressed, setIn_setIn (names_style s)]

theorem wears_dress (d : Drawing) (s : String) : (d.dress s).Wears s := d.dress_dress s s

/-- Where a style is worn, it is there. -/
theorem Wears.there (h : d.Wears s) : ∃ a ∈ d.root.head.attrs, styleKey.names a.name = true := by
  have hset : setIn styleKey ⟨Name.plain "style", s⟩ d.root.head.attrs = d.root.head.attrs :=
    congrArg (fun d : Drawing => d.root.head.attrs) h
  have hfind := find?_setIn ⟨Name.plain "style", s⟩ (names_style s) styleKey d.root.head.attrs
  rw [hset, if_pos rfl, Option.map_eq_some_iff] at hfind
  obtain ⟨a, ha, -⟩ := hfind
  have hnames := List.find?_some ha
  exact ⟨a, List.mem_of_find?_eq_some ha, hnames⟩

theorem Wears.rootAttr? (h : d.Wears s) : d.rootAttr? "style" = some s := by
  rw [← h]
  exact (find?_setIn ⟨Name.plain "style", s⟩ (names_style s) styleKey d.root.head.attrs).trans (if_pos rfl)

/-! ### What is found -/

theorem find?_root (d : Drawing) : d.find? d.root.id = some ([], d.root) := by
  rw [find?, Element.find?, if_pos rfl]

theorem find?_dress_root (d : Drawing) (s : String) : (d.dress s).find? d.root.id = some ([], (d.dress s).root) :=
  find?_root (d.dress s)

/-- Below the root everything is found as it was. -/
theorem find?_dress (h : d.root.id ≠ id) (s : String) : (d.dress s).find? id = d.find? id := by
  rw [find?, find?, Element.find?, Element.find?, if_neg h, if_neg (show ¬ (d.dress s).root.id = id from h)]
  rfl

@[simp] theorem scope_dress (d : Drawing) (s : String) (id : Nat) : (d.dress s).scope id = d.scope id := by
  by_cases h : d.root.id = id
  · subst h
    rw [scope, scope, find?_dress_root, find?_root]
    rfl
  · rw [scope, scope, find?_dress h]

theorem valueOf?_dress (h : d.root.id = id → key ≠ styleKey) (s : String) :
    (d.dress s).valueOf? id key = d.valueOf? id key := by
  by_cases hid : d.root.id = id
  · subst hid
    rw [valueOf?, valueOf?, element?, element?, find?_dress_root, find?_root]
    exact attrOf?_dressed (h rfl) s d.root.head
  · rw [valueOf?, valueOf?, element?, element?, find?_dress hid]

theorem attrs_dress (h : d.root.id ≠ id) (s : String) : (d.dress s).attrs id = d.attrs id := by
  rw [attrs, attrs, element?, element?, find?_dress h]

@[simp] theorem typeOf_dress (d : Drawing) (s : String) (id : Nat) : (d.dress s).typeOf id = d.typeOf id := by
  by_cases h : d.root.id = id
  · subst h
    rw [typeOf, typeOf, element?, element?, find?_dress_root, find?_root]
    rfl
  · rw [typeOf, typeOf, element?, element?, find?_dress h]

@[simp] theorem text_dress (d : Drawing) (s : String) (id : Nat) : (d.dress s).text id = d.text id := by
  by_cases h : d.root.id = id
  · subst h
    rw [text, text, element?, element?, find?_dress_root, find?_root]
    rfl
  · rw [text, text, element?, element?, find?_dress h]

@[simp] theorem children_dress (d : Drawing) (s : String) (id : Nat) :
    (d.dress s).children id = d.children id := by
  by_cases h : d.root.id = id
  · subst h
    rw [children, children, element?, element?, find?_dress_root, find?_root]
    rfl
  · rw [children, children, element?, element?, find?_dress h]

theorem parent?_dress (d : Drawing) (s : String) (id : Nat) :
    ((d.dress s).parent? id).map (·.id) = (d.parent? id).map (·.id) := by
  have hroot : ((d.dress s).root.parent? id).map (·.id) = (d.root.parent? id).map (·.id) := by
    rw [Element.parent?, Element.parent?]
    change Option.map _ (if d.root.id = id then none else d.root.inner.parent? id (d.dress s).root) = _
    split
    · rfl
    · exact Content.parent?_congr (show (d.dress s).root.id = d.root.id from rfl) id d.root.inner
  rw [parent?, parent?]
  cases h : d.root.parent? id <;> cases h' : (d.dress s).root.parent? id <;> rw [h, h'] at hroot
  · rfl
  · cases hroot
  · cases hroot
  · exact hroot

@[simp] theorem box_dress (d : Drawing) (s : String) : (d.dress s).box = d.box := by
  have hattr : ∀ base, base ≠ "style" → (d.dress s).rootAttr? base = d.rootAttr? base := fun base hb =>
    attrOf?_dressed (fun h => hb (Key.mk.inj h).2) s d.root.head
  rw [box, box, hattr _ (by decide), hattr _ (by decide), hattr _ (by decide)]

/-! ### What is changed -/

theorem update_root_id (d : Drawing) (id : Nat) (f : Head → Content Nat → Head × Content Nat) :
    (d.update id f).root.id = d.root.id := by
  unfold update Element.update
  split
  · rfl
  · rfl

/-- An element is changed below a style as without it, when the change of the root leaves the style alone. -/
theorem update_dress {f : Head → Content Nat → Head × Content Nat}
    (hf : d.root.id = id → f (dressed s d.root.head) d.root.inner =
      (dressed s (f d.root.head d.root.inner).1, (f d.root.head d.root.inner).2)) :
    (d.dress s).update id f = (d.update id f).dress s := by
  have hroot : (d.dress s).root.update id f =
      { d.root.update id f with head := dressed s (d.root.update id f).head } := by
    rw [Element.update, Element.update]
    by_cases h : d.root.id = id
    · rw [if_pos h, if_pos (show (d.dress s).root.id = id from h)]
      change (⟨d.root.id, (f (dressed s d.root.head) d.root.inner).1, (f (dressed s d.root.head) d.root.inner).2⟩ :
        Element Nat) = _
      rw [hf h]
    · rw [if_neg h, if_neg (show ¬ (d.dress s).root.id = id from h)]
      rfl
  unfold update
  rw [hroot]
  rfl

/-- Attributes other than the style are set below a style as without it. -/
theorem put_dress (hw : d.Wears s) (h : d.root.id = id → key ≠ styleKey) (value t : String) :
    (d.dress t).put id key value = (d.put id key value).map (·.dress t) := by
  have hcomm : ∀ a : Attr, key.names a.name = true → d.root.id = id →
      setIn key a (setIn styleKey ⟨Name.plain "style", t⟩ d.root.head.attrs) =
        setIn styleKey ⟨Name.plain "style", t⟩ (setIn key a d.root.head.attrs) :=
    fun a ha hid => setIn_comm (h hid) ha (names_style t) hw.there
  unfold put
  split
  · rfl
  · split
    · rfl
    · obtain ⟨uri, base⟩ := key
      cases uri with
      | none =>
        refine congrArg Except.ok (update_dress fun hid => ?_)
        simp only [dressed, hcomm ⟨Name.plain base, value⟩ (Key.names_iff.mpr rfl) hid]
      | some uri =>
        have huri := bindingFor_uri (d.scope id) true uri none d.generated
        have hgenerated : (d.dress t).generated = d.generated := rfl
        dsimp only
        rw [scope_dress, hgenerated]
        generalize (d.scope id).bindingFor true uri none d.generated = binding at huri ⊢
        rw [update_dress fun hid => ?_]
        · rfl
        · have hnames : (⟨some uri, base⟩ : Key).names ⟨some binding.1, base⟩ = true := by
            rw [Key.names_iff, ← huri]
            rfl
          simp only [dressed, hcomm ⟨⟨some binding.1, base⟩, value⟩ hnames hid]

theorem put_root_id {d' : Drawing} {value : String} (h : d.put id key value = .ok d') : d'.root.id = d.root.id := by
  obtain ⟨g, generated, -, rfl⟩ := put_ok h
  exact d.update_root_id id _

theorem erase_dress (h : d.root.id = id → key ≠ styleKey) (t : String) :
    (d.dress t).erase id key = (d.erase id key).dress t := by
  refine update_dress fun hid => ?_
  simp only [dressed, filter_setIn (h hid) (names_style t)]

/-! ### Names of the style -/

/-- Whether a name that a script gives is that of the style. -/
def isStyleName (name : String) : Bool := name == "style" || name == "\x7b\x7dstyle"

theorem isStyleName_iff : isStyleName name = true ↔ name = "style" ∨ name = "\x7b\x7dstyle" := by
  rw [isStyleName, Bool.or_eq_true, beq_iff_eq, beq_iff_eq]

/-- Two texts only mean the style. -/
theorem Key.isStyleName_of_ofText (h : Key.ofText s = .ok styleKey) : isStyleName s = true := by
  rw [isStyleName_iff]
  unfold Key.ofText at h
  split at h
  · cases h
  · split at h
    · cases h
    · next rest hs =>
      split at h
      · cases h
      · cases h
      · next base _ hsplit =>
        have hbase : String.ofList base = "style" := congrArg Key.base (Except.ok.inj h)
        have hrest := (splitFirst_some hsplit).1
        rw [hrest, List.nil_append] at hs
        right
        rw [← String.toList_inj, hs, ← String.toList_ofList (l := base), hbase]
        rfl
      · cases h
    · left
      have hbase : String.ofList s.toList = "style" := congrArg Key.base (Except.ok.inj h)
      rwa [String.ofList_toList] at hbase

/-- A name with its address in braces. -/
theorem Key.braced_toList (uri base : String) :
    ("\x7b" ++ uri ++ "\x7d" ++ base).toList = '\x7b' :: (uri.toList ++ '\x7d' :: base.toList) := by
  simp [String.toList_append]

/-- A name with the address of its namespace is not that of the style. -/
theorem isStyleName_qualified {uri : String} (hne : uri ≠ "") (base : List Char) :
    isStyleName ("\x7b" ++ uri ++ "\x7d" ++ String.ofList base) = false := by
  rw [Bool.eq_false_iff, ne_eq, isStyleName_iff, ← String.toList_inj, ← String.toList_inj, Key.braced_toList,
    String.toList_ofList]
  rintro (h | h)
  · cases h
  · obtain ⟨c, cs, hc⟩ := List.exists_cons_of_ne_nil (fun h => hne (String.toList_inj.mp h))
    have hrest : cs ++ '\x7d' :: base = "style".toList := by
      rw [hc] at h
      exact (List.cons.inj (List.cons.inj h).2).2
    have hmem : '\x7d' ∈ "style".toList := by
      rw [← hrest]
      simp
    exact absurd hmem (by decide)

/-- A script can name the style in two ways only, whatever prefixes are declared. -/
theorem Key.ofName_ne_style (scope : Scope) (h : isStyleName name = false) : Key.ofName scope name ≠ .ok styleKey := by
  intro hk
  have hname := Key.isStyleName_of_ofText hk
  unfold Key.qualify at hname
  split at hname
  · rw [h] at hname
    cases hname
  · dsimp only at hname
    split at hname
    · next short base _ uri huri =>
      have hne : uri ≠ "" := by
        rcases Option.or_eq_some_iff.mp huri with hscope | ⟨-, hknown⟩
        · have hfull := (Option.filter_eq_some_iff.mp hscope).2
          rintro rfl
          cases hfull
        · have hmem := Value.Members.mem_of_get? hknown
          rintro rfl
          simp [knownPrefixes, drawingUri, Document.space] at hmem
      rw [isStyleName_qualified hne] at hname
      cases hname
    · rw [h] at hname
      cases hname

theorem setAttr_dress (hw : d.Wears s) (h : d.root.id = id → isStyleName name = false) (value : Option String)
    (t : String) : (d.dress t).setAttr id name value = (d.setAttr id name value).map (·.dress t) := by
  unfold setAttr
  rw [scope_dress]
  cases hk : Key.ofName (d.scope id) name with
  | error f => rfl
  | ok key =>
    have hne : d.root.id = id → key ≠ styleKey := by
      rintro hid rfl
      exact Key.ofName_ne_style _ (h hid) hk
    cases value with
    | some v => exact put_dress hw hne v t
    | none => exact congrArg Except.ok (erase_dress hne t)

theorem setAttr_root_id {d' : Drawing} {value : Option String} (h : d.setAttr id name value = .ok d') :
    d'.root.id = d.root.id := by
  unfold setAttr at h
  cases hk : Key.ofName (d.scope id) name with
  | error f =>
    rw [hk] at h
    cases h
  | ok key =>
    rw [hk] at h
    cases value with
    | some v => exact put_root_id h
    | none =>
      cases h
      exact d.update_root_id id _

theorem attr?_dress (h : d.root.id = id → isStyleName name = false) (t : String) :
    (d.dress t).attr? id name = d.attr? id name := by
  unfold attr?
  rw [scope_dress]
  cases hk : Key.ofName (d.scope id) name with
  | error f => rfl
  | ok key =>
    have hne : d.root.id = id → key ≠ styleKey := by
      rintro hid rfl
      exact Key.ofName_ne_style _ (h hid) hk
    exact congrArg Except.ok (valueOf?_dress hne t)

/-! ### Texts -/

theorem clearChildren_dress (d : Drawing) (id : Nat) (t : String) :
    (d.dress t).clearChildren id = (d.clearChildren id).dress t := by
  have hupdate : (d.dress t).update id (fun h inner => (h, leading inner)) =
      (d.update id fun h inner => (h, leading inner)).dress t := update_dress fun _ => rfl
  unfold clearChildren
  by_cases h : d.root.id = id
  · subst h
    rw [element?, element?, find?_dress_root, find?_root, hupdate]
    rfl
  · rw [element?, element?, find?_dress h, hupdate]
    rfl

theorem setText_dress (d : Drawing) (id : Nat) (value t : String) :
    (d.dress t).setText id value = ((d.setText id value).1.dress t, (d.setText id value).2) := by
  unfold setText
  dsimp only
  rw [clearChildren_dress]
  split
  · rw [update_dress fun _ => rfl]
  · rw [update_dress fun _ => rfl]

theorem clearChildren_root_id (d : Drawing) (id : Nat) : (d.clearChildren id).root.id = d.root.id :=
  d.update_root_id id _

theorem setText_root_id (d : Drawing) (id : Nat) (value : String) : (d.setText id value).1.root.id = d.root.id := by
  unfold setText
  dsimp only
  split
  · exact (update_root_id _ id _).trans (d.clearChildren_root_id id)
  · exact (update_root_id _ id _).trans (d.clearChildren_root_id id)

end Drawing

end LiveSvg
