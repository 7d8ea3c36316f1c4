import LiveSvg.Proofs.Tidying
/-!
When the names of an element are bound again as they are written: every prefix is declared, so that it
comes down to the attributes of each start tag, which have to stay different as they are read.
-/

namespace LiveSvg.Markup

variable {ι : Type} {scope scope' : Scope} {isAttr : Bool} {n : Name} {a : Attr} {h head : Head}
  {c c' : Content ι}

/-! ### Scopes that declare the same -/

/-- Whether two scopes declare the same. -/
def Scope.Alike (scope scope' : Scope) : Prop := scope.map (·.declarations) = scope'.map (·.declarations)

theorem Scope.Alike.refl (scope : Scope) : scope.Alike scope := rfl

theorem Scope.Alike.symm (h : scope.Alike scope') : scope'.Alike scope := Eq.symm h

theorem Scope.Alike.cons {f g : Frame} (h : scope.Alike scope') (hf : f.declarations = g.declarations) :
    Scope.Alike (f :: scope) (g :: scope') := by
  unfold Alike
  rw [List.map_cons, List.map_cons, hf, h]

theorem Scope.Alike.within (h : scope.Alike scope') : scope.Within scope' := by
  intro f hf d hd
  have hm : f.declarations ∈ scope'.map (·.declarations) := h ▸ List.mem_map.mpr ⟨f, hf, rfl⟩
  obtain ⟨g, hg, he⟩ := List.mem_map.mp hm
  exact ⟨g, hg, he ▸ hd⟩

theorem Scope.Alike.find? (h : scope.Alike scope') (short : Option String) :
    scope.find? short = scope'.find? short := by
  have hmap : ∀ scope : Scope, scope.find? short =
      (scope.map (·.declarations)).findSome? (·.find? (·.short == short)) := fun scope => by
    rw [Scope.find?, List.findSome?_map]
    rfl
  rw [hmap, hmap, h]

theorem elementName?_congr (h : ∀ short, scope.find? short = scope'.find? short) (w : Written) :
    elementName? scope w = elementName? scope' w := by
  unfold elementName?
  simp only [h]

theorem Scope.Alike.elementName? (h : scope.Alike scope') (w : Written) :
    elementName? scope w = elementName? scope' w :=
  elementName?_congr h.find? w

theorem Scope.Alike.attrName? (h : scope.Alike scope') (w : Written) :
    attrName? scope w = attrName? scope' w := by
  unfold Markup.attrName?
  simp only [h.elementName?]

/-! ### Names and start tags -/

theorem Scope.find?_isSome {f : Frame} {d : Declaration} (hf : f ∈ scope) (hd : d ∈ f.declarations) :
    ∃ e, scope.find? d.short = some e := by
  cases he : scope.find? d.short with
  | some e => exact ⟨e, rfl⟩
  | none => exact absurd rfl (find?_eq_none he f hf d hd)

theorem elementName?_default (scope : Scope) (base : String) : elementName? scope (none, base) =
    some ⟨(scope.find? none).filter (!·.uri.isEmpty), base⟩ := by
  rw [elementName?]
  cases scope.find? none with
  | none => rfl
  | some d => cases hd : d.uri.isEmpty <;> simp [hd, Option.filter]

theorem elementName?_prefixed {short : String} (hx : short ≠ "xml") (scope : Scope) (base : String) :
    elementName? scope (some short, base) = (scope.find? (some short)).map fun d => ⟨some d, base⟩ := by
  rw [elementName?]
  exact hx

/-- The first declaration of a prefix in a scope is the one that the nearest element makes. -/
theorem Scope.find?_of_mem {f : Frame} {d : Declaration} (hn : (f.declarations.map (·.short)).Nodup)
    (hd : d ∈ f.declarations) : Scope.find? (f :: scope) d.short = some d := by
  have hf : f.declarations.find? (·.short == d.short) = some d := by
    cases hf : f.declarations.find? (·.short == d.short) with
    | none => exact absurd (List.find?_eq_none.mp hf d hd) (by simp)
    | some e =>
      have he : e.short = d.short := by simpa using List.find?_some hf
      rw [List.inj_on_of_nodup_map hn (List.mem_of_find?_eq_some hf) hd he]
  rw [find?, List.findSome?_cons, hf]

/-- What a name is bound to is declared around it. -/
theorem elementName?_space {w : Written} {d : Declaration} (h : elementName? scope w = some n)
    (hd : n.space = some d) : d = .xml ∨ ∃ f ∈ scope, d ∈ f.declarations := by
  obtain ⟨_ | short, base⟩ := w
  · rw [elementName?_default] at h
    cases h
    exact .inr (Scope.find?_some (Option.filter_eq_some_iff.mp hd).1).2
  · by_cases hx : short = "xml"
    · subst hx
      cases h
      cases hd
      exact .inl rfl
    · rw [elementName?_prefixed hx] at h
      obtain ⟨e, he, rfl⟩ := Option.map_eq_some_iff.mp h
      cases hd
      exact .inr (Scope.find?_some he).2

/-- A name bound to a declaration that the nearest element makes is read as what it is. -/
theorem elementName?_of_mem {f : Frame} {d : Declaration} {base : String} (hn : (f.declarations.map (·.short)).Nodup)
    (hl : d.Legible) (hd : d ∈ f.declarations) (hu : d.uri ≠ "") :
    elementName? (f :: scope) (⟨some d, base⟩ : Name).parts = some ⟨some d, base⟩ := by
  have hf : Scope.find? (f :: scope) d.short = some d := Scope.find?_of_mem hn hd
  obtain ⟨_ | short, uri⟩ := d
  · refine (elementName?_default _ base).trans ?_
    rw [hf]
    simp [Option.filter, hu]
  · refine (elementName?_prefixed (hl.isName_short rfl).2.1 _ base).trans ?_
    rw [hf]
    rfl

/-- Whether the name of an outermost element is read as what it is. -/
def Head.Named (h : Head) : Prop := elementName? [h.frame] h.name.parts = some h.name

/-- The name of an outermost element is still read as what it is under other declarations, if it can be
written there and no default one is new. -/
theorem Head.Named.other {h' : Head} (hn : h.Named) (hname : h'.name = h.name) (hl : h.Legible) (hl' : h'.Legible)
    (hst : h'.name.Stands [h'.frame] false)
    (hd : ∀ d ∈ h'.declarations, d.short = none → d ∈ h.declarations) : h'.Named := by
  unfold Named at hn ⊢
  rw [← hname] at hn
  obtain ⟨⟨space, base⟩, ds, attrs⟩ := h'
  cases space with
  | none =>
    refine (elementName?_default _ base).trans ?_
    have hnone := (elementName?_default [h.frame] base).symm.trans hn
    cases hf : Scope.find? [Head.frame ⟨⟨none, base⟩, ds, attrs⟩] none with
    | none => rfl
    | some d =>
      obtain ⟨hshort, f, hf, hm⟩ := Scope.find?_some hf
      rw [List.mem_singleton.mp hf] at hm
      have hold : Scope.find? [h.frame] d.short = some d := Scope.find?_of_mem hl.distinct (hd d hm hshort)
      rw [hshort] at hold
      rw [hold] at hnone
      exact hnone
  | some d =>
    obtain ⟨⟨-, hr⟩, hu, -⟩ := hst.space d rfl
    rcases hr with rfl | ⟨f, hf, hm⟩
    · rfl
    · rw [List.mem_singleton.mp hf] at hm
      exact elementName?_of_mem hl'.distinct (hl'.declarations d hm) hm hu

/-- A name that can be written within a scope can be read there. -/
theorem Name.Stands.read (h : n.Stands scope isAttr) : ∃ n', elementName? scope n.parts = some n' := by
  obtain ⟨space, base⟩ := n
  cases space with
  | none => exact ⟨_, elementName?_default scope base⟩
  | some d =>
    obtain ⟨short, uri⟩ := d
    cases short with
    | none => exact ⟨_, elementName?_default scope base⟩
    | some short =>
      by_cases hx : short = "xml"
      · subst hx
        exact ⟨_, rfl⟩
      · obtain ⟨⟨-, hr⟩, -⟩ := h.space _ rfl
        rcases hr with hr | ⟨f, hf, hd⟩
        · cases hr
          exact absurd rfl hx
        · obtain ⟨e, he⟩ := Scope.find?_isSome hf hd
          exact ⟨_, (elementName?_prefixed hx scope base).trans (by rw [he]; rfl)⟩

theorem Name.Stands.readAttr (h : n.Stands scope isAttr) : ∃ n', attrName? scope n.parts = some n' := by
  unfold attrName?
  split
  · exact ⟨_, rfl⟩
  · exact h.read

/-- What an attribute is read as within a scope: its address and the rest of its name. -/
def Attr.read (scope : Scope) (a : Attr) : Option (Option String × String) :=
  (attrName? scope a.name.parts).map fun n => (n.uri, n.base)

/-- Whether the attributes of a start tag are read as different ones within a scope. -/
def Head.Distinct (scope : Scope) (h : Head) : Prop := (h.attrs.map (Attr.read scope)).Nodup

theorem Scope.Alike.distinct (hs : scope.Alike scope') (hd : h.Distinct scope) : h.Distinct scope' := by
  have he : Attr.read scope' = Attr.read scope := by
    funext a
    rw [Attr.read, Attr.read, hs.symm.attrName?]
  rwa [Head.Distinct, he]

theorem Head.Stands.alike (hst : h.Stands scope) (hs : scope.Alike scope') : h.Stands scope' :=
  ⟨hst.1.mono hs.within, fun a ha => (hst.2 a ha).mono hs.within⟩

theorem mapM_rebind {attrs attrs' : List Attr} (h : attrs.mapM (Attr.rebind scope) = some attrs') :
    attrs'.map (fun a => some (a.name.uri, a.name.base)) = attrs.map (Attr.read scope) ∧
      attrs'.map (fun a => (a.name.parts, a.value)) = attrs.map fun a => (a.name.parts, a.value) := by
  induction attrs generalizing attrs' with
  | nil =>
    cases h
    exact ⟨rfl, rfl⟩
  | cons a attrs ih =>
    rw [List.mapM_cons] at h
    obtain ⟨b, hb, h⟩ := Option.bind_eq_some_iff.mp h
    obtain ⟨rest, hr, h⟩ := Option.bind_eq_some_iff.mp h
    obtain ⟨n, hn, rfl⟩ := Option.map_eq_some_iff.mp hb
    cases h
    obtain ⟨hread, hparts⟩ := ih hr
    refine ⟨?_, ?_⟩
    · rw [List.map_cons, List.map_cons, hread, Attr.read, hn]
      rfl
    · rw [List.map_cons, List.map_cons, hparts, attrName?_parts hn]

theorem mapM_rebind_mem {attrs attrs' : List Attr} (h : attrs.mapM (Attr.rebind scope) = some attrs') :
    ∀ a ∈ attrs', ∃ b ∈ attrs, b.rebind scope = some a := by
  induction attrs generalizing attrs' with
  | nil =>
    cases h
    exact fun _ k => absurd k List.not_mem_nil
  | cons b attrs ih =>
    rw [List.mapM_cons] at h
    obtain ⟨a, ha, h⟩ := Option.bind_eq_some_iff.mp h
    obtain ⟨rest, hr, h⟩ := Option.bind_eq_some_iff.mp h
    cases h
    refine List.forall_mem_cons.mpr ⟨⟨b, List.mem_cons_self, ha⟩, fun a' ha' => ?_⟩
    obtain ⟨b', hb', hr'⟩ := ih hr a' ha'
    exact ⟨b', List.mem_cons_of_mem _ hb', hr'⟩

theorem exists_mapM_rebind {attrs : List Attr} (h : ∀ a ∈ attrs, a.name.Stands scope true) :
    ∃ attrs', attrs.mapM (Attr.rebind scope) = some attrs' := by
  induction attrs with
  | nil => exact ⟨[], rfl⟩
  | cons a attrs ih =>
    obtain ⟨n, hn⟩ := (h a List.mem_cons_self).readAttr
    obtain ⟨rest, hr⟩ := ih fun b hb => h b (List.mem_cons_of_mem _ hb)
    refine ⟨⟨n, a.value⟩ :: rest, ?_⟩
    rw [List.mapM_cons, hr, Attr.rebind, hn]
    rfl

/-- All that a start tag is written with has different names, if its attributes have. -/
theorem Head.Legible.nodup_raw (hl : h.Legible) (hd : (h.attrs.map (·.name.parts)).Nodup) :
    (h.raw.map (·.1)).Nodup := by
  have hraw : h.raw.map (·.1) = h.declarations.map (·.parts) ++ h.attrs.map (·.name.parts) := by
    simp [raw, Function.comp_def]
  rw [hraw]
  refine List.nodup_append.mpr ⟨?_, hd, ?_⟩
  · refine List.Nodup.of_map (fun w : Written => if w.1.isSome then some w.2 else none) ?_
    have hshort : (h.declarations.map (·.parts)).map (fun w : Written => if w.1.isSome then some w.2 else none) =
        h.declarations.map (·.short) := by
      rw [List.map_map]
      refine List.map_congr_left fun d _ => ?_
      obtain ⟨_ | short, uri⟩ := d <;> rfl
    rw [hshort]
    exact hl.distinct
  · intro w hw w' hw' k
    obtain ⟨d, -, rfl⟩ := List.mem_map.mp hw
    obtain ⟨a, ha, rfl⟩ := List.mem_map.mp hw'
    have ho := (hl.attrs a ha).other
    rw [← k, d.isDeclaration_parts] at ho
    cases ho

/-- A start tag is bound as it is written if and only if its attributes are read as different ones. -/
theorem bind?_isSome_iff (hl : h.Legible) (hst : h.Stands (h.frame :: scope)) :
    (∃ head, bind? scope h.name.parts h.raw = some head) ↔ h.Distinct (h.frame :: scope) := by
  have hs : Scope.Alike (h.frame :: scope) (⟨h.declarations, none⟩ :: scope) :=
    (Scope.Alike.refl scope).cons rfl
  have hsome : ∀ attrs' : List Attr, (attrs'.map fun a => some (a.name.uri, a.name.base)).Nodup ↔
      (attrs'.map fun a => (a.name.uri, a.name.base)).Nodup := fun attrs' => by
    have hmap : attrs'.map (fun a => some (a.name.uri, a.name.base)) =
        (attrs'.map fun a => (a.name.uri, a.name.base)).map some := by
      rw [List.map_map]
      rfl
    rw [hmap]
    exact List.nodup_map_iff fun _ _ => Option.some.inj
  constructor
  · rintro ⟨head, hb⟩
    obtain ⟨-, -, ha, hu, -⟩ := (bind?_raw hl).mp hb
    refine hs.symm.distinct ?_
    rw [Head.Distinct, ← (mapM_rebind ha).1]
    exact (hsome _).mpr hu
  · intro hd
    have hd := hs.distinct hd
    have hst' : h.Stands (⟨h.declarations, none⟩ :: scope) :=
      ⟨hst.1.mono Scope.Within.named, fun a ha => (hst.2 a ha).mono Scope.Within.named⟩
    obtain ⟨attrs, ha⟩ := exists_mapM_rebind hst'.2
    obtain ⟨n, hn⟩ := hst'.1.read
    refine ⟨⟨n, h.declarations, attrs⟩, (bind?_raw hl).mpr ⟨hl.nodup_raw ?_, rfl, ha, ?_, hn⟩⟩
    · refine List.Nodup.of_map (fun w =>
        (attrName? (⟨h.declarations, none⟩ :: scope) w).map fun n => (n.uri, n.base)) ?_
      rw [List.map_map]
      exact hd
    · rw [← hsome, (mapM_rebind ha).1]
      exact hd

/-- A start tag bound anew is written as before. -/
theorem bind?_chars (hl : h.Legible) (hb : bind? scope h.name.parts h.raw = some head) :
    head.declarations = h.declarations ∧ head.chars = h.chars ∧ head.name.written = h.name.written := by
  obtain ⟨-, hd, ha, -, he⟩ := (bind?_raw hl).mp hb
  have hw : head.name.written = h.name.written := by
    rw [← String.toList_inj, Name.written_toList, Name.written_toList, elementName?_parts he]
  refine ⟨hd, ?_, hw⟩
  have hspell : ∀ attrs : List Attr, attrs.flatMap Attr.chars =
      (attrs.map fun a => (a.name.parts, a.value)).flatMap fun p =>
        ' ' :: p.1.chars ++ '=' :: '\x22' :: p.2.toList.flatMap escapeAttr ++ ['\x22'] := fun attrs => by
    rw [List.flatMap_map]
    exact congrArg attrs.flatMap (funext fun a => by rw [Attr.chars, Name.written_toList])
  rw [Head.chars, Head.chars, hw, hd, hspell, hspell, (mapM_rebind ha).2]

/-! ### Content and elements -/

namespace Content

theorem rebind_element {id : ι} {inner rest : Content ι} :
    (Content.element id h inner rest).rebind scope = some c' ↔ ∃ head inner' rest',
      bind? scope h.name.parts h.raw = some head ∧ inner.rebind (head.frame :: scope) = some inner' ∧
        rest.rebind scope = some rest' ∧ c' = .element id head inner' rest' := by
  simp only [rebind, Option.bind_eq_bind, Option.bind_eq_some_iff, exists_and_left, Option.pure_def,
    Option.some.injEq, @eq_comm _ _ c']

theorem rebind_leaf {l : Leaf} {rest : Content ι} : (Content.leaf l rest).rebind scope = some c' ↔
    ∃ rest', rest.rebind scope = some rest' ∧ c' = .leaf l rest' := by
  simp only [rebind, Option.map_eq_some_iff, @eq_comm _ _ c']

/-- Whether the attributes of each start tag are read as different ones, within a scope. -/
def Distinct (scope : Scope) : Content ι → Prop
  | .nil => True
  | .leaf _ rest => rest.Distinct scope
  | .element _ h inner rest =>
    h.Distinct (h.frame :: scope) ∧ inner.Distinct (h.frame :: scope) ∧ rest.Distinct scope

/-- Content is bound as it is written if and only if the attributes of each start tag are read as
different ones. -/
theorem rebind_isSome_iff (hl : c.Legible) (hst : c.Stands scope) (hs : scope.Alike scope') :
    (∃ c', c.rebind scope' = some c') ↔ c.Distinct scope := by
  induction c generalizing scope scope' with
  | nil => exact iff_of_true ⟨.nil, rfl⟩ trivial
  | leaf l rest ih =>
    rw [Distinct, ← ih hl.2.2 hst hs]
    constructor
    · rintro ⟨c', h⟩
      obtain ⟨rest', hr, -⟩ := rebind_leaf.mp h
      exact ⟨rest', hr⟩
    · rintro ⟨rest', hr⟩
      exact ⟨_, rebind_leaf.mpr ⟨rest', hr, rfl⟩⟩
  | element id h inner rest ihi ihr =>
    have hframe : Scope.Alike (h.frame :: scope) (h.frame :: scope') := hs.cons rfl
    have hhead : (∃ head, bind? scope' h.name.parts h.raw = some head) ↔ h.Distinct (h.frame :: scope') :=
      bind?_isSome_iff hl.1 (hst.1.alike hframe)
    have hinner : ∀ {head}, bind? scope' h.name.parts h.raw = some head →
        ((∃ c', inner.rebind (head.frame :: scope') = some c') ↔ inner.Distinct (h.frame :: scope)) :=
      fun hb => ihi hl.2.1 hst.2.1 (hs.cons ((bind?_raw hl.1).mp hb).2.1.symm)
    constructor
    · rintro ⟨c', k⟩
      obtain ⟨head, inner', rest', hb, hi, hr, -⟩ := rebind_element.mp k
      exact ⟨hframe.symm.distinct (hhead.mp ⟨head, hb⟩), (hinner hb).mp ⟨inner', hi⟩,
        (ihr hl.2.2 hst.2.2 hs).mp ⟨rest', hr⟩⟩
    · rintro ⟨hd, hdi, hdr⟩
      obtain ⟨head, hb⟩ := hhead.mpr (hframe.distinct hd)
      obtain ⟨inner', hi⟩ := (hinner hb).mpr hdi
      obtain ⟨rest', hr⟩ := (ihr hl.2.2 hst.2.2 hs).mpr hdr
      exact ⟨_, rebind_element.mpr ⟨head, inner', rest', hb, hi, hr, rfl⟩⟩

/-- Content bound anew is written as before. -/
theorem rebind_chars (hl : c.Legible) (hb : c.rebind scope = some c') :
    c'.chars = c.chars ∧ c'.body = c.body := by
  induction c generalizing scope c' with
  | nil =>
    cases hb
    exact ⟨rfl, rfl⟩
  | leaf l rest ih =>
    obtain ⟨rest', hr, rfl⟩ := rebind_leaf.mp hb
    have hc : (Content.leaf l rest').chars = (Content.leaf l rest).chars := by
      rw [chars, chars, (ih hl.2.2 hr).1]
    exact ⟨hc, congrArg some hc⟩
  | element id h inner rest ihi ihr =>
    obtain ⟨head, inner', rest', hh, hi, hr, rfl⟩ := rebind_element.mp hb
    obtain ⟨-, hchars, hname⟩ := bind?_chars hl.1 hh
    have hc : (Content.element id head inner' rest').chars = (Content.element id h inner rest).chars := by
      rw [chars_element, chars_element, (ihr hl.2.2 hr).1, (ihi hl.2.1 hi).2]
      unfold elementChars
      rw [hchars, hname]
    exact ⟨hc, congrArg some hc⟩

end Content

namespace Element

variable {e e' : Element ι}

theorem rebind_iff : e.rebind = some e' ↔ ∃ head inner, bind? [] e.head.name.parts e.head.raw = some head ∧
    e.inner.rebind [head.frame] = some inner ∧ e' = ⟨e.id, head, inner⟩ := by
  simp only [rebind, Option.bind_eq_bind, Option.bind_eq_some_iff, exists_and_left, Option.pure_def,
    Option.some.injEq, @eq_comm _ _ e']

/-- An element bound anew is written as before. -/
theorem rebind_markup (hl : e.Legible) (hb : e.rebind = some e') : e'.markup = e.markup := by
  obtain ⟨head, inner, hh, hi, rfl⟩ := rebind_iff.mp hb
  obtain ⟨-, hchars, hname⟩ := bind?_chars hl.1 hh
  rw [← String.toList_inj, markup_toList, markup_toList, (Content.rebind_chars hl.2 hi).2]
  unfold elementChars
  rw [hchars, hname]

/-- Whether the attributes of each start tag in the element are read as different ones. -/
def Distinct (e : Element ι) : Prop := e.head.Distinct [e.head.frame] ∧ e.inner.Distinct [e.head.frame]

theorem rebind_isSome_iff (hl : e.Legible) (hst : e.Stands) : (∃ e', e.rebind = some e') ↔ e.Distinct := by
  have hhead : (∃ head, bind? [] e.head.name.parts e.head.raw = some head) ↔ e.head.Distinct [e.head.frame] :=
    bind?_isSome_iff hl.1 hst.1
  have hinner : ∀ {head}, bind? [] e.head.name.parts e.head.raw = some head →
      ((∃ c', e.inner.rebind [head.frame] = some c') ↔ e.inner.Distinct [e.head.frame]) := fun hb =>
    Content.rebind_isSome_iff hl.2 hst.2 ((Scope.Alike.refl []).cons ((bind?_raw hl.1).mp hb).2.1.symm)
  constructor
  · rintro ⟨e', k⟩
    obtain ⟨head, inner, hb, hi, -⟩ := rebind_iff.mp k
    exact ⟨hhead.mp ⟨head, hb⟩, (hinner hb).mp ⟨inner, hi⟩⟩
  · rintro ⟨hd, hdi⟩
    obtain ⟨head, hb⟩ := hhead.mpr hd
    obtain ⟨inner, hi⟩ := (hinner hb).mpr hdi
    exact ⟨_, rebind_iff.mpr ⟨head, inner, hb, hi, rfl⟩⟩

/-- The name of a document that is read is read as what it is. -/
theorem Sound.named {e : Element Unit} {depth : Nat} (hs : e.Sound [] depth) : e.head.Named := by
  obtain ⟨-, -, -, -, hn⟩ := (bind?_raw hs.legible.1).mp hs.head
  exact (((Scope.Alike.refl []).cons rfl).elementName? _).trans hn

theorem Legible.heads (hl : e.Legible) : ∀ x ∈ e.all, x.head.Legible := by
  have hcontent : ∀ c : Content ι, c.Legible → ∀ x ∈ c.elements, x.head.Legible := by
    intro c hl
    induction c with
    | nil => exact nofun
    | leaf l rest ih => exact ih hl.2.2
    | element id h inner rest ihi ihr =>
      intro x hx
      rcases List.mem_cons.mp hx with rfl | hx
      · exact hl.1
      · exact (List.mem_append.mp hx).elim (ihi hl.2.1 x) (ihr hl.2.2 x)
  exact List.forall_mem_cons.mpr ⟨hl.1, hcontent e.inner hl.2⟩

end Element

end LiveSvg.Markup
