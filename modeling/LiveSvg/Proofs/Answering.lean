import LiveSvg.Proofs.Dressing
import LiveSvg.Proofs.Heads
import LiveSvg.Proofs.Placement
import LiveSvg.Proofs.Styling
/-!
Attributes answer to the names that they are written with. A name is asked for with the address that its prefix
stands for, in braces. That is the name of the attribute unless the prefix is the one that every document begins
with, which no element declares, or a closing brace stands in the address.
-/

namespace LiveSvg

open Markup
open Script (Datum)

namespace Drawing

open Text (splitFirst)

variable {scope around : Scope} {n : Name} {a new : Attr} {attrs : List Attr} {h : Head} {key : Key}
  {short base uri s : String}

/-! ### Keys of names -/

theorem not_mem_of_isName {cs : List Char} {c : Char} (h : isName cs = true) (hc : isNamePart c = false) : c ∉ cs := by
  cases cs with
  | nil => exact List.not_mem_nil
  | cons d cs =>
    rw [isName, Bool.and_eq_true, List.all_eq_true] at h
    intro hm
    rcases List.mem_cons.mp hm with rfl | hm
    · rw [isNamePart_of_isNameStart h.1] at hc
      cases hc
    · rw [h.2 c hm] at hc
      cases hc

theorem isCarried_of_isName (h : isName s.toList = true) : isCarried s = true := by
  rw [isCarried, List.all_eq_true]
  intro c hc
  have hclean := List.all_eq_true.mp (isClean_of_isName h) c hc
  exact (Bool.and_eq_true_iff.mp hclean).1

theorem exists_of_isName {cs : List Char} (h : isName cs = true) : ∃ c more, cs = c :: more ∧ isNameStart c = true := by
  cases cs with
  | nil => cases h
  | cons c cs => exact ⟨c, cs, rfl, (Bool.and_eq_true_iff.mp h).1⟩

namespace Key

/-- What starts like a name is a key as it stands. -/
theorem ofText_plain (hs : isCarried s = true) {c : Char} {cs : List Char} (h : s.toList = c :: cs)
    (hc : isNameStart c = true) : ofText s = .ok ⟨none, s⟩ := by
  rw [ofText, hs]
  simp only [Bool.not_true, Bool.false_eq_true, if_false, h]
  split
  · next k => cases k
  · next k =>
    obtain ⟨rfl, -⟩ := List.cons.inj k
    exact absurd hc (by decide)
  · rw [← h, String.ofList_toList]

theorem isCarried_braced (hu : isCarried uri = true) (hb : isCarried base = true) :
    isCarried ("\x7b" ++ uri ++ "\x7d" ++ base) = true := by
  rw [isCarried_append, isCarried_append, isCarried_append, hu, hb]
  rfl

/-- An address in braces ends with the first closing one. -/
theorem ofText_braced (hc : isCarried ("\x7b" ++ uri ++ "\x7d" ++ base) = true) {u b : List Char} (hb : b ≠ [])
    (hs : splitFirst '\x7d' (uri.toList ++ '\x7d' :: base.toList) = some (u, b)) :
    ofText ("\x7b" ++ uri ++ "\x7d" ++ base) =
      .ok ⟨if u = [] then none else some (String.ofList u), String.ofList b⟩ := by
  rw [ofText, hc]
  simp only [Bool.not_true, Bool.false_eq_true, if_false, braced_toList, hs]
  cases b with
  | nil => exact absurd rfl hb
  | cons c b => cases u <;> rfl

theorem qualify_plain (h : isName base.toList = true) : qualify scope base = base := by
  rw [qualify]
  split
  · rfl
  · next short rest hs =>
    have hcolon : ':' ∈ base.toList := by
      rw [(splitFirst_some hs).1]
      simp
    exact absurd hcolon (not_mem_of_isName h (by decide))

theorem qualify_split {name : String} {p rest : List Char} (hs : splitFirst ':' name.toList = some (p, rest)) :
    qualify scope name =
      match ((scope.uri? (String.ofList p)).filter (!·.isEmpty)).or (Value.Members.get? knownPrefixes (String.ofList p)) with
      | some uri => "\x7b" ++ uri ++ "\x7d" ++ String.ofList rest
      | none => name := by
  rw [qualify]
  split
  · next hnone =>
    rw [hs] at hnone
    cases hnone
  · next found =>
    rw [hs] at found
    cases found
    rfl

theorem qualify_prefixed (hs : isName short.toList = true) : qualify scope (short ++ ":" ++ base) =
    match ((scope.uri? short).filter (!·.isEmpty)).or (Value.Members.get? knownPrefixes short) with
    | some uri => "\x7b" ++ uri ++ "\x7d" ++ base
    | none => short ++ ":" ++ base := by
  have hlist : (short ++ ":" ++ base).toList = short.toList ++ ':' :: base.toList := by
    simp [String.toList_append]
  have hsplit : splitFirst ':' (short ++ ":" ++ base).toList = some (short.toList, base.toList) := by
    rw [hlist]
    exact splitFirst_append (not_mem_of_isName hs (by decide)) base.toList
  rw [qualify_split hsplit, String.ofList_toList, String.ofList_toList]

end Key

/-- Whether a name is asked for by what is written for it: it is not in the namespace that every document begins
with, and its address can stand in braces. -/
def Answers (n : Name) : Prop := ∀ d, n.space = some d → d ≠ .xml ∧ '\x7d' ∉ d.uri.toList

/-- A prefix that is declared stands for its address in a name. -/
theorem Key.ofName_declared (hs : isName short.toList = true) (hb : isName base.toList = true)
    (hu : scope.uri? short = some uri) (hne : uri ≠ "") (hc : isCarried uri = true) {u b : List Char}
    (hsplit : splitFirst '\x7d' (uri.toList ++ '\x7d' :: base.toList) = some (u, b)) (hbne : b ≠ []) :
    Key.ofName scope (short ++ ":" ++ base) = .ok ⟨if u = [] then none else some (String.ofList u), String.ofList b⟩ := by
  have hempty : uri.isEmpty = false := by simpa using hne
  have hfound : ((scope.uri? short).filter (!·.isEmpty)).or (Value.Members.get? knownPrefixes short) = some uri := by
    simp [hu, hempty]
  rw [ofName, qualify_prefixed hs, hfound]
  exact ofText_braced (isCarried_braced hc (isCarried_of_isName hb)) hbne hsplit

theorem Key.ofName_plain (hb : isName base.toList = true) : Key.ofName scope base = .ok ⟨none, base⟩ := by
  obtain ⟨c, cs, hcs, hc⟩ := exists_of_isName hb
  rw [ofName, qualify_plain hb]
  exact ofText_plain (isCarried_of_isName hb) hcs hc

/-- What the prefix of a name that has been read stands for. -/
theorem uri?_of_attrName? (hl : (⟨some short, uri⟩ : Declaration).Legible)
    (hn : attrName? scope (some short, base) = some ⟨some ⟨some short, uri⟩, base⟩) : scope.uri? short = some uri := by
  have hread : elementName? scope (some short, base) = some ⟨some ⟨some short, uri⟩, base⟩ := hn
  rw [elementName?_prefixed (hl.isName_short rfl).2.1] at hread
  obtain ⟨d, hd, hname⟩ := Option.map_eq_some_iff.mp hread
  cases hname
  rw [Scope.uri?, hd]
  rfl

/-- A name that answers is asked for by what is written for it. -/
theorem Key.ofName_answers (hl : n.Legible) (hp : ∀ d, n.space = some d → d.short.isSome = true)
    (hn : attrName? scope n.parts = some n) (ha : Answers n) : Key.ofName scope n.written = .ok ⟨n.uri, n.base⟩ := by
  have hb : isName n.base.toList = true := hl.base
  rcases n with ⟨none | ⟨none | short, uri⟩, base⟩
  · exact ofName_plain hb
  · cases hp _ rfl
  · obtain ⟨hx, hbrace⟩ : (⟨some short, uri⟩ : Declaration) ≠ .xml ∧ '\x7d' ∉ uri.toList := ha _ rfl
    have hne : uri ≠ "" := (hl.space _ rfl).2
    have hd := (hl.space _ rfl).1.resolve_right hx
    have hbne : base.toList ≠ [] := by
      intro h
      rw [show isName base.toList = isName [] from congrArg isName h] at hb
      cases hb
    have hkey := ofName_declared (hd.isName_short rfl).1 hb (uri?_of_attrName? hd hn) hne hd.writable
      (splitFirst_append hbrace base.toList) hbne
    have hlist : uri.toList ≠ [] := fun h => hne (String.toList_inj.mp h)
    rw [if_neg hlist, String.ofList_toList, String.ofList_toList] at hkey
    exact hkey

theorem uri?_xml (hs : scope.Legible) : scope.uri? "xml" = none := by
  rw [Scope.uri?, Option.map_eq_none_iff]
  cases hfind : scope.find? (some "xml") with
  | none => rfl
  | some d =>
    obtain ⟨hshort, f, hf, hm⟩ := Scope.find?_some hfind
    exact absurd rfl ((hs f hf d hm).isName_short hshort).2.1

/-- A name with the prefix that every document begins with is taken as it stands. -/
theorem Key.ofName_xml (hs : scope.Legible) (hb : isName base.toList = true) :
    Key.ofName scope ("xml" ++ ":" ++ base) = .ok ⟨none, "xml" ++ ":" ++ base⟩ := by
  have hcarried : isCarried ("xml" ++ ":" ++ base) = true := by
    rw [isCarried_append, isCarried_of_isName hb]
    rfl
  have hunknown : ((scope.uri? "xml").filter (!·.isEmpty)).or (Value.Members.get? knownPrefixes "xml") = none := by
    rw [uri?_xml hs]
    decide
  rw [ofName, qualify_prefixed (by decide), hunknown]
  have hlist : ("xml" ++ ":" ++ base).toList = 'x' :: ('m' :: 'l' :: ':' :: base.toList) := by
    simp [String.toList_append]
  exact ofText_plain hcarried hlist (by decide)

/-- A name that does not answer is taken for what is no name of an attribute. -/
theorem Key.ofName_silent (hs : scope.Legible) (hl : n.Legible) (hp : ∀ d, n.space = some d → d.short.isSome = true)
    (hn : attrName? scope n.parts = some n) (ha : ¬ Answers n) :
    ∃ key, Key.ofName scope n.written = .ok key ∧ isName key.base.toList = false := by
  have hb : isName n.base.toList = true := hl.base
  rcases n with ⟨none | ⟨none | short, uri⟩, base⟩
  · exact absurd (fun d hd => by cases hd) ha
  · cases hp _ rfl
  · obtain ⟨hd, hne⟩ := hl.space _ rfl
    by_cases hx : (⟨some short, uri⟩ : Declaration) = .xml
    · cases hx
      refine ⟨_, ofName_xml hs hb, ?_⟩
      rw [Bool.eq_false_iff]
      exact fun h => not_mem_of_isName h (c := ':') (by decide) (by simp [String.toList_append])
    · have hd := hd.resolve_right hx
      have hbrace : '\x7d' ∈ uri.toList := by
        by_contra hbrace
        exact ha fun d hspace => by cases hspace; exact ⟨hx, hbrace⟩
      obtain ⟨u, v, huri, hu⟩ := List.eq_append_cons_of_mem hbrace
      have hsplit : splitFirst '\x7d' (uri.toList ++ '\x7d' :: base.toList) = some (u, v ++ '\x7d' :: base.toList) := by
        rw [huri, List.append_assoc, List.cons_append]
        exact splitFirst_append hu _
      have hkey := ofName_declared (hd.isName_short rfl).1 hb (uri?_of_attrName? hd hn) hne hd.writable hsplit (by simp)
      refine ⟨_, hkey, ?_⟩
      rw [Bool.eq_false_iff, String.toList_ofList]
      exact fun h => not_mem_of_isName h (c := '\x7d') (by decide) (by simp)

/-! ### Attributes of a start tag -/

/-- The key of a name that has been read. -/
def Key.of (n : Name) : Key := ⟨n.uri, n.base⟩

theorem Key.names_of (n : Name) : (Key.of n).names n = true := Key.names_iff.mpr rfl

theorem nodup_keys (hb : h.Bound scope) : (h.attrs.map fun a => Key.of a.name).Nodup := by
  refine List.Nodup.of_map (fun k : Key => (k.uri, k.base)) ?_
  rw [List.map_map]
  exact hb.apart

theorem attrOf?_of_mem (hn : (h.attrs.map fun a => Key.of a.name).Nodup) (ha : a ∈ h.attrs) :
    attrOf? h (Key.of a.name) = some a.value := by
  have hthere : (h.attrs.find? fun b => (Key.of a.name).names b.name).isSome :=
    List.find?_isSome.mpr ⟨a, ha, Key.names_of a.name⟩
  obtain ⟨b, hb⟩ := Option.isSome_iff_exists.mp hthere
  have hnames : (Key.of a.name).names b.name = true := by
    exact List.find?_some (p := fun b : Attr => (Key.of a.name).names b.name) hb
  have hkey : Key.of a.name = Key.of b.name := Key.names_iff.mp hnames
  have hsame : b = a := List.inj_on_of_nodup_map hn (List.mem_of_find?_eq_some hb) ha hkey.symm
  rw [attrOf?, hb, hsame]
  rfl

/-- What is no name of an attribute finds none. -/
theorem attrOf?_unnamed (hl : h.Legible) (hk : isName key.base.toList = false) : attrOf? h key = none := by
  rw [attrOf?, Option.map_eq_none_iff, List.find?_eq_none]
  intro a ha hkey
  rw [Key.names_iff.mp hkey, (hl.attrs a ha).name.base] at hk
  cases hk

/-- An attribute that is there is set in its place, and no other one with it. -/
theorem map_setIn (hn : (attrs.map fun a => Key.of a.name).Nodup) (ha : a ∈ attrs) (hnew : Key.of new.name = Key.of a.name) :
    (setIn (Key.of a.name) new attrs).map (fun b => (Key.of b.name, b.value)) =
      attrs.map fun b => (Key.of b.name, if Key.of b.name = Key.of a.name then new.value else b.value) := by
  induction attrs with
  | nil => cases ha
  | cons b attrs ih =>
    rw [List.map_cons, List.nodup_cons] at hn
    by_cases hb : Key.of b.name = Key.of a.name
    · have hrest : ∀ c ∈ attrs, Key.of c.name ≠ Key.of a.name := by
        intro c hc hkey
        exact hn.1 (List.mem_map.mpr ⟨c, hc, hkey.trans hb.symm⟩)
      rw [setIn, if_pos (Key.names_iff.mpr hb.symm), List.map_cons, List.map_cons, if_pos hb, hnew, hb]
      refine congrArg _ (List.map_congr_left fun c hc => ?_)
      rw [if_neg (hrest c hc)]
    · have ha' : a ∈ attrs := (List.mem_cons.mp ha).resolve_left fun h => hb (h ▸ rfl)
      have hnames : ¬ (Key.of a.name).names b.name = true := fun h => hb (Key.names_iff.mp h).symm
      rw [setIn, if_neg hnames, List.map_cons, List.map_cons, if_neg hb, ih hn.2 ha']

/-! ### Attributes of an element -/

variable {d : Drawing} {x : Element Nat} {id : Nat}

theorem find?_of_root (hx : d.root.find? id = some (around, x)) : d.find? id = some (around, x) := by
  rw [Drawing.find?, hx]

theorem scope_of_find? (hx : d.find? id = some (around, x)) : d.scope id = x.head.frame :: around := by
  rw [Drawing.scope, hx]

theorem element?_of_find? (hx : d.find? id = some (around, x)) : d.element? id = some x := by
  rw [Drawing.element?, hx]
  rfl

theorem valueOf?_of_find? (hx : d.find? id = some (around, x)) : d.valueOf? id key = attrOf? x.head key := by
  rw [Drawing.valueOf?, element?_of_find? hx]
  rfl

/-- The element whose start tag has been changed is found with its new one. -/
theorem find?_retag {g : Head → Head} (hx : d.find? id = some (around, x)) :
    (d.retag id g).find? id = some (around, ⟨x.id, g x.head, x.inner⟩) := by
  rw [Drawing.retag, d.find?_update, hx]
  rfl

theorem attrs_retag {g : Head → Head} (hx : d.find? id = some (around, x)) : (d.retag id g).attrs id = (g x.head).attrs := by
  rw [Drawing.attrs, element?_of_find? (find?_retag hx)]

/-- A name and a value that an attribute can have are put into the start tag. -/
theorem put_there (hx : d.find? id = some (around, x)) (hk : isName key.base.toList = true)
    (hs : isCarried s = true) : ∃ d' new, d.put id key s = .ok d' ∧ Key.of new.name = key ∧ new.value = s ∧
      d'.attrs id = setIn key new x.head.attrs := by
  obtain ⟨uri, base⟩ := key
  unfold Drawing.put
  rw [hk, hs]
  cases uri with
  | none => exact ⟨_, ⟨Name.plain base, s⟩, rfl, rfl, rfl, attrs_retag hx⟩
  | some uri =>
    have huri := bindingFor_uri (d.scope id) true uri none d.generated
    refine ⟨_, ⟨⟨some ((d.scope id).bindingFor true uri none d.generated).1, base⟩, s⟩, rfl, ?_, rfl, attrs_retag hx⟩
    exact congrArg (fun u => (⟨some u, base⟩ : Key)) huri

theorem put_unnamed (d : Drawing) (id : Nat) (hk : isName key.base.toList = false) (s : String) :
    d.put id key s = .error (Failure.wrongValue "Invalid attribute name") := by
  rw [Drawing.put, hk]
  rfl

theorem setAttr_of_key {name : String} (hk : Key.ofName (d.scope id) name = .ok key) (s : String) :
    d.setAttr id name (some s) = d.put id key s := by
  rw [Drawing.setAttr, hk]
  rfl

theorem attr?_of_key (hk : Key.ofName (d.scope id) s = .ok key) : d.attr? id s = .ok (d.valueOf? id key) := by
  rw [Drawing.attr?, hk]
  rfl

theorem ofElement_holds {ι : Type} {P : Scope → Head → Prop} {e : Element ι} (he : e.Holds P) (first generated : Nat) :
    (Drawing.ofElement e first generated).root.Holds P :=
  ⟨he.1, (Content.holds_label e.inner (first + 1)).mpr he.2⟩

/-- The elements of the drawing of a document have labels of their own. -/
theorem ofElement_nodup {ι : Type} (e : Element ι) (first generated : Nat) :
    ((Drawing.ofElement e first generated).root.all.map (·.id)).Nodup := by
  have hlabels := (e.inner.label_elements (first + 1)).2
  change (first :: (e.inner.label (first + 1)).1.elements.map (·.id)).Nodup
  rw [hlabels, List.nodup_cons]
  refine ⟨fun hm => ?_, List.nodup_range'⟩
  have hfirst := (List.mem_range'_1.mp hm).1
  omega

end Drawing

namespace Run

open World (attrText optionalText element)
open Drawing (Answers Key isCarried)

variable {w : World} {d : Drawing} {around : Scope} {x : Element Nat} {a : Attr} {id : Nat} {name s : String}

theorem attr_get (hw : w.drawing = some d) (name : String) : attr id [.text name] w =
    match d.attr? id name with
    | .ok value => .ok (optionalText value) w
    | .error f => .error f w := by
  change getAttr id (.text name) w = _
  rw [getAttr, bind_ok (drawing_eq "node" hw)]
  change (ofExcept (d.attr? id name) >>= _) w = _
  cases d.attr? id name <;> rfl

theorem attr_set (hw : w.drawing = some d) (name : String) (value : Datum) : attr id [.text name, value] w =
    match attrText w.view value >>= d.setAttr id name with
    | .ok d' => .ok (element id) ((setDrawing d').after w)
    | .error f => .error f w := by
  change (setAttr id (.text name) value >>= fun _ => pure (element id)) w = _
  have hset : setAttr id (.text name) value w = drawn w (attrText w.view value >>= d.setAttr id name) := by
    rw [setAttr, bind_ok (drawing_eq "node" hw)]
    change (ofExcept (attrText w.view value) >>= fun text => ofExcept (d.setAttr id name text) >>= setDrawing) w = _
    cases attrText w.view value with
    | error f => rfl
    | ok text =>
      change (ofExcept (d.setAttr id name text) >>= setDrawing) w = drawn w (d.setAttr id name text)
      cases d.setAttr id name text <;> rfl
  cases hr : attrText w.view value >>= d.setAttr id name with
  | error f =>
    rw [hr] at hset
    exact bind_error hset
  | ok d' =>
    rw [hr] at hset
    exact bind_ok hset

/-- Each attribute of a document is read and replaced by the name that is written for it, if its prefix is not the one
that every document begins with and no closing brace stands in its address. Else nothing is found by that name, and
nothing can be set by it. -/
theorem written_names_answer {source : Source} {e : Element Unit} {first generated : Nat}
    (hread : Markup.read source = some e) (hw : w.drawing = some (Drawing.ofElement e first generated))
    (hx : x ∈ (Drawing.ofElement e first generated).root.all) (ha : a ∈ x.head.attrs) :
    (Answers a.name → attr x.id [.text a.name.written] w = .ok (.text a.value) w ∧
      ∀ value s, attrText w.view value = .ok (some s) → isCarried s = true →
        ∃ d' w', attr x.id [.text a.name.written, value] w = .ok (element x.id) w' ∧ w'.drawing = some d' ∧
          (d'.attrs x.id).map (fun b => (Key.of b.name, b.value)) = x.head.attrs.map fun b =>
            (Key.of b.name, if Key.of b.name = Key.of a.name then s else b.value)) ∧
    (¬ Answers a.name → attr x.id [.text a.name.written] w = .ok .null w ∧
      ∀ value s, attrText w.view value = .ok (some s) →
        attr x.id [.text a.name.written, value] w = .error (Failure.wrongValue "Invalid attribute name") w) := by
  have hheads := Drawing.ofElement_holds (read_eq_some hread).holds first generated
  obtain ⟨around, hfind⟩ := Element.find?_of_mem (Drawing.ofElement_nodup e first generated) hx
  generalize Drawing.ofElement e first generated = d at hw hheads hfind
  obtain ⟨haround, hreads⟩ := hheads.within.of_find? hfind
  have hfind := Drawing.find?_of_root hfind
  have hscope := Drawing.scope_of_find? hfind
  have hl := hreads.legible.attrs a ha
  have hbound := hreads.bound.attrs a ha
  constructor
  · intro hanswers
    have hkey : Key.ofName _ a.name.written = .ok (Key.of a.name) := Key.ofName_answers hl.name hl.prefixed hbound hanswers
    rw [← hscope] at hkey
    have hkeys := Drawing.nodup_keys hreads.bound
    constructor
    · rw [attr_get hw, Drawing.attr?_of_key hkey, Drawing.valueOf?_of_find? hfind, Drawing.attrOf?_of_mem hkeys ha]
      rfl
    · intro value s hvalue hs
      have hname : isName (Key.of a.name).base.toList = true := hl.name.base
      obtain ⟨d', new, hput, hnew, rfl, hattrs⟩ := Drawing.put_there hfind hname hs
      refine ⟨d', (setDrawing d').after w, ?_, rfl, ?_⟩
      · have hset : attrText w.view value >>= d.setAttr x.id a.name.written = .ok d' := by
          rw [hvalue]
          exact (Drawing.setAttr_of_key hkey _).trans hput
        rw [attr_set hw, hset]
      · rw [hattrs]
        exact Drawing.map_setIn hkeys ha hnew
  · intro hsilent
    have hframe : Scope.Legible (x.head.frame :: around) :=
      (haround.cons hreads).legible
    obtain ⟨key, hkey, hname⟩ := Key.ofName_silent hframe hl.name hl.prefixed hbound hsilent
    rw [← hscope] at hkey
    constructor
    · rw [attr_get hw, Drawing.attr?_of_key hkey, Drawing.valueOf?_of_find? hfind,
        Drawing.attrOf?_unnamed hreads.legible hname]
      rfl
    · intro value s hvalue
      have hset : attrText w.view value >>= d.setAttr x.id a.name.written =
          .error (Failure.wrongValue "Invalid attribute name") := by
        rw [hvalue]
        exact (Drawing.setAttr_of_key hkey s).trans (Drawing.put_unnamed _ _ hname s)
      rw [attr_set hw, hset]

set_option maxRecDepth 100000 in
/-- A prefix that an element around another one declares. -/
theorem written_names_answer_prefixed : ∃ e x, Markup.read (.text "<svg xmlns:p='u'><g p:x='1'/></svg>") = some e ∧
    x ∈ (Drawing.ofElement e 0 0).root.all ∧
      attr x.id [.text "p:x"] (World.ofDrawing (some e) false) = .ok (.text "1") (World.ofDrawing (some e) false) := by
  have hread : (Markup.read (.text "<svg xmlns:p='u'><g p:x='1'/></svg>")).map (fun e =>
      (Drawing.ofElement e 0 0).root.all.map (·.head)) = some [⟨⟨none, "svg"⟩, [⟨some "p", "u"⟩], []⟩,
        ⟨⟨none, "g"⟩, [], [⟨⟨some ⟨some "p", "u"⟩, "x"⟩, "1"⟩]⟩] := by decide +kernel
  obtain ⟨e, he, hheads⟩ := Option.map_eq_some_iff.mp hread
  obtain ⟨x, hx, hhead⟩ := List.mem_map.mp (hheads ▸ List.mem_cons_of_mem _ List.mem_cons_self)
  have ha : (⟨⟨some ⟨some "p", "u"⟩, "x"⟩, "1"⟩ : Attr) ∈ x.head.attrs := by
    rw [hhead]
    exact List.mem_cons_self
  have hanswers : Answers ⟨some ⟨some "p", "u"⟩, "x"⟩ := by
    intro d hd
    cases hd
    decide
  exact ⟨e, x, he, hx, ((written_names_answer he rfl hx ha).1 hanswers).1⟩

set_option maxRecDepth 100000 in
/-- The language of a document is not found by the name that is written for it. -/
theorem language_unanswered : ¬ ∀ (source : Source) (e : Element Unit) (w : World) (x : Element Nat) (a : Attr),
    Markup.read source = some e → w.drawing = some (Drawing.ofElement e 0 0) →
      x ∈ (Drawing.ofElement e 0 0).root.all → a ∈ x.head.attrs →
        attr x.id [.text a.name.written] w = .ok (.text a.value) w := by
  intro h
  have hread : (Markup.read (.text "<svg xml:lang='en'/>")).map (fun e =>
      (e.head.attrs, ((Drawing.ofElement e 0 0).attr? 0 "xml:lang").toOption)) =
        some ([⟨⟨some .xml, "lang"⟩, "en"⟩], some none) := by decide +kernel
  obtain ⟨e, he, hfound⟩ := Option.map_eq_some_iff.mp hread
  obtain ⟨hattrs, hvalue⟩ := Prod.mk.inj hfound
  have ha : (⟨⟨some .xml, "lang"⟩, "en"⟩ : Attr) ∈ (Drawing.ofElement e 0 0).root.head.attrs :=
    hattrs ▸ List.mem_cons_self
  have hget := h _ e (World.ofDrawing (some e) false) _ _ he rfl List.mem_cons_self ha
  have hattr : attr 0 [.text "xml:lang"] (World.ofDrawing (some e) false) = _ := attr_get rfl "xml:lang"
  cases hr : (Drawing.ofElement e 0 0).attr? 0 "xml:lang" with
  | error f =>
    rw [hr] at hvalue
    cases hvalue
  | ok value =>
    rw [hr] at hvalue hattr
    cases hvalue
    exact absurd (hget.symm.trans hattr) (by simp [optionalText])

end Run

end LiveSvg
