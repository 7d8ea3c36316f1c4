import LiveSvg.Proofs.Answering
import LiveSvg.Proofs.Redrawing
/-!
How an attribute that is set is named. Where no prefix is in force for its address, the element declares a new one,
which stands for nothing else there; so all names around keep what they mean, that of the attribute included.
-/

namespace LiveSvg

open Markup

variable {scope around : Scope} {f : Frame} {h : Head} {n : Name} {new : Attr} {ds : List Declaration} {d : Declaration}
  {short uri : String}

namespace Markup

/-! ### New prefixes -/

theorem Scope.find?_declare {p : Option String} (hp : ∀ d ∈ ds, d.short ≠ p) :
    Scope.find? (⟨f.declarations ++ ds, f.space⟩ :: scope) p = Scope.find? (f :: scope) p := by
  have hnone : ds.find? (·.short == p) = none := by
    rw [List.find?_eq_none]
    intro d hd
    simpa using hp d hd
  rw [find?_cons, find?_cons, List.find?_append, hnone, Option.or_none]

/-- A prefix that is new in a scope hides nothing there. -/
theorem Scope.Extends.declare (hfree : Scope.find? (f :: scope) (some short) = none) :
    Scope.Extends (f :: scope) (⟨f.declarations ++ [⟨some short, uri⟩], f.space⟩ :: scope) := by
  constructor
  · intro p d hp
    by_cases hs : short = p
    · rw [← hs, hfree] at hp
      cases hp
    · rw [find?_declare fun e he => ?_, hp]
      rw [List.mem_singleton.mp he]
      exact fun h => hs (Option.some.inj h)
  · refine find?_declare fun e he => ?_
    rw [List.mem_singleton.mp he]
    nofun

/-- It stands for the address that it has been declared for. -/
theorem Scope.find?_declared (hfree : Scope.find? (f :: scope) (some short) = none) :
    Scope.find? (⟨f.declarations ++ [⟨some short, uri⟩], f.space⟩ :: scope) (some short) = some ⟨some short, uri⟩ := by
  rw [find?_cons, Option.or_eq_none_iff] at hfree
  rw [find?_cons, List.find?_append, hfree.1]
  simp

/-- What is in force in a scope that can be written can be written too. -/
theorem Scope.InForce.legible (hd : scope.InForce d) (hs : scope.Legible) : d.Legible ∨ d = .xml := by
  rcases hd with rfl | hfind
  · exact .inr rfl
  · obtain ⟨-, f, hf, hm⟩ := Scope.find?_some hfind
    exact .inl (hs f hf d hm)

/-- A name with a prefix in force is read as what it is. -/
theorem attrName?_inForce (hs : scope.Legible) (hd : scope.InForce d) (hshort : d.short.isSome = true) (base : String) :
    attrName? scope (⟨some d, base⟩ : Name).parts = some ⟨some d, base⟩ := by
  obtain ⟨short, uri⟩ := d
  cases short with
  | none => cases hshort
  | some short =>
    change elementName? scope (some short, base) = _
    rcases hd with hxml | hfind
    · cases hxml
      rfl
    · obtain ⟨-, f, hf, hm⟩ := Scope.find?_some hfind
      have hne := ((hs f hf _ hm).isName_short rfl).2.1
      have hfind : scope.find? (some short) = some ⟨some short, uri⟩ := hfind
      rw [elementName?_prefixed hne, hfind]
      rfl

/-- An attribute can be written with a prefix that can be declared. -/
theorem Attr.legible_prefixed {base value : String} (hd : d.Legible ∨ d = .xml) (hshort : d.short.isSome = true)
    (hb : isName base.toList = true) (hv : isWritable value = true) : Attr.Legible ⟨⟨some d, base⟩, value⟩ := by
  obtain ⟨_ | short, uri⟩ := d
  · cases hshort
  have hne : short ≠ "xmlns" := by
    rcases hd with hl | hxml
    · exact (hl.isName_short rfl).2.2
    · cases hxml
      decide
  have huri : uri ≠ "" := by
    rcases hd with hl | hxml
    · exact hl.uri_ne rfl
    · cases hxml
      decide
  have hparts : (⟨some ⟨some short, uri⟩, base⟩ : Name).parts = (some short, base) := rfl
  refine ⟨⟨hb, fun e he => ?_⟩, fun e he => ?_, hv, ?_⟩
  · cases he
    exact ⟨hd, huri⟩
  · cases he
    rfl
  · simp [hparts, isDeclaration, hne]

/-- What is found for an address is in force. -/
theorem Scope.Sound.inForce (hs : scope.Sound) (hd : scope.inForce? true uri = some d) :
    scope.InForce d ∧ d.short.isSome = true ∧ d.uri = uri := by
  obtain ⟨huri, hshort, -⟩ := Scope.inForce?_some hd
  refine ⟨?_, hshort rfl, huri⟩
  rw [Scope.inForce?, Bool.true_or, if_pos rfl, Scope.prefixedFor?] at hd
  split at hd
  · cases hd
    exact .inl rfl
  · exact (inForce_of_byUri? hs.owned hs.distinct hd).1

end Markup

namespace Drawing

variable {key : Key} {d d' : Drawing} {id : Nat} {value name : String}

/-! ### Names for keys -/

/-- What setting an attribute declares on an element, and what name the attribute gets there: one without a prefix,
one with a prefix in force, or one with a new prefix. -/
inductive Naming (scope : Scope) (key : Key) : List Declaration → Name → Prop
  | plain (hk : key.uri = none) : Naming scope key [] (Name.plain key.base)
  | inForce {d : Declaration} (hk : key.uri = some d.uri) (hd : scope.inForce? true d.uri = some d) :
      Naming scope key [] ⟨some d, key.base⟩
  | fresh {short uri : String} (hk : key.uri = some uri) (hnone : scope.inForce? true uri = none)
      (hname : isName short.toList = true) (hxmlns : short ≠ "xmlns") (hxml : short ≠ "xml")
      (hfree : scope.find? (some short) = none) (hunknown : Value.Members.get? knownPrefixes short = none) :
      Naming scope key [⟨some short, uri⟩] ⟨some ⟨some short, uri⟩, key.base⟩

theorem Naming.key_of (hn : Naming scope key ds n) : Key.of n = key := by
  obtain ⟨uri, base⟩ := key
  cases hn with
  | plain hk | inForce hk | fresh hk =>
    cases hk
    rfl

/-- A start tag with more declared, and an attribute set. -/
def given (ds : List Declaration) (key : Key) (new : Attr) (h : Head) : Head :=
  ⟨h.name, h.declarations ++ ds, setIn key new h.attrs⟩

theorem given_nil (key : Key) (new : Attr) : given [] key new = fun h => ⟨h.name, h.declarations, setIn key new h.attrs⟩ := by
  funext h
  rw [given, List.append_nil]

/-- New prefixes are none that are known without a declaration. -/
theorem bindingFor_unknown {counter counter' : Nat}
    (h : scope.bindingFor true uri none counter = (⟨some short, uri⟩, true, counter')) :
    Value.Members.get? knownPrefixes short = none := by
  unfold Scope.bindingFor at h
  split at h
  · cases h
  · split at h
    · next hshort =>
      cases h
      have hcustom := (Option.filter_eq_some_iff.mp hshort).1
      rw [Option.none_or] at hcustom
      obtain ⟨p, hp, rfl⟩ := Option.map_eq_some_iff.mp hcustom
      have hall : ∀ p ∈ customaryPrefixes, Value.Members.get? knownPrefixes p.2 = none := by decide
      exact hall p (List.mem_of_find?_eq_some hp)
    · obtain ⟨m, hm, -⟩ := freshShort_spec scope counter
      cases h
      have hfirst : ∀ short ∈ knownPrefixes.map (·.1), short.toList.head? ≠ some 'n' := by decide
      rw [hm, Value.Members.get?_eq_none_iff]
      exact fun hmem => generated_ne m (hfirst _ hmem) rfl

/-- Setting an attribute names it, and changes one start tag. -/
theorem put_named (h : d.put id key value = .ok d') : isName key.base.toList = true ∧ isCarried value = true ∧
    ∃ ds n generated, Naming (d.scope id) key ds n ∧
      d' = { d.retag id (given ds key ⟨n, value⟩) with generated } := by
  unfold Drawing.put at h
  split at h
  · cases h
  · next hname =>
    split at h
    · cases h
    · next hvalue =>
      refine ⟨by simpa using hname, by simpa using hvalue, ?_⟩
      obtain ⟨uri, base⟩ := key
      cases uri with
      | none =>
        cases h
        refine ⟨[], Name.plain base, d.generated, .plain rfl, ?_⟩
        rw [given_nil]
        rfl
      | some uri =>
        rcases hb : (d.scope id).bindingFor true uri none d.generated with ⟨space, isNew, counter⟩
        dsimp only at h
        rw [hb] at h
        cases h
        have hwanted : ∀ short, (none : Option String) = some short → isName short.toList = true ∧ short ≠ "xmlns" := nofun
        rcases bindingFor_spec hwanted hb with ⟨rfl, hd⟩ | ⟨rfl, hnone, short, rfl, hshort, hxmlns, hxml, hfree⟩
        · obtain rfl := (Scope.inForce?_some hd).1
          refine ⟨[], ⟨some space, base⟩, counter, .inForce rfl hd, ?_⟩
          rw [given_nil]
          rfl
        · exact ⟨_, _, counter, .fresh rfl hnone hshort hxmlns hxml hfree (bindingFor_unknown hb), rfl⟩

/-! ### What names mean afterwards -/

/-- Names with other prefixes mean what they did, and one with the new prefix was no name. -/
theorem Key.ofName_declared_other {scope' : Scope} (hk : Key.ofName scope name = .ok key) (huri : key.uri ≠ none)
    (hname : isName short.toList = true) (hfree : scope.uri? short = none)
    (hunknown : Value.Members.get? knownPrefixes short = none)
    (hsame : ∀ p, p ≠ short → scope'.uri? p = scope.uri? p) : Key.ofName scope' name = .ok key := by
  rw [ofName] at hk ⊢
  cases hsplit : Text.splitFirst ':' name.toList with
  | none =>
    rw [qualify, hsplit] at hk ⊢
    exact hk
  | some found =>
    obtain ⟨p, rest⟩ := found
    rw [qualify_split hsplit] at hk ⊢
    by_cases hp : String.ofList p = short
    · -- a name with the new prefix was taken as it stood, and had no address
      rw [hp, hfree, hunknown] at hk
      have hk : ofText name = .ok key := hk
      have hcarried : isCarried name = true := by
        rw [ofText] at hk
        split at hk
        · cases hk
        · next hc => simpa using hc
      obtain ⟨c, cs, hcs, hc⟩ := exists_of_isName hname
      have hlist : name.toList = c :: (cs ++ ':' :: rest) := by
        rw [(splitFirst_some hsplit).1, ← String.toList_ofList (l := p), hp, hcs]
        rfl
      rw [ofText_plain hcarried hlist hc] at hk
      cases hk
      exact absurd rfl huri
    · rw [hsame _ hp]
      exact hk

/-- A name means the same once its attribute has been set. -/
theorem Naming.ofName (hn : Naming (f :: around) key ds n) (hk : Key.ofName (f :: around) name = .ok key) :
    Key.ofName (⟨f.declarations ++ ds, f.space⟩ :: around) name = .ok key := by
  cases hn with
  | plain | inForce =>
    rw [List.append_nil]
    exact hk
  | @fresh short uri huri hnone hname hxmlns hxml hfree hunknown =>
    refine Key.ofName_declared_other hk (by simp [huri]) hname ?_ hunknown fun p hp => ?_
    · rw [Scope.uri?, hfree]
      rfl
    · rw [Scope.uri?, Scope.uri?, Scope.find?_declare fun d hd => ?_]
      rw [List.mem_singleton.mp hd]
      exact fun h => hp (Option.some.inj h).symm

/-! ### Start tags that are read again -/

/-- Whether an attribute with this key can be written and read again: it is no declaration, and its address is
written as it is read. -/
structure Key.Sayable (key : Key) : Prop where
  other : key ≠ ⟨none, "xmlns"⟩
  address : ∀ uri, key.uri = some uri → uri = xmlUri ∨
    (uri ≠ "" ∧ uri ≠ xmlnsUri) ∧ isCarried uri = true ∧ Address.isValid uri = true ∧ isPlainAddress uri = true

theorem Naming.declares (hn : Naming scope key ds n) (hk : key.Sayable) :
    ∀ d ∈ ds, d.Legible ∧ isPlainAddress d.uri = true := by
  cases hn with
  | plain | inForce => nofun
  | @fresh short uri huri hnone hname hxmlns hxml hfree hunknown =>
    intro d hd
    rw [List.mem_singleton.mp hd]
    have hne : uri ≠ xmlUri := by
      rintro rfl
      simp [Scope.inForce?, Scope.prefixedFor?] at hnone
    obtain ⟨⟨hempty, hreserved⟩, hcarried, hvalid, hplain⟩ := (hk.address uri huri).resolve_left hne
    have hxmlns' : isName "xmlns".toList = true := by decide
    have hnamed : Written.isValid (some "xmlns", short) = true := Bool.and_eq_true_iff.mpr ⟨hxmlns', hname⟩
    exact ⟨⟨hnamed, hcarried, declaration?_prefixed.mpr ⟨⟨hxml, hxmlns⟩, ⟨hne, hreserved⟩, hempty, hvalid⟩⟩, hplain⟩

theorem Naming.extends (hn : Naming (h.frame :: around) key ds n) (new : Attr) :
    Scope.Extends (h.frame :: around) ((given ds key new h).frame :: around) := by
  cases hn with
  | plain | inForce =>
    rw [given_nil]
    exact .refl _
  | fresh huri hnone hname hxmlns hxml hfree => exact .declare hfree

/-- The name that an attribute gets is read as what it is. -/
theorem Naming.bound (hs : Scope.Sound (h.frame :: around)) (hn : Naming (h.frame :: around) key ds n) (new : Attr) :
    attrName? ((given ds key new h).frame :: around) n.parts = some n := by
  have hx := hn.extends new
  cases hn with
  | plain => rfl
  | inForce huri hd =>
    obtain ⟨hforce, hshort, -⟩ := hs.inForce hd
    exact attrName?_extends hx (attrName?_inForce hs.legible hforce hshort key.base)
  | @fresh short uri huri hnone hname hxmlns hxml hfree =>
    change elementName? _ (some short, key.base) = _
    rw [elementName?_prefixed hxml]
    exact congrArg (Option.map _) (Scope.find?_declared hfree)

/-- So the attribute can be written. -/
theorem Naming.legible (hs : scope.Sound) (hn : Naming scope key ds n) (hk : key.Sayable)
    (hb : isName key.base.toList = true) (hv : isCarried value = true) : Attr.Legible ⟨n, value⟩ := by
  cases hn with
  | plain huri =>
    refine Writes.legible ⟨hb, hv, fun hbase => hk.other ?_⟩
    rw [← huri, ← hbase]
  | inForce huri hd =>
    obtain ⟨hforce, hshort, -⟩ := hs.inForce hd
    exact Attr.legible_prefixed (hforce.legible hs.legible) hshort hb hv
  | @fresh short uri huri hnone hname hxmlns hxml hfree hunknown =>
    have hnew := (Naming.fresh huri hnone hname hxmlns hxml hfree hunknown).declares hk _ List.mem_cons_self
    exact Attr.legible_prefixed (.inl hnew.1) rfl hb hv

theorem Naming.distinct (hn : Naming (h.frame :: around) key ds n) (hd : (h.declarations.map (·.short)).Nodup) :
    ((h.declarations ++ ds).map (·.short)).Nodup := by
  cases hn with
  | plain | inForce =>
    rw [List.append_nil]
    exact hd
  | @fresh short uri huri hnone hname hxmlns hxml hfree =>
    have hnew := Scope.find?_eq_none hfree h.frame List.mem_cons_self
    rw [List.map_append, List.nodup_append]
    refine ⟨hd, List.nodup_singleton _, fun p hp q hq => ?_⟩
    obtain ⟨d, hm, rfl⟩ := List.mem_map.mp hp
    rw [List.mem_singleton.mp hq]
    exact hnew d hm

/-- A start tag that is read again is so when an attribute has been set. -/
theorem Naming.returns (hs : around.Sound) (hr : h.Returns around) (hn : Naming (h.frame :: around) key ds n)
    (hk : key.Sayable) (hb : isName key.base.toList = true) (hv : isCarried value = true) :
    (given ds key ⟨n, value⟩ h).Returns around := by
  have hsound := hs.cons hr.reads
  have hx := hn.extends ⟨n, value⟩
  have hnames : key.names n = true := Key.names_iff.mpr hn.key_of.symm
  have hattr := hn.legible hsound hk hb hv
  have hl := hr.reads.legible
  have hbound := hr.reads.bound
  refine ⟨⟨⟨hl.name, ?_, hn.distinct hl.distinct, ?_⟩, ⟨elementName?_extends hx hbound.name, ?_, ?_⟩⟩, ?_⟩
  · exact List.forall_mem_append.mpr ⟨hl.declarations, fun d hd => (hn.declares hk d hd).1⟩
  · intro a ha
    rcases mem_setIn ha with rfl | ha
    · exact hattr
    · exact hl.attrs a ha
  · intro a ha
    rcases mem_setIn ha with rfl | ha
    · exact hn.bound hsound _
    · exact attrName?_extends hx (hbound.attrs a ha)
  · exact nodup_setIn hnames hbound.apart
  · exact List.forall_mem_append.mpr ⟨hr.plain, fun d hd => (hn.declares hk d hd).2⟩

end Drawing

end LiveSvg
