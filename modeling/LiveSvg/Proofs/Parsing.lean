import LiveSvg.Proofs.Spelling
import Mathlib.Data.List.Nodup
import Mathlib.Data.List.Perm.Basic
/-!
What a document that is read is made of: names are well-formed and bound by the declarations around
them, characters may occur in markup, and texts do not border on one another. So it is read from its
own markup again.
-/

namespace LiveSvg.Markup

open Text

variable {cs rest : List Char} {scope : Scope} {h : Head}

/-! ### Start tags and their names -/

theorem allDistinct_iff {α : Type} [BEq α] [LawfulBEq α] {l : List α} : allDistinct l = true ↔ l.Nodup := by
  induction l with
  | nil => simp [allDistinct]
  | cons a l ih => simp [allDistinct, ih]

/-- Which prefixes may be declared, and for which addresses. -/
theorem declaration?_prefixed {short uri : String} :
    declaration? (some "xmlns", short) uri = some (some ⟨some short, uri⟩) ↔
      (short ≠ "xml" ∧ short ≠ "xmlns") ∧ (uri ≠ xmlUri ∧ uri ≠ xmlnsUri) ∧ uri ≠ "" ∧
        Address.isValid uri = true := by
  unfold declaration?
  split
  · simp_all
  · simp_all
  · next k =>
    cases k
    simp_all
    exact fun _ => and_assoc.symm
  · next k =>
    exact absurd rfl (k short)

theorem declaration?_default {uri : String} : declaration? (none, "xmlns") uri = some (some ⟨none, uri⟩) ↔
    (uri ≠ xmlUri ∧ uri ≠ xmlnsUri) ∧ (uri = "" ∨ Address.isValid uri = true) := by
  simp [declaration?, and_assoc, ← or_iff_not_imp_left]

/-- All declarations in a scope have been read. -/
def Scope.Legible (scope : Scope) : Prop := ∀ f ∈ scope, ∀ d ∈ f.declarations, d.Legible

theorem Scope.find?_some {short : Option String} {d : Declaration} (h : scope.find? short = some d) :
    d.short = short ∧ ∃ f ∈ scope, d ∈ f.declarations := by
  obtain ⟨f, hf, hd⟩ := List.exists_of_findSome?_eq_some h
  exact ⟨by simpa using List.find?_some hd, f, hf, List.mem_of_find?_eq_some hd⟩

theorem elementName?_parts {name : Written} {n : Name} (h : elementName? scope name = some n) :
    n.parts = name := by
  unfold elementName? at h
  split at h
  · split at h
    · cases h
      have := (Scope.find?_some ‹_›).1
      rename_i d _
      obtain ⟨short, uri⟩ := d
      cases this
      dsimp only
      split <;> rfl
    · cases h
      rfl
  · cases h
    rfl
  · obtain ⟨d, hd, rfl⟩ := Option.map_eq_some_iff.mp h
    obtain ⟨short, uri⟩ := d
    cases (Scope.find?_some hd).1
    rfl

theorem Declaration.Legible.uri_ne {d : Declaration} (h : d.Legible) (hs : d.short.isSome = true) :
    d.uri ≠ "" := by
  obtain ⟨short, uri⟩ := d
  cases short with
  | none => cases hs
  | some short => exact (declaration?_prefixed.mp h.declares).2.2.1

theorem elementName?_legible {name : Written} {n : Name} (hs : scope.Legible) (hn : name.isValid = true)
    (h : elementName? scope name = some n) : n.Legible := by
  rw [Written.isValid, Bool.and_eq_true] at hn
  unfold elementName? at h
  split at h
  · split at h
    · next hd =>
      cases h
      obtain ⟨-, f, hf, hm⟩ := Scope.find?_some hd
      refine ⟨hn.2, fun d hd => ?_⟩
      dsimp only at hd
      split at hd
      · cases hd
      · next hu =>
        cases hd
        exact ⟨.inl (hs f hf _ hm), by simpa using hu⟩
    · cases h
      exact ⟨hn.2, fun d hd => by cases hd⟩
  · cases h
    refine ⟨hn.2, fun d hd => ?_⟩
    cases hd
    exact ⟨.inr rfl, by decide⟩
  · obtain ⟨d, hd, rfl⟩ := Option.map_eq_some_iff.mp h
    obtain ⟨hshort, f, hf, hm⟩ := Scope.find?_some hd
    refine ⟨hn.2, fun e he => ?_⟩
    cases he
    exact ⟨.inl (hs f hf d hm), (hs f hf d hm).uri_ne (by rw [hshort]; rfl)⟩

theorem elementName?_short {name : Written} {n : Name} (h : elementName? scope name = some n)
    (hn : name.1.isSome = true) {d : Declaration} (hd : n.space = some d) : d.short.isSome = true := by
  unfold elementName? at h
  split at h
  · cases hn
  · cases h
    cases hd
    rfl
  · obtain ⟨e, he, rfl⟩ := Option.map_eq_some_iff.mp h
    cases hd
    rw [(Scope.find?_some he).1]
    rfl

theorem attrName?_legible {name : Written} {n : Name} (hs : scope.Legible) (hn : name.isValid = true)
    (h : attrName? scope name = some n) :
    n.Legible ∧ ∀ d, n.space = some d → d.short.isSome = true := by
  unfold attrName? at h
  split at h
  · cases h
    exact ⟨⟨(Bool.and_eq_true_iff.mp hn).2, nofun⟩, nofun⟩
  · next hne =>
    refine ⟨elementName?_legible hs hn h, fun d hd => elementName?_short h ?_ hd⟩
    obtain ⟨short, base⟩ := name
    cases short with
    | none => exact absurd rfl (hne base)
    | some => rfl

theorem attrName?_parts {name : Written} {n : Name} (h : attrName? scope name = some n) :
    n.parts = name := by
  unfold attrName? at h
  split at h
  · cases h
    rfl
  · exact elementName?_parts h

theorem declaration?_some {name : Written} {uri : String} {d : Declaration}
    (h : declaration? name uri = some (some d)) : d.parts = name ∧ d.uri = uri := by
  unfold declaration? at h
  split at h
  · split at h
    · cases h
    · cases h
      exact ⟨rfl, rfl⟩
  · split at h <;> cases h
  · split at h
    · cases h
    · cases h
      exact ⟨rfl, rfl⟩
  · cases h

theorem Declaration.isDeclaration_parts (d : Declaration) : isDeclaration d.parts = true := by
  unfold parts
  split <;> rfl

/-- An attribute with its name bound by a scope, as it is written. -/
def Attr.rebind (scope : Scope) (a : Attr) : Option Attr :=
  (attrName? scope a.name.parts).map fun n => ⟨n, a.value⟩

/-- A start tag as it is written has its names bound by its own declarations and those around it. -/
theorem bind?_raw {head : Head} (hl : h.Legible) : bind? scope h.name.parts h.raw = some head ↔
    (h.raw.map (·.1)).Nodup ∧ head.declarations = h.declarations ∧
      h.attrs.mapM (Attr.rebind (⟨h.declarations, none⟩ :: scope)) = some head.attrs ∧
      (head.attrs.map fun a => (a.name.uri, a.name.base)).Nodup ∧
      elementName? (⟨h.declarations, none⟩ :: scope) h.name.parts = some head.name := by
  have hd : ∀ ds : List Declaration, (∀ d ∈ ds, d.Legible) →
      (ds.map fun d => (d.parts, d.uri)).filterMapM (fun i => declaration? i.1 i.2) = some ds := by
    intro ds hds
    induction ds with
    | nil => rfl
    | cons d ds ih =>
      rw [List.map_cons, List.filterMapM_cons, ih fun e he => hds e (List.mem_cons_of_mem _ he)]
      dsimp only
      rw [(hds d List.mem_cons_self).declares]
      rfl
  have hf : h.raw.filter (fun i => isDeclaration i.1) = h.declarations.map fun d => (d.parts, d.uri) := by
    rw [Head.raw, List.filter_append, List.filter_eq_self.mpr, List.filter_eq_nil_iff.mpr, List.append_nil]
    · intro i hi
      obtain ⟨a, ha, rfl⟩ := List.mem_map.mp hi
      simp [(hl.attrs a ha).other]
    · intro i hi
      obtain ⟨d, -, rfl⟩ := List.mem_map.mp hi
      exact d.isDeclaration_parts
  have ha : h.raw.filter (fun i => !isDeclaration i.1) = h.attrs.map fun a => (a.name.parts, a.value) := by
    rw [Head.raw, List.filter_append, List.filter_eq_nil_iff.mpr, List.filter_eq_self.mpr, List.nil_append]
    · intro i hi
      obtain ⟨a, ha, rfl⟩ := List.mem_map.mp hi
      simp [(hl.attrs a ha).other]
    · intro i hi
      obtain ⟨d, -, rfl⟩ := List.mem_map.mp hi
      simp [d.isDeclaration_parts]
  have hm : (h.attrs.map fun a => (a.name.parts, a.value)).mapM (fun i => do
      return (⟨← attrName? (⟨h.declarations, none⟩ :: scope) i.1, i.2⟩ : Attr)) =
        h.attrs.mapM (Attr.rebind (⟨h.declarations, none⟩ :: scope)) := by
    rw [List.mapM_map]
    congr 1
    funext a
    exact (Option.map_eq_bind ..).symm
  unfold bind?
  rw [hf, ha, hd _ hl.declarations]
  simp only [Option.bind_eq_bind, Option.bind_some] at hm ⊢
  rw [hm]
  simp only [Bool.not_eq_true', ← Bool.not_eq_true, allDistinct_iff]
  constructor
  · intro hb
    split at hb
    · cases hb
    · obtain ⟨attrs, ha, hb⟩ := Option.bind_eq_some_iff.mp hb
      split at hb
      · cases hb
      · obtain ⟨n, he, hb⟩ := Option.bind_eq_some_iff.mp hb
        cases hb
        exact ⟨Decidable.not_not.mp ‹_›, rfl, ha, Decidable.not_not.mp ‹_›, he⟩
  · rintro ⟨hn, hd, ha, hu, he⟩
    rw [if_neg (not_not_intro hn), ha]
    simp only [Option.bind_some]
    rw [if_neg (not_not_intro hu), he, ← hd]
    rfl

/-- Attributes with proper names and values. -/
def AllRead (raw : List (Written × String)) : Prop :=
  ∀ i ∈ raw, i.1.isValid = true ∧ isWritable i.2 = true

theorem filterMapM_declaration {raw : List (Written × String)} {ds : List Declaration}
    (hr : AllRead raw) (h : raw.filterMapM (fun (n, v) => declaration? n v) = some ds) :
    (∀ d ∈ ds, d.Legible) ∧ (ds.map (·.parts)).Sublist (raw.map (·.1)) := by
  induction raw generalizing ds with
  | nil =>
    cases h
    simp
  | cons i raw ih =>
    rw [List.filterMapM_cons] at h
    obtain ⟨d?, hd, h⟩ := Option.bind_eq_some_iff.mp h
    have hr' := fun j hj => hr j (List.mem_cons_of_mem _ hj)
    dsimp only at hd
    cases d? with
    | none =>
      obtain ⟨hl, hs⟩ := ih hr' h
      exact ⟨hl, hs.trans (List.sublist_cons_self ..)⟩
    | some d =>
      obtain ⟨ds, hds, h⟩ := Option.bind_eq_some_iff.mp h
      cases h
      obtain ⟨hl, hs⟩ := ih hr' hds
      obtain ⟨hp, hu⟩ := declaration?_some hd
      obtain ⟨hn, hw⟩ := hr i List.mem_cons_self
      refine ⟨?_, ?_⟩
      · rintro e (_ | ⟨_, he⟩)
        · exact ⟨hp ▸ hn, hu ▸ hw, by rw [hp, hu, hd]⟩
        · exact hl e he
      · rw [List.map_cons, List.map_cons, hp]
        exact hs.cons_cons _

theorem mapM_attrName {raw : List (Written × String)} {attrs : List Attr}
    (h : raw.mapM (fun (n, v) => do return (⟨← attrName? scope n, v⟩ : Attr)) = some attrs) :
    attrs.map (fun a => (a.name.parts, a.value)) = raw ∧
      attrs.mapM (Attr.rebind scope) = some attrs ∧
      ∀ a ∈ attrs, attrName? scope a.name.parts = some a.name := by
  induction raw generalizing attrs with
  | nil =>
    cases h
    exact ⟨rfl, rfl, nofun⟩
  | cons i raw ih =>
    rw [List.mapM_cons] at h
    obtain ⟨a, ha, h⟩ := Option.bind_eq_some_iff.mp h
    obtain ⟨attrs, has, h⟩ := Option.bind_eq_some_iff.mp h
    obtain ⟨n, hn, ha⟩ := Option.bind_eq_some_iff.mp ha
    cases ha
    cases h
    obtain ⟨hm, hs, hall⟩ := ih has
    have hp := attrName?_parts hn
    refine ⟨by rw [List.map_cons, hm, hp], ?_, ?_⟩
    · rw [List.mapM_cons, hs, Attr.rebind, hp, hn]
      rfl
    · rintro a (_ | ⟨_, ha⟩)
      · exact hp ▸ hn
      · exact hall a ha

/-- A start tag that is read is bound in the same way from what it is written as. -/
theorem bind?_read {name : Written} {raw : List (Written × String)} (hs : scope.Legible)
    (hn : name.isValid = true) (hr : AllRead raw) (hb : bind? scope name raw = some h) :
    h.Legible ∧ h.name.parts = name ∧ bind? scope h.name.parts h.raw = some h := by
  unfold bind? at hb
  split at hb
  · cases hb
  · rename_i hdist
    obtain ⟨decls, hd, hb⟩ := Option.bind_eq_some_iff.mp hb
    obtain ⟨attrs, ha, hb⟩ := Option.bind_eq_some_iff.mp hb
    split at hb
    · cases hb
    · rename_i hapart
      obtain ⟨n, he, hb⟩ := Option.bind_eq_some_iff.mp hb
      cases hb
      obtain ⟨hdl, hds⟩ := filterMapM_declaration (fun i hi => hr i (List.mem_filter.mp hi).1) hd
      obtain ⟨ham, has, hnames⟩ := mapM_attrName ha
      have hp : n.parts = name := elementName?_parts he
      have hnodup : ((⟨n, decls, attrs⟩ : Head).raw.map (·.1)).Nodup := by
        have hraw : (raw.map (·.1)).Nodup := allDistinct_iff.mp (by simpa using hdist)
        have hperm := (List.filter_append_perm (fun i : Written × String => isDeclaration i.1) raw).map (·.1)
        refine List.Nodup.sublist ?_ (hperm.nodup_iff.mpr hraw)
        rw [Head.raw, List.map_append, List.map_append, ham]
        refine List.Sublist.append ?_ (List.Sublist.refl _)
        rw [List.map_map]
        exact hds
      have hdistinct : (decls.map (·.short)).Nodup := by
        have hp : (decls.map (·.parts)).Nodup := by
          rw [Head.raw, List.map_append, List.map_map] at hnodup
          exact (List.nodup_append.mp hnodup).1
        refine List.Nodup.of_map (fun short => Declaration.parts ⟨short, ""⟩) ?_
        rw [List.map_map]
        exact hp
      have hs' : Scope.Legible (⟨decls, none⟩ :: scope) := by
        rintro f (_ | ⟨_, hf⟩)
        · exact hdl
        · exact hs f hf
      have hl : (⟨n, decls, attrs⟩ : Head).Legible := by
        refine ⟨elementName?_legible hs' hn he, hdl, hdistinct, fun a hx => ?_⟩
        have hi : (a.name.parts, a.value) ∈ raw.filter fun (n, _) => !isDeclaration n :=
          ham ▸ List.mem_map_of_mem hx
        obtain ⟨hi, ho⟩ := List.mem_filter.mp hi
        obtain ⟨hlegible, hshort⟩ := attrName?_legible hs' (hr _ hi).1 (hnames a hx)
        exact ⟨hlegible, hshort, (hr _ hi).2, by simpa using ho⟩
      refine ⟨hl, hp, ?_⟩
      exact (bind?_raw hl).mpr ⟨hnodup, rfl, has, allDistinct_iff.mp (by simpa using hapart), hp ▸ he⟩

/-! ### Values and what they are read from -/

theorem isMarkupChar_of_reference {name : List Char} {c : Char} (h : reference? name = some c) :
    isMarkupChar c = true := by
  unfold reference? at h
  split at h
  · split at h
    · cases h
    · obtain ⟨n, -, h⟩ := Option.bind_eq_some_iff.mp h
      obtain ⟨d, -, h⟩ := Option.bind_eq_some_iff.mp h
      split at h
      · cases h
        assumption
      · cases h
  · split at h
    · cases h
    · obtain ⟨d, -, h⟩ := Option.bind_eq_some_iff.mp h
      split at h
      · cases h
        assumption
      · cases h
  · repeat' split at h
    all_goals cases h
    all_goals decide

/-- Resolving references leaves characters of markup, and at least one of any. -/
theorem resolve_some {plain : Char → Char} (hp : ∀ c, isMarkupChar c = true → isMarkupChar (plain c) = true)
    {pending : Option (List Char)} {ds : List Char} (hc : cs.all isMarkupChar = true)
    (h : resolve plain pending cs = some ds) :
    ds.all isMarkupChar = true ∧ (cs ≠ [] ∨ pending ≠ none → ds ≠ []) := by
  induction cs generalizing pending ds with
  | nil =>
    rw [resolve] at h
    split at h
    · cases h
      refine ⟨rfl, fun k => ?_⟩
      cases pending with
      | none => simp at k
      | some => simp_all
    · cases h
  | cons c cs ih =>
    rw [List.all_cons, Bool.and_eq_true] at hc
    cases pending with
    | some name =>
      rw [resolve] at h
      split at h
      · obtain ⟨d, hd, h⟩ := Option.bind_eq_some_iff.mp h
        obtain ⟨ds, hr, h⟩ := Option.bind_eq_some_iff.mp h
        cases h
        exact ⟨by rw [List.all_cons, isMarkupChar_of_reference hd, (ih hc.2 hr).1]; rfl,
          fun _ => List.cons_ne_nil _ _⟩
      · obtain ⟨ha, hn⟩ := ih hc.2 h
        exact ⟨ha, fun _ => hn (.inr (Option.some_ne_none _))⟩
    | none =>
      rw [resolve] at h
      split at h
      · obtain ⟨ha, hn⟩ := ih hc.2 h
        exact ⟨ha, fun _ => hn (.inr (Option.some_ne_none _))⟩
      · obtain ⟨ds, hr, h⟩ := Option.bind_eq_some_iff.mp h
        cases h
        exact ⟨by rw [List.all_cons, hp c hc.1, (ih hc.2 hr).1]; rfl, fun _ => List.cons_ne_nil _ _⟩

theorem all_isMarkupChar_of_isClean (h : isClean cs = true) : cs.all isMarkupChar = true := by
  rw [List.all_eq_true]
  intro c hc
  exact (Bool.and_eq_true _ _ ▸ List.all_eq_true.mp h c hc).1

theorem attrValue?_some {v : String} (hc : isClean cs = true) (h : attrValue? cs = some v) :
    isWritable v = true := by
  unfold attrValue? at h
  split at h
  · cases h
  · obtain ⟨ds, hr, rfl⟩ := Option.map_eq_some_iff.mp h
    have hp : ∀ c, isMarkupChar c = true → isMarkupChar (if isSpace c then ' ' else c) = true := by
      intro c hc
      split
      · decide
      · exact hc
    unfold isWritable
    rw [String.toList_ofList]
    exact (resolve_some hp (all_isMarkupChar_of_isClean hc) hr).1

theorem dataValue?_some {s : String} (hc : isClean cs = true) (hn : cs ≠ []) (h : dataValue? cs = some s) :
    (Leaf.text s).Legible := by
  unfold dataValue? at h
  split at h
  · cases h
  · obtain ⟨ds, hr, rfl⟩ := Option.map_eq_some_iff.mp h
    obtain ⟨ha, hne⟩ := resolve_some (fun _ => id) (all_isMarkupChar_of_isClean hc) hr
    refine ⟨fun k => hne (.inl hn) ?_, ?_⟩
    · rwa [← String.toList_eq_nil_iff, String.toList_ofList] at k
    · unfold isWritable
      rwa [String.toList_ofList]

theorem isClean_of_append {as : List Char} (h : isClean (as ++ cs) = true) :
    isClean as = true ∧ isClean cs = true := by
  rwa [isClean_append, Bool.and_eq_true] at h

theorem isClean_drop (n : Nat) (h : isClean cs = true) : isClean (cs.drop n) = true :=
  List.all_eq_true.mpr fun c k => List.all_eq_true.mp h c (List.mem_of_mem_drop k)

theorem isClean_skipSpace (h : isClean cs = true) : isClean (skipSpace cs) = true :=
  List.all_eq_true.mpr fun c k => List.all_eq_true.mp h c ((List.dropWhile_sublist _).subset k)

theorem skipSpace_skipSpace (cs : List Char) : skipSpace (skipSpace cs) = skipSpace cs := by
  induction cs with
  | nil => rfl
  | cons c cs ih =>
    unfold skipSpace at ih ⊢
    cases hc : isSpace c with
    | true => rw [List.dropWhile_cons_of_pos hc, ih]
    | false => rw [List.dropWhile_cons_of_neg (by simp [hc]), List.dropWhile_cons_of_neg (by simp [hc])]

theorem takeAttrs_some {fuel : Nat} {raw : List (Written × String)} (hc : isClean cs = true)
    (h : takeAttrs fuel cs = some (raw, rest)) : AllRead raw ∧ isClean rest = true := by
  induction fuel generalizing cs raw with
  | zero => cases h
  | succ fuel ih =>
    have hskip := isClean_skipSpace hc
    rw [takeAttrs] at h
    dsimp only at h
    split at h
    · cases h
      exact ⟨List.forall_mem_nil _, by simp_all⟩
    · cases h
      exact ⟨List.forall_mem_nil _, by simp_all⟩
    · split at h
      · cases h
      · obtain ⟨⟨name, rest₁⟩, hw, h⟩ := Option.bind_eq_some_iff.mp h
        obtain ⟨rest₂, he, h⟩ := Option.bind_eq_some_iff.mp h
        obtain ⟨hs, hv⟩ := takeWritten_some hw
        have h₁ : isClean rest₁ = true := (isClean_of_append (hs ▸ hskip)).2
        have h₂ : isClean rest₂ = true :=
          (isClean_of_append (expect_some he ▸ isClean_skipSpace h₁)).2
        have h₃ := isClean_skipSpace h₂
        split at h
        · next q rest₃ hq =>
          rw [hq, isClean_cons, Bool.and_eq_true] at h₃
          split at h
          · obtain ⟨⟨value, rest₄⟩, hr, h⟩ := Option.bind_eq_some_iff.mp h
            obtain ⟨v, ha, h⟩ := Option.bind_eq_some_iff.mp h
            obtain ⟨⟨more, rest₅⟩, hm, h⟩ := Option.bind_eq_some_iff.mp h
            cases h
            obtain ⟨rfl, -⟩ := splitFirst_some hr
            obtain ⟨hval, h₄⟩ := isClean_of_append h₃.2
            rw [isClean_cons, Bool.and_eq_true] at h₄
            obtain ⟨hall, hrest⟩ := ih h₄.2 hm
            refine ⟨?_, hrest⟩
            rintro i (_ | ⟨_, hi⟩)
            · exact ⟨hv, attrValue?_some hval ha⟩
            · exact hall i hi
          · cases h
        · cases h

/-! ### Elements and their content -/

theorem takeSection_some {l : Leaf} (hc : isClean cs = true) (h : takeSection cs = some (l, rest)) :
    l.Legible ∧ l.isText = false ∧ isClean rest = true := by
  obtain ⟨⟨body, after⟩, hs, h⟩ := Option.bind_eq_some_iff.mp h
  cases h
  obtain ⟨rfl, hp⟩ := splitMarker_some hs
  obtain ⟨hb, hr⟩ := isClean_of_append hc
  refine ⟨⟨?_, ?_⟩, rfl, (isClean_of_append hr).2⟩ <;> rwa [String.toList_ofList]

theorem takeComment_some {l : Leaf} (hc : isClean cs = true) (h : takeComment cs = some (l, rest)) :
    l.Legible ∧ l.isText = false ∧ isClean rest = true := by
  obtain ⟨⟨body, after⟩, hs, h⟩ := Option.bind_eq_some_iff.mp h
  obtain ⟨rest, he, h⟩ := Option.bind_eq_some_iff.mp h
  cases h
  obtain ⟨rfl, hp⟩ := splitMarker_some hs
  obtain rfl := expect_some he
  obtain ⟨hb, hr⟩ := isClean_of_append hc
  refine ⟨⟨?_, ?_⟩, rfl, (isClean_of_append (isClean_of_append hr).2).2⟩ <;> rwa [String.toList_ofList]

theorem takeInstruction_some {l : Leaf} (hc : isClean cs = true)
    (h : takeInstruction cs = some (l, rest)) : l.Legible ∧ l.isText = false ∧ isClean rest = true := by
  obtain ⟨⟨target, after⟩, hn, h⟩ := Option.bind_eq_some_iff.mp h
  obtain ⟨hcs, hname⟩ := takeName_some hn
  rw [hcs] at hc
  dsimp only at h
  split at h
  · cases h
  · rename_i hx
    obtain ⟨⟨body, after'⟩, hs, h⟩ := Option.bind_eq_some_iff.mp h
    obtain ⟨ha, hp⟩ := splitMarker_some hs
    obtain ⟨hb, hr⟩ := isClean_of_append (ha ▸ (isClean_of_append hc).2)
    dsimp only at h
    split at h
    · cases h
      refine ⟨⟨?_, ?_, rfl, .inl rfl⟩, rfl, (isClean_of_append hr).2⟩ <;> rwa [String.toList_ofList]
    · split at h
      · cases h
      · cases h
        refine ⟨⟨?_, ?_, ?_, .inr ⟨?_, ?_⟩⟩, rfl, (isClean_of_append hr).2⟩ <;> rw [String.toList_ofList]
        · exact hname
        · exact hx
        · exact isClean_skipSpace hb
        · exact skipSpace_skipSpace body
        · refine Precedes.cons ?_ (by decide)
          rw [← List.takeWhile_append_dropWhile (p := isSpace) (l := body)] at hp
          exact hp.of_append

/-- Content as it is read within a scope: it is bound there, and no deeper than allowed. -/
structure Content.Sound (scope : Scope) (depth : Nat) (c : Content Unit) : Prop where
  legible : c.Legible
  bound : c.rebind scope = some c
  shallow : c.depth ≤ depth

structure Element.Sound (scope : Scope) (depth : Nat) (e : Element Unit) : Prop where
  legible : e.Legible
  head : bind? scope e.head.name.parts e.head.raw = some e.head
  inner : e.inner.rebind (e.head.frame :: scope) = some e.inner
  shallow : e.inner.depth < depth

theorem Content.Sound.leaf {depth : Nat} {l : Leaf} {c : Content Unit} (h : c.Sound scope depth)
    (hl : l.Legible) (ht : l.isText = true → c.startsText = false) :
    (Content.leaf l c).Sound scope depth :=
  ⟨⟨hl, ht, h.legible⟩, by rw [Content.rebind, h.bound]; rfl, h.shallow⟩

theorem Element.Sound.content {depth : Nat} {e : Element Unit} {c : Content Unit}
    (he : e.Sound scope depth) (h : c.Sound scope depth) :
    (Content.element e.id e.head e.inner c).Sound scope depth := by
  refine ⟨⟨he.legible.1, he.legible.2, h.legible⟩, ?_, Nat.max_le.mpr ⟨he.shallow, h.shallow⟩⟩
  rw [Content.rebind, he.head]
  simp only [he.inner, h.bound, Option.bind_eq_bind, Option.bind_some]
  rfl

theorem takeEnd_some {name : Written} (hc : isClean cs = true) (h : takeEnd name cs = some rest) :
    isClean rest = true := by
  obtain ⟨rest₁, ho, h⟩ := Option.bind_eq_some_iff.mp h
  obtain ⟨⟨n, rest₂⟩, hw, h⟩ := Option.bind_eq_some_iff.mp h
  have h₁ := (isClean_of_append (expect_some ho ▸ hc)).2
  have h₂ := (isClean_of_append ((takeWritten_some hw).1 ▸ h₁)).2
  dsimp only at h
  split at h
  · exact (isClean_of_append (expect_some h ▸ isClean_skipSpace h₂)).2
  · cases h

/-- Elements and content that are read with the fuel given are sound, and so is what is left for reading on. Content
begins with text only where no bracket stands. -/
structure ReadsSound (fuel : Nat) : Prop where
  element : ∀ {depth scope cs e rest}, Scope.Legible scope → isClean cs = true →
    readElement fuel depth scope cs = some (e, rest) → e.Sound scope depth ∧ isClean rest = true
  content : ∀ {depth scope cs c rest}, Scope.Legible scope → isClean cs = true →
    readContent fuel depth scope cs = some (c, rest) →
      c.Sound scope depth ∧ isClean rest = true ∧ (c.startsText = true → cs.head? ≠ some '<')

namespace ReadsSound

variable {fuel depth : Nat}

theorem zero : ReadsSound 0 := by
  refine ⟨fun _ _ h => ?_, fun _ _ h => ?_⟩
  · rw [readElement] at h
    · cases h
    · exact fun _ _ k => absurd k (Nat.zero_ne_add_one _)
  · rw [readContent] at h
    cases h

theorem succ_element (ih : ReadsSound fuel) {e : Element Unit} (hscope : Scope.Legible scope) (hc : isClean cs = true)
    (h : readElement (fuel + 1) (depth + 1) scope cs = some (e, rest)) :
    e.Sound scope (depth + 1) ∧ isClean rest = true := by
  rw [readElement] at h
  obtain ⟨rest₁, ho, h⟩ := Option.bind_eq_some_iff.mp h
  obtain ⟨⟨name, rest₂⟩, hw, h⟩ := Option.bind_eq_some_iff.mp h
  obtain ⟨⟨raw, rest₃⟩, ha, h⟩ := Option.bind_eq_some_iff.mp h
  obtain ⟨head, hb, h⟩ := Option.bind_eq_some_iff.mp h
  obtain ⟨hr₁, hn⟩ := takeWritten_some hw
  have h₁ := (isClean_of_append (expect_some ho ▸ hc)).2
  have h₂ := (isClean_of_append (hr₁ ▸ h₁)).2
  obtain ⟨hr, h₃⟩ := takeAttrs_some h₂ ha
  obtain ⟨hl, -, hhead⟩ := bind?_read hscope hn hr hb
  dsimp only at h
  split at h
  · obtain ⟨rest₄, he, h⟩ := Option.bind_eq_some_iff.mp h
    cases h
    rw [isClean_cons, Bool.and_eq_true] at h₃
    exact ⟨⟨⟨hl, trivial⟩, hhead, rfl, Nat.succ_pos _⟩, (isClean_of_append (expect_some he ▸ h₃.2)).2⟩
  · obtain ⟨rest₄, he, h⟩ := Option.bind_eq_some_iff.mp h
    obtain ⟨⟨inner, rest₅⟩, hi, h⟩ := Option.bind_eq_some_iff.mp h
    obtain ⟨rest₆, hend, h⟩ := Option.bind_eq_some_iff.mp h
    cases h
    have h₄ := (isClean_of_append (expect_some he ▸ h₃)).2
    have hscope' : Scope.Legible (head.frame :: scope) := by
      rintro f (_ | ⟨_, hf⟩)
      · exact hl.declarations
      · exact hscope f hf
    obtain ⟨hs, h₅, -⟩ := ih.content hscope' h₄ hi
    exact ⟨⟨⟨hl, hs.legible⟩, hhead, hs.bound, Nat.lt_succ_of_le hs.shallow⟩, takeEnd_some h₅ hend⟩

/-- After a leaf that is no text. -/
theorem succ_leaf (ih : ReadsSound fuel) {l : Leaf} {after : List Char} {c : Content Unit}
    (hscope : Scope.Legible scope) (hl : l.Legible ∧ l.isText = false ∧ isClean after = true)
    (h : ((readContent fuel depth scope after).bind fun found => some (Content.leaf l found.1, found.2)) =
      some (c, rest)) :
    c.Sound scope depth ∧ isClean rest = true ∧ (c.startsText = true → cs.head? ≠ some '<') := by
  obtain ⟨hl, ht, ha⟩ := hl
  obtain ⟨⟨more, rest₁⟩, hm, h⟩ := Option.bind_eq_some_iff.mp h
  cases h
  obtain ⟨hs, hr, -⟩ := ih.content hscope ha hm
  exact ⟨hs.leaf hl fun k => absurd (ht.symm.trans k) Bool.false_ne_true, hr,
    fun k => absurd (ht.symm.trans k) Bool.false_ne_true⟩

/-- What follows a text begins with a bracket, if there is anything. -/
theorem not_startsText (ih : ReadsSound fuel) {c : Content Unit} (hscope : Scope.Legible scope)
    (hc : isClean (cs.dropWhile (· ≠ '<')) = true)
    (h : readContent fuel depth scope (cs.dropWhile (· ≠ '<')) = some (c, rest)) : c.startsText = false := by
  rw [Bool.eq_false_iff]
  intro ht
  have hhead := (ih.content hscope hc h).2.2 ht
  have hstop := List.head?_dropWhile_not (fun d => decide (d ≠ '<')) cs
  cases hw : cs.dropWhile (· ≠ '<') with
  | nil =>
    rw [hw] at h
    cases fuel <;>
    · rw [readContent] at h
      cases h
  | cons d tail =>
    rw [hw] at hhead hstop
    simp_all

/-- Where no bracket stands. -/
theorem succ_text (ih : ReadsSound fuel) {c : Content Unit} (hscope : Scope.Legible scope) (hc : isClean cs = true)
    (hne : cs ≠ []) (hhead : cs.head? ≠ some '<')
    (h : ((dataValue? (cs.takeWhile (· ≠ '<'))).bind fun s =>
      (readContent fuel depth scope (cs.dropWhile (· ≠ '<'))).bind fun found =>
        some (Content.leaf (.text s) found.1, found.2)) = some (c, rest)) :
    c.Sound scope depth ∧ isClean rest = true := by
  obtain ⟨s, hd, h⟩ := Option.bind_eq_some_iff.mp h
  obtain ⟨⟨more, rest₁⟩, hm, h⟩ := Option.bind_eq_some_iff.mp h
  cases h
  have hdrop : isClean (cs.dropWhile (· ≠ '<')) = true :=
    List.all_eq_true.mpr fun d k => List.all_eq_true.mp hc d ((List.dropWhile_sublist _).subset k)
  have htake : isClean (cs.takeWhile (· ≠ '<')) = true :=
    List.all_eq_true.mpr fun d k => List.all_eq_true.mp hc d ((List.takeWhile_sublist _).subset k)
  have hsome : cs.takeWhile (· ≠ '<') ≠ [] := by
    obtain ⟨d, tail, rfl⟩ := List.exists_cons_of_ne_nil hne
    have hd : d ≠ '<' := fun k => hhead (k ▸ rfl)
    simp [hd]
  obtain ⟨hs, hr, -⟩ := ih.content hscope hdrop hm
  exact ⟨hs.leaf (dataValue?_some htake hsome hd) fun _ => ih.not_startsText hscope hdrop hm, hr⟩

theorem succ_content (ih : ReadsSound fuel) {c : Content Unit} (hscope : Scope.Legible scope) (hc : isClean cs = true)
    (h : readContent (fuel + 1) depth scope cs = some (c, rest)) :
    c.Sound scope depth ∧ isClean rest = true ∧ (c.startsText = true → cs.head? ≠ some '<') := by
  unfold readContent at h
  dsimp only at h
  split at h
  · cases h
  · cases h
    exact ⟨⟨trivial, rfl, Nat.zero_le _⟩, hc, fun k => absurd k Bool.false_ne_true⟩
  · obtain ⟨⟨l, after⟩, hf, h⟩ := Option.bind_eq_some_iff.mp h
    exact ih.succ_leaf hscope (takeInstruction_some (isClean_drop 2 hc) hf) h
  · obtain ⟨⟨l, after⟩, hf, h⟩ := Option.bind_eq_some_iff.mp h
    exact ih.succ_leaf hscope (takeComment_some (isClean_drop 4 hc) hf) h
  · obtain ⟨⟨l, after⟩, hf, h⟩ := Option.bind_eq_some_iff.mp h
    exact ih.succ_leaf hscope (takeSection_some (isClean_drop 9 hc) hf) h
  · obtain ⟨⟨e, rest₁⟩, he, h⟩ := Option.bind_eq_some_iff.mp h
    obtain ⟨⟨more, rest₂⟩, hm, h⟩ := Option.bind_eq_some_iff.mp h
    cases h
    obtain ⟨hes, h₁⟩ := ih.element hscope hc he
    obtain ⟨hms, h₂, -⟩ := ih.content hscope h₁ hm
    exact ⟨hes.content hms, h₂, fun k => absurd k Bool.false_ne_true⟩
  · rename_i hnil _ _ _ _ hbracket
    have hhead : cs.head? ≠ some '<' := by
      intro k
      obtain ⟨tail, rfl⟩ := List.head?_eq_some_iff.mp k
      exact hbracket tail rfl
    obtain ⟨hs, hr⟩ := ih.succ_text hscope hc hnil hhead h
    exact ⟨hs, hr, fun _ => hhead⟩

end ReadsSound

theorem readsSound (fuel : Nat) : ReadsSound fuel := by
  induction fuel with
  | zero => exact .zero
  | succ fuel ih =>
    refine ⟨fun {depth _ _ _ _} hscope hc h => ?_, ih.succ_content⟩
    cases depth with
    | zero =>
      rw [readElement] at h
      · cases h
      · exact fun _ _ _ k => absurd k (Nat.zero_ne_add_one _)
    | succ depth => exact ih.succ_element hscope hc h

/-! ### What stands around the element -/

theorem isClean_normalizeLines (h : cs.all isMarkupChar = true) : isClean (normalizeLines cs) = true := by
  have hn : (isMarkupChar '\n' && '\n' != '\r') = true := by decide
  fun_induction normalizeLines cs with
  | case1 cs ih =>
    rw [isClean_cons, hn, ih (by simp_all)]
    rfl
  | case2 cs hne ih =>
    rw [isClean_cons, hn, ih (by simp_all)]
    rfl
  | case3 c cs h₁ h₂ ih =>
    rw [List.all_cons, Bool.and_eq_true] at h
    rw [isClean_cons, ih h.2, h.1]
    simpa using h₂
  | case4 => rfl

theorem skipAside_some {fuel : Nat} (hc : isClean cs = true) (h : skipAside fuel cs = some rest) :
    isClean rest = true := by
  induction fuel generalizing cs with
  | zero => cases h
  | succ fuel ih =>
    have hs := isClean_skipSpace hc
    rw [skipAside] at h
    split at h
    · next k =>
      rw [k] at hs
      obtain ⟨⟨l, after⟩, hf, h⟩ := Option.bind_eq_some_iff.mp h
      exact ih (takeInstruction_some (isClean_drop 2 hs) hf).2.2 h
    · next k =>
      rw [k] at hs
      obtain ⟨⟨l, after⟩, hf, h⟩ := Option.bind_eq_some_iff.mp h
      exact ih (takeComment_some (isClean_drop 4 hs) hf).2.2 h
    · cases h
      exact hs

theorem takeLiteral_some {word : List Char} (hc : isClean cs = true)
    (h : takeLiteral cs = some (word, rest)) : isClean rest = true := by
  unfold takeLiteral at h
  split at h
  · split at h
    · have hr := (isClean_of_append ((splitFirst_some h).1 ▸ isClean_drop 1 hc)).2
      exact isClean_drop 1 hr
    · cases h
  · cases h

theorem afterSpace_some (hc : isClean cs = true) (h : afterSpace cs = some rest) : isClean rest = true := by
  unfold afterSpace at h
  dsimp only at h
  split at h
  · cases h
    exact isClean_skipSpace hc
  · cases h

theorem isClean_expect {opening : List Char} (hc : isClean cs = true) (h : expect opening cs = some rest) :
    isClean rest = true :=
  (isClean_of_append (expect_some h ▸ hc)).2

theorem takeSetting_some {name : String} {word : List Char} (hc : isClean cs = true)
    (h : takeSetting name cs = some (word, rest)) : isClean rest = true := by
  obtain ⟨rest₁, h₁, h⟩ := Option.bind_eq_some_iff.mp h
  obtain ⟨rest₂, h₂, h⟩ := Option.bind_eq_some_iff.mp h
  obtain ⟨rest₃, h₃, h⟩ := Option.bind_eq_some_iff.mp h
  have k := isClean_expect (isClean_skipSpace (isClean_expect (afterSpace_some hc h₁) h₂)) h₃
  exact takeLiteral_some (isClean_skipSpace k) h

theorem takeDeclaration_some {encoding : Option String} (hc : isClean cs = true)
    (h : takeDeclaration cs = some (encoding, rest)) : isClean rest = true := by
  -- the settings that may stand before the end, where they do
  have hend : ∀ {enc : Option String} {before : List Char}, isClean before = true →
      ((expect "?>".toList (skipSpace before)).bind fun r => some (enc, r)) = some (encoding, rest) →
      isClean rest = true := by
    intro enc before k h
    obtain ⟨after, he, h⟩ := Option.bind_eq_some_iff.mp h
    cases h
    exact isClean_expect (isClean_skipSpace k) he
  obtain ⟨⟨version, rest₁⟩, h₁, h⟩ := Option.bind_eq_some_iff.mp h
  have k₁ := takeSetting_some hc h₁
  dsimp only at h
  split at h
  · cases h
  · split at h
    · next k =>
      have k₂ := takeSetting_some k₁ k
      split at h
      · obtain ⟨⟨enc, rest₂⟩, h₂, h⟩ := Option.bind_eq_some_iff.mp h
        cases h₂
        dsimp only at h
        split at h
        · next k =>
          split at h
          · exact hend (takeSetting_some k₂ k) h
          · cases h
        · exact hend k₂ h
      · cases h
    · obtain ⟨⟨enc, rest₂⟩, h₂, h⟩ := Option.bind_eq_some_iff.mp h
      cases h₂
      dsimp only at h
      split at h
      · next k =>
        split at h
        · exact hend (takeSetting_some k₁ k) h
        · cases h
      · exact hend k₁ h

theorem skipExternal_some (hc : isClean cs = true) (h : skipExternal cs = some rest) :
    isClean rest = true := by
  unfold skipExternal at h
  split at h
  · next k =>
    obtain ⟨rest₁, h₁, h⟩ := Option.bind_eq_some_iff.mp h
    obtain ⟨⟨word, rest₂⟩, h₂, h⟩ := Option.bind_eq_some_iff.mp h
    cases h
    exact takeLiteral_some (afterSpace_some (isClean_expect hc k) h₁) h₂
  · next k _ =>
    obtain ⟨rest₁, h₁, h⟩ := Option.bind_eq_some_iff.mp h
    obtain ⟨⟨word, rest₂⟩, h₂, h⟩ := Option.bind_eq_some_iff.mp h
    obtain ⟨rest₃, h₃, h⟩ := Option.bind_eq_some_iff.mp h
    obtain ⟨⟨word', rest₄⟩, h₄, h⟩ := Option.bind_eq_some_iff.mp h
    cases h
    have k₂ := takeLiteral_some (afterSpace_some (isClean_expect hc k) h₁) h₂
    exact takeLiteral_some (afterSpace_some k₂ h₃) h₄
  · cases h
    exact hc

theorem skipDoctype_some (hc : isClean cs = true) (h : skipDoctype cs = some rest) :
    isClean rest = true := by
  unfold skipDoctype at h
  split at h
  · cases h
    exact hc
  · next k =>
    obtain ⟨rest₁, h₁, h⟩ := Option.bind_eq_some_iff.mp h
    obtain ⟨⟨name, rest₂⟩, h₂, h⟩ := Option.bind_eq_some_iff.mp h
    obtain ⟨rest₃, h₃, h⟩ := Option.bind_eq_some_iff.mp h
    have k₁ := afterSpace_some (isClean_expect hc k) h₁
    have k₂ := (isClean_of_append ((takeWritten_some h₂).1 ▸ k₁)).2
    have k₃ := isClean_skipSpace (skipExternal_some (isClean_skipSpace k₂) h₃)
    split at h
    · next hb =>
      rw [hb] at k₃
      obtain ⟨rest₄, h₄, h⟩ := Option.bind_eq_some_iff.mp h
      have k₄ := isClean_expect (isClean_skipSpace (isClean_drop 1 k₃)) h₄
      exact isClean_expect (isClean_skipSpace k₄) h
    · exact isClean_expect k₃ h

/-- A document that is read is an element that stands for itself. -/
theorem read_eq_some {source : Source} {e : Element Unit} (h : read source = some e) :
    e.Sound [] maxDepth := by
  obtain ⟨cs, -, h⟩ := Option.bind_eq_some_iff.mp h
  -- what the element is read from, once a declaration of the document is past
  have hbody : ∀ {fuel : Nat} {rest : List Char}, isClean rest = true →
      ((skipAside fuel rest).bind fun rest => (skipDoctype rest).bind fun rest =>
        (skipAside fuel rest).bind fun rest => (readElement fuel maxDepth [] rest).bind fun found =>
          (skipAside fuel found.2).bind fun rest =>
            if rest.isEmpty then some found.1 else none) = some e → e.Sound [] maxDepth := by
    intro fuel rest k h
    obtain ⟨rest₁, h₁, h⟩ := Option.bind_eq_some_iff.mp h
    obtain ⟨rest₂, h₂, h⟩ := Option.bind_eq_some_iff.mp h
    obtain ⟨rest₃, h₃, h⟩ := Option.bind_eq_some_iff.mp h
    obtain ⟨⟨e', rest₄⟩, h₄, h⟩ := Option.bind_eq_some_iff.mp h
    obtain ⟨rest₅, -, h⟩ := Option.bind_eq_some_iff.mp h
    split at h
    · cases h
      exact ((readsSound _).element (fun _ k => absurd k List.not_mem_nil) (skipAside_some (skipDoctype_some (skipAside_some k h₁) h₂) h₃) h₄).1
    · cases h
  unfold readChars at h
  split at h
  · cases h
  · rename_i hall
    have k := isClean_normalizeLines (by simpa using hall)
    dsimp only at h
    split at h
    · obtain ⟨rest, hr, h⟩ := Option.bind_eq_some_iff.mp h
      obtain ⟨⟨enc, rest⟩, hd, rfl⟩ := Option.map_eq_some_iff.mp hr
      exact hbody (takeDeclaration_some (isClean_drop 5 k) hd) h
    · exact hbody k h

end LiveSvg.Markup
