import LiveSvg.Proofs.Binding
/-!
When clearing needless declarations leaves each name bound to what it is written with: if a prefix that
shares its address with another one stands for nothing else in the document, no declaration comes between
a name and the declaration that it has moved to.
-/

namespace LiveSvg.Markup

variable {ι : Type} {ds : List Declaration} {scope scope' so sn around : Scope} {d e : Declaration} {uri : String}
  {root : Frame} {table : Replacements} {s t : Supply} {isAttr : Bool} {n : Name} {h : Head} {c : Content ι}

/-- Whether no declaration takes a namespace away, and a prefix that shares its address with another one
stands for that address only. -/
def Unmixed (ds : List Declaration) : Prop :=
  ∀ d ∈ ds, d.uri ≠ "" ∧ ∀ d₁ ∈ ds, d₁.uri = d.uri → d₁.short ≠ d.short →
    ∀ d₂ ∈ ds, d₂.short = d.short → d₂.uri = d.uri

instance (ds : List Declaration) : Decidable (Unmixed ds) :=
  inferInstanceAs (Decidable (∀ d ∈ ds, d.uri ≠ "" ∧ ∀ d₁ ∈ ds, d₁.uri = d.uri → d₁.short ≠ d.short →
    ∀ d₂ ∈ ds, d₂.short = d.short → d₂.uri = d.uri))

theorem Declaration.eq_of (hs : d.short = e.short) (hu : d.uri = e.uri) : d = e := by
  cases d
  cases e
  cases hs
  cases hu
  rfl

theorem Declaration.Legible.uri_ne_xml (h : d.Legible) : d.uri ≠ xmlUri := by
  obtain ⟨_ | short, uri⟩ := d
  · exact (declaration?_default.mp h.declares).1.1
  · exact (declaration?_prefixed.mp h.declares).2.1.1

theorem Unmixed.eq (hu : Unmixed ds) {d₁ d₂ : Declaration} (hd : d ∈ ds) (hd₁ : d₁ ∈ ds) (huri : d₁.uri = d.uri)
    (hne : d₁.short ≠ d.short) (hd₂ : d₂ ∈ ds) (hs : d₂.short = d.short) : d₂ = d := by
  have huri₂ := (hu d hd).2 d₁ hd₁ huri hne d₂ hd₂ hs
  exact Declaration.eq_of hs huri₂

/-! ### What is in force -/

namespace Scope

/-- Whether a declaration is the one that its prefix stands for. -/
def InForce (scope : Scope) (d : Declaration) : Prop := d = .xml ∨ scope.find? d.short = some d

/-- Whether the name of each element around a place is bound to what is in force there. -/
def Owned : Scope → Prop
  | [] => True
  | f :: outer => (∀ d, f.space = some d → Scope.InForce (f :: outer) d) ∧ Owned outer

theorem find?_cons (f : Frame) (scope : Scope) (short : Option String) :
    Scope.find? (f :: scope) short = (f.declarations.find? (·.short == short)).or (scope.find? short) := by
  rw [find?, List.findSome?_cons]
  cases f.declarations.find? (·.short == short) <;> rfl

/-- A frame hides nothing whose prefix it does not declare. -/
theorem find?_cons_of_other {f : Frame} {short : Option String} (hf : ∀ x ∈ f.declarations, x.short ≠ short) :
    Scope.find? (f :: scope) short = scope.find? short := by
  have hnone : f.declarations.find? (·.short == short) = none := by
    rw [List.find?_eq_none]
    intro x hx
    simpa using hf x hx
  rw [find?_cons, hnone, Option.none_or]

/-- What is in force stays so within a frame that declares its prefix as the same or not at all. -/
theorem find?_cons_of_same {f : Frame} (hd : scope.find? d.short = some d)
    (hf : ∀ x ∈ f.declarations, x.short = d.short → x = d) : Scope.find? (f :: scope) d.short = some d := by
  rw [find?_cons]
  cases hx : f.declarations.find? (·.short == d.short) with
  | none => rw [Option.none_or, hd]
  | some x =>
    have hs : x.short = d.short := by simpa using List.find?_some hx
    have he := hf x (List.mem_of_find?_eq_some hx) hs
    rw [Option.some_or, he]

theorem find?_append (scope outer : Scope) (short : Option String) :
    Scope.find? (scope ++ outer) short = (scope.find? short).or (outer.find? short) := by
  induction scope with
  | nil => rfl
  | cons f scope ih => rw [List.cons_append, find?_cons, find?_cons, ih, Option.or_assoc]

/-- The declaration found for an address is in force. -/
theorem inForce_of_byUri? {nearer : Scope} {accept : Declaration → Bool} (ho : scope.Owned)
    (hn : ∀ f ∈ scope, (f.declarations.map (·.short)).Nodup) (h : byUri? nearer uri accept scope = some d) :
    scope.InForce d ∧ visible nearer d = true := by
  induction scope generalizing nearer with
  | nil => cases h
  | cons f outer ih =>
    rw [byUri?] at h
    split at h
    · next hfound =>
      cases h
      have hp := List.find?_some hfound
      simp only [Bool.and_eq_true] at hp
      refine ⟨?_, hp.2⟩
      rcases List.mem_append.mp (List.mem_of_find?_eq_some hfound) with hm | hm
      · exact .inr (find?_of_mem (hn f List.mem_cons_self) hm)
      · split at hm
        · cases hm
        · exact ho.1 d (Option.mem_toList.mp hm)
    · obtain ⟨hforce, hv⟩ := ih ho.2 (fun g hg => hn g (List.mem_cons_of_mem _ hg)) h
      have hvisible : visible nearer d = true ∧ f.declares d.short = false := by
        simpa [visible, List.any_append] using hv
      refine ⟨hforce.imp_right fun hd => ?_, hvisible.1⟩
      rw [find?_cons_of_other, hd]
      intro x hx k
      have hdeclares : f.declares d.short = true := List.any_eq_true.mpr ⟨x, hx, beq_iff_eq.mpr k⟩
      rw [hvisible.2] at hdeclares
      cases hdeclares

/-- What is found within a scope is found there once more is declared on the outermost element. -/
theorem find?_extend {short : Option String} (hx : s.added <+: t.added)
    (hd : Scope.find? (around ++ [s.extend root]) short = some d) :
    Scope.find? (around ++ [t.extend root]) short = some d := by
  obtain ⟨more, hmore⟩ := hx
  rw [find?_append] at hd ⊢
  cases ha : around.find? short with
  | some x =>
    rw [ha, Option.some_or] at hd
    rw [Option.some_or, hd]
  | none =>
    rw [ha, Option.none_or, find?_cons] at hd
    rw [Option.none_or, find?_cons]
    have hroot : (s.extend root).declarations.find? (·.short == short) = some d := by simpa [find?] using hd
    have hlonger : (t.extend root).declarations = (s.extend root).declarations ++ more := by
      simp [Supply.extend, ← hmore]
    rw [hlonger, List.find?_append, hroot, Option.some_or, Option.some_or]

theorem InForce.extend (hx : s.added <+: t.added) (hd : Scope.InForce (around ++ [s.extend root]) d) :
    Scope.InForce (around ++ [t.extend root]) d :=
  hd.imp_right (find?_extend hx)

theorem Owned.extend (hx : s.added <+: t.added) (ho : Scope.Owned (around ++ [s.extend root])) :
    Scope.Owned (around ++ [t.extend root]) := by
  induction around with
  | nil =>
    refine ⟨fun d hd => ?_, trivial⟩
    have hforce : Scope.InForce ([] ++ [s.extend root]) d := ho.1 d hd
    exact hforce.extend hx
  | cons f around ih =>
    refine ⟨fun d hd => ?_, ih ho.2⟩
    have hforce : Scope.InForce (f :: around ++ [s.extend root]) d := ho.1 d hd
    exact hforce.extend hx

/-- Only prefixes are added on the outermost element. -/
theorem find?_none_extend (hs : ∀ x ∈ t.added, x.short.isSome = true)
    (hd : Scope.find? (around ++ [s.extend root]) none = none) :
    Scope.find? (around ++ [t.extend root]) none = none := by
  cases hf : Scope.find? (around ++ [t.extend root]) none with
  | none => rfl
  | some x =>
    obtain ⟨hshort, f, hmem, hx⟩ := find?_some hf
    have hnone := find?_eq_none hd
    exfalso
    rcases List.mem_append.mp hmem with hmem | hmem
    · exact hnone f (List.mem_append_left _ hmem) x hx hshort
    · rw [List.mem_singleton.mp hmem] at hx
      rcases List.mem_append.mp hx with hx | hx
      · exact hnone (s.extend root) (List.mem_append_right _ List.mem_cons_self) x (List.mem_append_left _ hx) hshort
      · have := hs x hx
        rw [hshort] at this
        cases this

end Scope

/-! ### What stands for the declarations around a place -/

/-- The scope that a place has now, beside the one that it had: what was in force there has been replaced
by what is. -/
structure Carries (ds : List Declaration) (so : Scope) (table : Replacements) (sn : Scope) : Prop where
  declared : ∀ f ∈ sn, ∀ d ∈ f.declarations, d ∈ ds
  distinct : ∀ f ∈ sn, (f.declarations.map (·.short)).Nodup
  owned : sn.Owned
  paired : ∀ p ∈ table, p.1 ∈ ds ∧ p.2.uri = p.1.uri ∧ ∃ f ∈ sn, p.2 ∈ f.declarations
  carried : ∀ d, so.find? d.short = some d → ∃ new, replacement? table false d = some new ∧
    sn.find? new.short = some new
  default : so.find? none = none → sn.find? none = none

/-- A replacement is one of those in the table. -/
theorem replacement?_some {new : Declaration} (h : replacement? table isAttr d = some new) :
    (d, new) ∈ table ∧ (isAttr = true → d.short.isSome = true → new.short.isSome = true) := by
  obtain ⟨⟨old, new⟩, hf, rfl⟩ := Option.map_eq_some_iff.mp h
  have hp := List.find?_some hf
  simp only [Bool.and_eq_true, beq_iff_eq, Bool.not_eq_true', Bool.and_eq_false_iff] at hp
  obtain ⟨rfl, hp⟩ := hp
  refine ⟨List.mem_of_find?_eq_some hf, fun ha hs => ?_⟩
  simpa [ha, hs] using hp

theorem replacement?_append (pairs table : Replacements) (isAttr : Bool) (d : Declaration) :
    replacement? (pairs ++ table) isAttr d = (replacement? pairs isAttr d).or (replacement? table isAttr d) := by
  unfold replacement?
  rw [List.find?_append]
  cases pairs.find? _ <;> rfl

/-- What replaces a declaration among those that a function replaces. -/
theorem replacement?_map {f : Declaration → Declaration} (l : List Declaration) (d : Declaration) :
    replacement? (l.map fun d => (d, f d)) false d = if d ∈ l then some (f d) else none := by
  induction l with
  | nil => rfl
  | cons x l ih =>
    unfold replacement? at ih ⊢
    rw [List.map_cons, List.find?_cons]
    by_cases hx : x = d
    · simp [hx]
    · have hd : ¬ d = x := fun k => hx k.symm
      simp only [beq_eq_false_iff_ne.mpr hx, Bool.false_and, List.mem_cons, hd, false_or]
      exact ih

/-- What replaces a declaration for attributes, if its first replacement has a prefix. -/
theorem replacement?_attr {new : Declaration} (h : replacement? table false d = some new)
    (hs : new.short.isSome = true) : replacement? table true d = some new := by
  induction table with
  | nil => cases h
  | cons p table ih =>
    unfold replacement? at h ih ⊢
    rw [List.find?_cons] at h ⊢
    by_cases hp : p.1 = d
    · have hnew : p.2 = new := by simpa [hp] using h
      simp [hp, hnew, hs]
    · simp only [beq_eq_false_iff_ne.mpr hp, Bool.false_and] at h ⊢
      exact ih h

theorem mem_kept {own : List Declaration} :
    d ∈ own.filter (fun d => (sn.declarationOf? d.uri).isNone) ↔ d ∈ own ∧ sn.declarationOf? d.uri = none := by
  rw [List.mem_filter, Option.isNone_iff_eq_none]

/-- What stands for the address of a declaration is in force. -/
theorem Carries.force (hc : Carries ds so table sn) (hl : d.Legible) (he : sn.declarationOf? d.uri = some e) :
    e.uri = d.uri ∧ sn.find? e.short = some e := by
  have huri := (Scope.byUri?_some he).1
  refine ⟨huri, (Scope.inForce_of_byUri? hc.owned hc.distinct he).1.resolve_left ?_⟩
  rintro rfl
  exact hl.uri_ne_xml huri.symm

section

variable (hu : Unmixed ds)

include hu

/-- A declaration that shares its address with another prefix is in force wherever it is around. -/
theorem Carries.firm (hc : Carries ds so table sn) (hd : d ∈ ds) (huri : d.uri = e.uri) (hne : d.short ≠ e.short)
    {f : Frame} (hf : f ∈ sn) (he : e ∈ f.declarations) : sn.find? e.short = some e := by
  obtain ⟨x, hx⟩ := Scope.find?_isSome hf he
  obtain ⟨hshort, g, hg, hm⟩ := Scope.find?_some hx
  have hsame := hu.eq (hc.declared f hf e he) hd huri hne (hc.declared g hg x hm) hshort
  rw [hx, hsame]

/-- What a declaration has been replaced by stays in force within an element, if the element keeps no other
declaration of their prefix. -/
theorem Carries.find?_kept (hc : Carries ds so table sn) {own : List Declaration} (hd : ∀ d ∈ own, d ∈ ds)
    (hmem : d ∈ ds) (huri : e.uri = d.uri) (hforced : sn.find? e.short = some e)
    (hother : d.short = e.short → ∀ x ∈ own, sn.declarationOf? x.uri = none → x.short ≠ e.short) :
    Scope.find? (⟨own.filter fun d => (sn.declarationOf? d.uri).isNone, none⟩ :: sn) e.short = some e := by
  obtain ⟨-, f, hf, hfe⟩ := Scope.find?_some hforced
  refine Scope.find?_cons_of_same hforced fun x hx hs => ?_
  obtain ⟨hx, hnone⟩ := mem_kept.mp hx
  by_cases hshort : d.short = e.short
  · exact absurd hs (hother hshort x hx hnone)
  · exact hu.eq (hc.declared f hf e hfe) hmem huri.symm hshort (hd x hx) hs

variable (hl : ∀ d ∈ ds, d.Legible)

include hl

/-- An element's own declaration is kept, or what stands for its address is in force. -/
theorem Carries.carried_own (hc : Carries ds so table sn) {own : List Declaration} (hd : ∀ d ∈ own, d ∈ ds)
    (hn : (own.map (·.short)).Nodup) (hm : d ∈ own) (he : (sn.declarationOf? d.uri).getD d = e) :
    Scope.find? (⟨own.filter fun d => (sn.declarationOf? d.uri).isNone, none⟩ :: sn) e.short = some e := by
  cases hof : sn.declarationOf? d.uri with
  | none =>
    rw [hof, Option.getD_none] at he
    subst he
    exact Scope.find?_of_mem (hn.sublist (List.filter_sublist.map _)) (mem_kept.mpr ⟨hm, hof⟩)
  | some x =>
    rw [hof, Option.getD_some] at he
    subst he
    obtain ⟨huri, hforced⟩ := hc.force (hl d (hd d hm)) hof
    refine hc.find?_kept hu hd (hd d hm) huri hforced fun hshort y hy hnone hs => ?_
    obtain rfl := List.inj_on_of_nodup_map hn hy hm (hs.trans hshort.symm)
    rw [hnone] at hof
    cases hof

/-- Inside an element the declarations that it keeps are around as well. -/
theorem Carries.enter (hc : Carries ds so table sn) {own : List Declaration} (hd : ∀ d ∈ own, d ∈ ds)
    (hn : (own.map (·.short)).Nodup) (space : Option Declaration) :
    Carries ds (⟨own, space⟩ :: so) ((own.map fun d => (d, (sn.declarationOf? d.uri).getD d)) ++ table)
      (⟨own.filter fun d => (sn.declarationOf? d.uri).isNone, none⟩ :: sn) := by
  refine ⟨?_, ?_, ⟨nofun, hc.owned⟩, ?_, ?_, ?_⟩
  · intro f hf x hx
    rcases List.mem_cons.mp hf with rfl | hf
    · exact hd x (mem_kept.mp hx).1
    · exact hc.declared f hf x hx
  · intro f hf
    rcases List.mem_cons.mp hf with rfl | hf
    · exact hn.sublist (List.filter_sublist.map _)
    · exact hc.distinct f hf
  · intro p hp
    rcases List.mem_append.mp hp with hp | hp
    · obtain ⟨x, hx, rfl⟩ := List.mem_map.mp hp
      dsimp only
      cases he : sn.declarationOf? x.uri with
      | none => exact ⟨hd x hx, rfl, _, List.mem_cons_self, mem_kept.mpr ⟨hx, he⟩⟩
      | some e =>
        obtain ⟨huri, hforced⟩ := hc.force (hl x (hd x hx)) he
        obtain ⟨-, f, hf, hm⟩ := Scope.find?_some hforced
        exact ⟨hd x hx, huri, f, List.mem_cons_of_mem _ hf, hm⟩
    · obtain ⟨hmem, huri, f, hf, hm⟩ := hc.paired p hp
      exact ⟨hmem, huri, f, List.mem_cons_of_mem _ hf, hm⟩
  · intro d hfind
    rw [replacement?_append, replacement?_map]
    by_cases hm : d ∈ own
    · rw [if_pos hm, Option.some_or]
      exact ⟨_, rfl, hc.carried_own hu hl hd hn hm rfl⟩
    · rw [if_neg hm, Option.none_or]
      have hother : ∀ x ∈ own, x.short ≠ d.short := by
        intro x hx k
        have hx' : Scope.find? (⟨own, space⟩ :: so) x.short = some x := Scope.find?_of_mem hn hx
        rw [k, hfind] at hx'
        cases hx'
        exact hm hx
      rw [Scope.find?_cons_of_other hother] at hfind
      obtain ⟨new, hnew, hforced⟩ := hc.carried d hfind
      obtain ⟨hmem, huri, -⟩ := hc.paired _ (replacement?_some hnew).1
      exact ⟨new, hnew, hc.find?_kept hu hd hmem huri hforced fun hshort x hx _ hs => hother x hx (hs.trans hshort.symm)⟩
  · intro hnone
    have hother : ∀ x ∈ own, x.short ≠ none := fun x hx =>
      Scope.find?_eq_none hnone ⟨own, space⟩ List.mem_cons_self x hx
    rw [Scope.find?_cons_of_other hother] at hnone
    rw [Scope.find?_cons_of_other fun x hx => hother x (mem_kept.mp hx).1, hc.default hnone]

end

/-! ### Names -/

/-- Whether a name is bound to what its prefix stands for within a scope. -/
structure Name.Meant (scope : Scope) (isAttr : Bool) (n : Name) : Prop where
  space : ∀ d, n.space = some d → scope.InForce d ∧ (isAttr = true → d.short.isSome = true)
  default : isAttr = false → n.space = none → scope.find? none = none

theorem Name.Meant.extend (hn : n.Meant (around ++ [s.extend root]) isAttr) (hx : s.added <+: t.added)
    (hs : ∀ d ∈ t.added, d.short.isSome = true) : n.Meant (around ++ [t.extend root]) isAttr :=
  ⟨fun d hd => ⟨(hn.space d hd).1.extend hx, (hn.space d hd).2⟩,
    fun ha hd => Scope.find?_none_extend hs (hn.default ha hd)⟩

/-- What relocation has come to at a place. -/
structure Moving (ds : List Declaration) (so : Scope) (root : Frame) (around : Scope) (table : Replacements)
    (s : Supply) : Prop extends Carries ds so table (around ++ [s.extend root]) where
  added : ∀ d ∈ s.added, d.short.isSome = true

theorem Moving.extend (hm : Moving ds so root around table s) (hx : s.added <+: t.added)
    (hd : ∀ d ∈ (t.extend root).declarations, d ∈ ds) (hn : ((t.extend root).declarations.map (·.short)).Nodup)
    (hs : ∀ d ∈ t.added, d.short.isSome = true) : Moving ds so root around table t := by
  refine ⟨⟨?_, ?_, hm.owned.extend hx, ?_, ?_, ?_⟩, hs⟩
  · intro f hf x hm'
    rcases List.mem_append.mp hf with hf | hf
    · exact hm.declared f (List.mem_append_left _ hf) x hm'
    · rw [List.mem_singleton.mp hf] at hm'
      exact hd x hm'
  · intro f hf
    rcases List.mem_append.mp hf with hf | hf
    · exact hm.distinct f (List.mem_append_left _ hf)
    · rw [List.mem_singleton.mp hf]
      exact hn
  · intro p hp
    obtain ⟨hmem, huri, f, hf, hf'⟩ := hm.paired p hp
    obtain ⟨g, hg, hg'⟩ := within_extend hx f hf p.2 hf'
    exact ⟨hmem, huri, g, hg, hg'⟩
  · intro d hfind
    obtain ⟨new, hnew, hforced⟩ := hm.carried d hfind
    exact ⟨new, hnew, Scope.find?_extend hx hforced⟩
  · intro hnone
    exact Scope.find?_none_extend hs (hm.default hnone)

/-- A new prefix may be declared on the outermost element. -/
theorem Moving.add (hm : Moving ds so root around table s) (hd : d ∈ ds) (hs : d.short.isSome = true)
    (hfree : ∀ x ∈ (s.extend root).declarations, x.short ≠ d.short) (counter : Nat) :
    Moving ds so root around table ⟨s.added ++ [d], counter⟩ := by
  have hroot : s.extend root ∈ around ++ [s.extend root] := List.mem_append_right _ List.mem_cons_self
  have hlonger : ((⟨s.added ++ [d], counter⟩ : Supply).extend root).declarations =
      (s.extend root).declarations ++ [d] := by
    simp [Supply.extend]
  refine hm.extend (List.prefix_append ..) ?_ ?_ ?_
  · rw [hlonger]
    intro x hx
    rcases List.mem_append.mp hx with hx | hx
    · exact hm.declared _ hroot x hx
    · rwa [List.mem_singleton.mp hx]
  · rw [hlonger, List.map_append]
    refine List.nodup_append.mpr ⟨hm.distinct _ hroot, List.nodup_singleton _, ?_⟩
    intro x hx y hy k
    obtain ⟨z, hz, rfl⟩ := List.mem_map.mp hx
    rw [List.mem_singleton.mp hy] at k
    exact hfree z hz k
  · intro x hx
    rcases List.mem_append.mp hx with hx | hx
    · exact hm.added x hx
    · rwa [List.mem_singleton.mp hx]

theorem Scope.Owned.last {f : Frame} (ho : Scope.Owned (around ++ [f])) : Scope.Owned [f] := by
  induction around with
  | nil => exact ho
  | cons g around ih => exact ih ho.2

/-- An attribute whose declaration has no replacement has the address of a default declaration. -/
theorem Moving.exists_default (hm : Moving ds so root around table s) (hd : so.find? d.short = some d)
    (hnone : replacement? table true d = none) : d ∈ ds ∧ ∃ new ∈ ds, new.uri = d.uri ∧ new.short = none := by
  obtain ⟨new, hnew, -⟩ := hm.carried d hd
  obtain ⟨hmem, huri, f, hf, hfm⟩ := hm.paired _ (replacement?_some hnew).1
  refine ⟨hmem, new, hm.declared f hf new hfm, huri, ?_⟩
  by_contra k
  have hattr := replacement?_attr hnew (Option.isSome_iff_ne_none.mpr k)
  rw [hnone] at hattr
  cases hattr

theorem ne_of_default {new : Declaration} (hnew : new.short = none) (hs : d.short.isSome = true) : new.short ≠ d.short := by
  intro k
  rw [← k, hnew] at hs
  cases hs

section

variable (hu : Unmixed ds) (hl : ∀ d ∈ ds, d.Legible)

include hl

/-- What is in force for an address on the outermost element is declared there. -/
theorem Moving.mem_of_inForce? (hm : Moving ds so root around table s) (hmem : d ∈ ds)
    (h : Scope.inForce? [s.extend root] isAttr d.uri = some e) : e ∈ (s.extend root).declarations := by
  obtain ⟨huri, -, hwhere⟩ := Scope.inForce?_some h
  have hxml : e ≠ .xml := by
    rintro rfl
    exact (hl d hmem).uri_ne_xml huri.symm
  obtain ⟨g, hg, hin⟩ := hwhere.resolve_left hxml
  rw [List.mem_singleton.mp hg] at hin
  rcases hin with hin | hspace
  · exact hin
  · obtain ⟨-, g, hg, hin⟩ := Scope.find?_some ((hm.owned.last.1 e hspace).resolve_left hxml)
    rwa [List.mem_singleton.mp hg] at hin

include hu

/-- Without a prefix in force for its address, the outermost element does not declare the prefix of `d`. -/
theorem Moving.ne_of_inForce?_none {new : Declaration} (hm : Moving ds so root around table s) (hmem : d ∈ ds)
    (hnew : new ∈ ds) (huri : new.uri = d.uri) (hne : new.short ≠ d.short) (hs : d.short.isSome = true)
    (h : Scope.inForce? [s.extend root] true d.uri = none) : ∀ x ∈ (s.extend root).declarations, x.short ≠ d.short := by
  intro x hx k
  have hroot : s.extend root ∈ around ++ [s.extend root] := List.mem_append_right _ List.mem_cons_self
  obtain rfl := hu.eq hmem hnew huri hne (hm.declared _ hroot x hx) k
  have hany : Scope.byUri? [] x.uri (·.short.isSome) [s.extend root] ≠ none := by
    rw [Scope.byUri?]
    split
    · exact Option.some_ne_none _
    · next hno =>
      have := List.find?_eq_none.mp hno x (List.mem_append_left _ hx)
      simp [Scope.visible, hs] at this
  refine hany ?_
  simpa [Scope.inForce?, Scope.prefixedFor?, (hl x hmem).uri_ne_xml] using h

/-- What an attribute goes by on the outermost element, where its address has no prefix around it. Its address is
that of a default declaration, so its prefixes stand for nothing else. -/
theorem Moving.binding (hm : Moving ds so root around table s) (hd : so.find? d.short = some d)
    (hs : d.short.isSome = true) (hnone : replacement? table true d = none) {isNew : Bool} {counter : Nat}
    (h : Scope.bindingFor [s.extend root] true d.uri d.short s.counter = (e, isNew, counter)) :
    isNew = false ∧ e.uri = d.uri ∧ e.short.isSome = true ∧ Scope.find? (around ++ [s.extend root]) e.short = some e ∨
      isNew = true ∧ e = d ∧ (∀ x ∈ (s.extend root).declarations, x.short ≠ d.short) ∧ d ∈ ds ∧
        ∃ d₁ ∈ ds, d₁.uri = d.uri ∧ d₁.short ≠ d.short := by
  have hroot : s.extend root ∈ around ++ [s.extend root] := List.mem_append_right _ List.mem_cons_self
  obtain ⟨hmem, new, hnewmem, huri, hshort⟩ := hm.exists_default hd hnone
  unfold Scope.bindingFor at h
  split at h
  · next found hfound =>
    cases h
    obtain ⟨hfu, hfs, -⟩ := Scope.inForce?_some hfound
    refine .inl ⟨rfl, hfu, hfs rfl, ?_⟩
    exact hm.firm hu hnewmem (huri.trans hfu.symm) (ne_of_default hshort (hfs rfl)) hroot (hm.mem_of_inForce? hl hmem hfound)
  · next hfound =>
    have hne := ne_of_default hshort hs
    have hfree := hm.ne_of_inForce?_none hu hl hmem hnewmem huri hne hs hfound
    obtain ⟨short, hd'⟩ := Option.isSome_iff_exists.mp hs
    have hfilter : ((d.short.or (customaryPrefix? d.uri)).filter fun short =>
        (Scope.find? [s.extend root] (some short)).isNone && short ≠ "xml") = some short := by
      rw [hd', Option.some_or, Option.filter_eq_some_iff]
      refine ⟨rfl, ?_⟩
      have hfind : Scope.find? [s.extend root] (some short) = none := by
        rw [← hd', Scope.find?_cons_of_other hfree]
        rfl
      simp [hfind, ((hl d hmem).isName_short hd').2.1]
    rw [hfilter] at h
    cases h
    exact .inr ⟨rfl, Declaration.eq_of hd'.symm rfl, hfree, hmem, new, hnewmem, huri, hne⟩

/-- What stands for a declaration in a table is in force where the declaration was. -/
theorem Moving.replaced {new : Declaration} (hm : Moving ds so root around table s) (hforce : so.InForce d)
    (hnew : replacement? table isAttr d = some new) :
    new.uri = d.uri ∧ Scope.find? (around ++ [s.extend root]) new.short = some new := by
  obtain ⟨hold, huri, f, hf, hfm⟩ := hm.paired _ (replacement?_some hnew).1
  dsimp only at hold huri hfm
  refine ⟨huri, ?_⟩
  have hfind := hforce.resolve_left fun k => (hl d hold).uri_ne_xml (congrArg Declaration.uri k)
  obtain ⟨first, hfirst, hforced⟩ := hm.carried d hfind
  obtain ⟨-, huri', g, hg, hgm⟩ := hm.paired _ (replacement?_some hfirst).1
  dsimp only at huri' hgm
  by_cases hsame : first.short = new.short
  · obtain rfl : first = new := Declaration.eq_of hsame (huri'.trans huri.symm)
    exact hforced
  · exact hm.firm hu (hm.declared g hg first hgm) (huri'.trans huri.symm) hsame hf hfm

/-- An attribute whose declaration is out of reach gets one on the outermost element. -/
theorem Moving.supplied (hm : Moving ds so root around table s) (hfind : so.find? d.short = some d)
    (hs : d.short.isSome = true) (hnone : replacement? table true d = none) {isNew : Bool} {counter : Nat}
    (h : Scope.bindingFor [s.extend root] true d.uri d.short s.counter = (e, isNew, counter)) {s' : Supply}
    (hs' : s' = ⟨if isNew then s.added ++ [e] else s.added, counter⟩) :
    e.uri = d.uri ∧ e.short.isSome = true ∧ Scope.find? (around ++ [s'.extend root]) e.short = some e ∧
      Moving ds so root around table s' ∧ s.added <+: s'.added := by
  have hroot : ∀ {t : Supply}, t.extend root ∈ around ++ [t.extend root] := List.mem_append_right _ List.mem_cons_self
  subst hs'
  rcases hm.binding hu hl hfind hs hnone h with ⟨rfl, huri, hes, hforced⟩ | ⟨rfl, rfl, hfree, hmem, d₁, hd₁, huri, hne⟩
  · have hm' := hm.extend (t := ⟨s.added, counter⟩) (List.prefix_refl _) (hm.declared _ hroot) (hm.distinct _ hroot) hm.added
    exact ⟨huri, hes, hforced, hm', List.prefix_refl _⟩
  · have hm' := hm.add hmem hs hfree counter
    have hin : e ∈ ((⟨s.added ++ [e], counter⟩ : Supply).extend root).declarations :=
      List.mem_append_right _ (List.mem_append_right _ List.mem_cons_self)
    exact ⟨rfl, hs, hm'.firm hu hd₁ huri hne hroot hin, hm', List.prefix_append ..⟩

/-- A name that has been relocated is bound to what is in force where it stands. -/
theorem relocateName_meant (hm : Moving ds so root around table s) (hn : n.Meant so isAttr) {n' : Name} {s' : Supply}
    (h : relocateName root table s isAttr n = (n', s')) :
    (n'.uri = n.uri ∧ n'.base = n.base) ∧ n'.Meant (around ++ [s'.extend root]) isAttr ∧
      Moving ds so root around table s' ∧ s.added <+: s'.added := by
  obtain ⟨space, base⟩ := n
  unfold relocateName at h
  cases space with
  | none =>
    cases h
    exact ⟨⟨rfl, rfl⟩, ⟨nofun, fun ha _ => hm.default (hn.default ha rfl)⟩, hm, List.prefix_refl _⟩
  | some d =>
    obtain ⟨hforce, hshort⟩ := hn.space d rfl
    dsimp only at h
    split at h
    · next new hnew =>
      cases h
      obtain ⟨huri, hforced⟩ := hm.replaced hu hl hforce hnew
      refine ⟨⟨congrArg some huri, rfl⟩, ⟨fun e he => ?_, fun _ => nofun⟩, hm, List.prefix_refl _⟩
      cases he
      exact ⟨.inr hforced, fun ha => (replacement?_some hnew).2 ha (hshort ha)⟩
    · next hnone =>
      rcases hforce with rfl | hfind
      · have hb : Scope.bindingFor [s.extend root] isAttr Declaration.xml.uri Declaration.xml.short s.counter =
            (.xml, false, s.counter) := by
          simp [Scope.bindingFor, Scope.inForce?, Scope.prefixedFor?, Declaration.xml]
        rw [hb] at h
        cases h
        refine ⟨⟨rfl, rfl⟩, ⟨fun e he => ?_, fun _ => nofun⟩, hm, List.prefix_refl _⟩
        cases he
        exact ⟨.inl rfl, fun _ => rfl⟩
      · cases isAttr with
        | false =>
          obtain ⟨new, hnew, -⟩ := hm.carried d hfind
          rw [hnew] at hnone
          cases hnone
        | true =>
          rcases hb : Scope.bindingFor [s.extend root] true d.uri d.short s.counter with ⟨e, isNew, counter⟩
          rw [hb] at h
          cases h
          obtain ⟨huri, hes, hforced, hm', hx⟩ := hm.supplied hu hl hfind (hshort rfl) hnone hb rfl
          refine ⟨⟨congrArg some huri, rfl⟩, ⟨fun x hx => ?_, fun _ => nofun⟩, hm', hx⟩
          cases hx
          exact ⟨.inr hforced, fun _ => hes⟩

end

/-! ### Start tags -/

/-- Whether the names of a start tag are bound to what their prefixes stand for within a scope, the tag's own
declarations included, and its attributes are different ones. -/
structure Head.Meant (scope : Scope) (h : Head) : Prop where
  name : h.name.Meant scope false
  attrs : ∀ a ∈ h.attrs, a.name.Meant scope true
  apart : (h.attrs.map fun a => (a.name.uri, a.name.base)).Nodup

theorem Head.Meant.extend (hh : h.Meant (around ++ [s.extend root])) (hx : s.added <+: t.added)
    (hs : ∀ d ∈ t.added, d.short.isSome = true) : h.Meant (around ++ [t.extend root]) :=
  ⟨hh.name.extend hx hs, fun a ha => (hh.attrs a ha).extend hx hs, hh.apart⟩

theorem Name.Meant.congr (hn : n.Meant scope isAttr) (hs : ∀ short, scope.find? short = scope'.find? short) :
    n.Meant scope' isAttr := by
  refine ⟨fun d hd => ⟨(hn.space d hd).1.imp_right fun k => ?_, (hn.space d hd).2⟩, fun ha hd => ?_⟩
  · rw [← hs, k]
  · rw [← hs, hn.default ha hd]

/-- Inside an element its own name is in force. -/
theorem Moving.named {own : List Declaration} {space : Option Declaration}
    (hm : Moving ds so root (⟨own, none⟩ :: around) table s)
    (hd : ∀ d, space = some d → Scope.InForce (⟨own, none⟩ :: around ++ [s.extend root]) d) :
    Moving ds so root (⟨own, space⟩ :: around) table s := by
  refine ⟨⟨?_, ?_, ⟨hd, hm.owned.2⟩, ?_, hm.carried, hm.default⟩, hm.added⟩
  · intro f hf
    rcases List.mem_cons.mp hf with rfl | hf
    · exact hm.declared ⟨own, none⟩ List.mem_cons_self
    · exact hm.declared f (List.mem_cons_of_mem _ hf)
  · intro f hf
    rcases List.mem_cons.mp hf with rfl | hf
    · exact hm.distinct ⟨own, none⟩ List.mem_cons_self
    · exact hm.distinct f (List.mem_cons_of_mem _ hf)
  · intro p hp
    obtain ⟨hmem, huri, f, hf, hf'⟩ := hm.paired p hp
    obtain ⟨g, hg, hg'⟩ := Scope.Within.named f hf p.2 hf'
    exact ⟨hmem, huri, g, hg, hg'⟩

section

variable (hu : Unmixed ds) (hl : ∀ d ∈ ds, d.Legible)

include hu hl

theorem relocateAttrs_meant {attrs attrs' : List Attr} {s' : Supply} (hm : Moving ds so root around table s)
    (ha : ∀ a ∈ attrs, a.name.Meant so true) (h : relocateAttrs root table s attrs = (attrs', s')) :
    (attrs'.map fun a => (a.name.uri, a.name.base)) = (attrs.map fun a => (a.name.uri, a.name.base)) ∧
      (∀ a ∈ attrs', a.name.Meant (around ++ [s'.extend root]) true) ∧
      Moving ds so root around table s' ∧ s.added <+: s'.added := by
  induction attrs generalizing attrs' s with
  | nil =>
    cases h
    exact ⟨rfl, nofun, hm, List.prefix_refl _⟩
  | cons a attrs ih =>
    rw [relocateAttrs] at h
    rcases hn : relocateName root table s true a.name with ⟨name, s₁⟩
    rcases hr : relocateAttrs root table s₁ attrs with ⟨rest, s₂⟩
    rw [hn] at h
    dsimp only at h
    rw [hr] at h
    cases h
    obtain ⟨⟨huri, hbase⟩, hmeant, hm₁, hx₁⟩ := relocateName_meant hu hl hm (ha a List.mem_cons_self) hn
    obtain ⟨hsame, hall, hm₂, hx₂⟩ := ih hm₁ (fun b hb => ha b (List.mem_cons_of_mem _ hb)) hr
    refine ⟨by rw [List.map_cons, List.map_cons, hsame, huri, hbase], ?_, hm₂, hx₁.trans hx₂⟩
    intro b hb
    rcases List.mem_cons.mp hb with rfl | hb
    · exact hmeant.extend hx₂ hm₂.added
    · exact hall b hb

/-- A start tag that has been relocated is bound to what is in force where it stands. -/
theorem relocateHead_meant {h' : Head} {table' : Replacements} {s' : Supply} (hm : Moving ds so root around table s)
    (hd : ∀ d ∈ h.declarations, d ∈ ds) (hn : (h.declarations.map (·.short)).Nodup) (hh : h.Meant (h.frame :: so))
    (h₀ : relocateHead root around table s h = (h', table', s')) :
    h'.Meant (h'.frame :: (around ++ [s'.extend root])) ∧ Moving ds (h.frame :: so) root (h'.frame :: around) table' s' ∧
      s.added <+: s'.added := by
  unfold relocateHead at h₀
  dsimp only at h₀
  let kept := h.declarations.filter fun d => ((around ++ [s.extend root]).declarationOf? d.uri).isNone
  let pairs := h.declarations.map fun d => (d, ((around ++ [s.extend root]).declarationOf? d.uri).getD d)
  have hinner : Moving ds (h.frame :: so) root (⟨kept, none⟩ :: around) (pairs ++ table) s :=
    ⟨hm.toCarries.enter hu hl hd hn h.name.space, hm.added⟩
  rcases hname : relocateName root (pairs ++ table) s false h.name with ⟨name, s₁⟩
  rw [hname] at h₀
  dsimp only at h₀
  rcases hattrs : relocateAttrs root (pairs ++ table) s₁ h.attrs with ⟨attrs, s₂⟩
  rw [hattrs] at h₀
  cases h₀
  obtain ⟨-, hmeant, hm₁, hx₁⟩ := relocateName_meant hu hl hinner hh.name hname
  obtain ⟨hsame, hall, hm₂, hx₂⟩ := relocateAttrs_meant hu hl hm₁ hh.attrs hattrs
  have hmeant₂ := hmeant.extend hx₂ hm₂.added
  have hframe : ∀ short, Scope.find? (⟨kept, none⟩ :: around ++ [s₂.extend root]) short =
      Scope.find? (⟨kept, name.space⟩ :: (around ++ [s₂.extend root])) short := fun _ => rfl
  refine ⟨⟨hmeant₂.congr hframe, fun a ha => (hall a ha).congr hframe, ?_⟩, ?_, hx₁.trans hx₂⟩
  · change (attrs.map fun a => (a.name.uri, a.name.base)).Nodup
    rw [hsame]
    exact hh.apart
  · exact hm₂.named fun d hd => (hmeant₂.space d hd).1

end

/-! ### Content -/

namespace Content

/-- Whether all names in the content are bound to what their prefixes stand for, within a scope. -/
def Meant (scope : Scope) : Content ι → Prop
  | .nil => True
  | .leaf _ rest => rest.Meant scope
  | .element _ h inner rest =>
    h.Meant (h.frame :: scope) ∧ inner.Meant (h.frame :: scope) ∧ rest.Meant scope

theorem Meant.extend (hc : c.Meant (around ++ [s.extend root])) (hx : s.added <+: t.added)
    (hs : ∀ d ∈ t.added, d.short.isSome = true) : c.Meant (around ++ [t.extend root]) := by
  induction c generalizing around with
  | nil => trivial
  | leaf l rest ih => exact ih hc
  | element id h inner rest ihi ihr =>
    obtain ⟨hh, hi, hr⟩ := hc
    rw [← List.cons_append] at hh hi
    exact ⟨hh.extend hx hs, ihi hi, ihr hr⟩

/-- Names in content that has been relocated are bound to what is in force where they stand, then or once more
is declared on the outermost element. -/
theorem relocate_meant (hu : Unmixed ds) (hl : ∀ d ∈ ds, d.Legible) {c' : Content ι} {s' : Supply}
    (hm : Moving ds so root around table s) (hd : ∀ x ∈ c.elements, ∀ d ∈ x.head.declarations, d ∈ ds)
    (hn : ∀ x ∈ c.elements, (x.head.declarations.map (·.short)).Nodup) (hc : c.Meant so)
    (h : c.relocate root around table s = (c', s')) :
    c'.Meant (around ++ [s'.extend root]) ∧ (∀ x ∈ c'.elements, ∀ d ∈ x.head.declarations, d ∈ ds) ∧
      Moving ds so root around table s' ∧ s.added <+: s'.added := by
  induction c generalizing so around table s c' s' with
  | nil =>
    cases h
    exact ⟨trivial, nofun, hm, List.prefix_refl _⟩
  | leaf l rest ih =>
    rw [relocate] at h
    rcases hr : rest.relocate root around table s with ⟨rest', s₁⟩
    rw [hr] at h
    cases h
    obtain ⟨hmeant, hmoving⟩ := ih hm hd hn hc hr
    exact ⟨hmeant, hmoving⟩
  | element id head inner rest ihi ihr =>
    rw [relocate] at h
    rcases hh : relocateHead root around table s head with ⟨head', table', s₁⟩
    rw [hh] at h
    dsimp only at h
    rcases hi : inner.relocate root (head'.frame :: around) table' s₁ with ⟨inner', s₂⟩
    rw [hi] at h
    dsimp only at h
    rcases hr : rest.relocate root around table s₂ with ⟨rest', s₃⟩
    rw [hr] at h
    cases h
    have hself : (⟨id, head, inner⟩ : Element ι) ∈ (Content.element id head inner rest).elements := List.mem_cons_self
    have hin : ∀ x ∈ inner.elements, x ∈ (Content.element id head inner rest).elements := fun x hx =>
      List.mem_cons_of_mem _ (List.mem_append_left _ hx)
    have hre : ∀ x ∈ rest.elements, x ∈ (Content.element id head inner rest).elements := fun x hx =>
      List.mem_cons_of_mem _ (List.mem_append_right _ hx)
    obtain ⟨hmeant, hm₁, hx₁⟩ := relocateHead_meant hu hl hm (hd _ hself) (hn _ hself) hc.1 hh
    obtain ⟨hmi, hdi, hm₂, hx₂⟩ := ihi hm₁ (fun x hx => hd x (hin x hx)) (fun x hx => hn x (hin x hx)) hc.2.1 hi
    have hroot : s₂.extend root ∈ head'.frame :: around ++ [s₂.extend root] :=
      List.mem_append_right _ List.mem_cons_self
    have hm' : Moving ds so root around table s₂ :=
      hm.extend (hx₁.trans hx₂) (hm₂.declared _ hroot) (hm₂.distinct _ hroot) hm₂.added
    obtain ⟨hmr, hdr, hm₃, hx₃⟩ := ihr hm' (fun x hx => hd x (hre x hx)) (fun x hx => hn x (hre x hx)) hc.2.2 hr
    refine ⟨⟨?_, ?_, hmr⟩, ?_, hm₃, (hx₁.trans hx₂).trans hx₃⟩
    · rw [← List.cons_append] at hmeant
      exact hmeant.extend (hx₂.trans hx₃) hm₃.added
    · exact hmi.extend hx₃ hm₃.added
    · intro x hx
      rcases List.mem_cons.mp hx with rfl | hx
      · exact hm₁.declared head'.frame List.mem_cons_self
      · exact (List.mem_append.mp hx).elim (hdi x) (hdr x)

end Content

/-! ### Declarations that nothing uses -/

theorem Head.uses_attr {a : Attr} (ha : a ∈ h.attrs) (hd : a.name.space = some d) : h.uses d = true := by
  have hany : h.attrs.any (·.name.space == some d) = true := List.any_eq_true.mpr ⟨a, ha, by simp [hd]⟩
  simp [uses, hany]

/-- What a place uses is in force there without the declarations that nothing uses. -/
theorem Head.find?_prune {keep : List String} {inner : Content ι} (hn : (h.declarations.map (·.short)).Nodup)
    (hd : Scope.find? (h.frame :: scope) d.short = some d) (hu : h.uses d = true ∨ inner.uses d = true)
    (hs : d ∉ h.declarations → scope.find? d.short = some d → scope'.find? d.short = some d) :
    Scope.find? ((h.prune keep inner).frame :: scope') d.short = some d := by
  have hsub : (h.prune keep inner).declarations.Sublist h.declarations := List.filter_sublist
  by_cases hm : d ∈ h.declarations
  · exact Scope.find?_of_mem (hn.sublist (hsub.map _)) (mem_prune hm hu)
  · have hother : ∀ x ∈ h.declarations, x.short ≠ d.short := by
      intro x hx k
      have hfound : Scope.find? (h.frame :: scope) x.short = some x := Scope.find?_of_mem hn hx
      rw [k, hd] at hfound
      cases hfound
      exact hm hx
    rw [Scope.find?_cons_of_other hother] at hd
    rw [Scope.find?_cons_of_other fun x hx => hother x (hsub.subset hx), hs hm hd]

theorem Head.find?_prune_none {keep : List String} {inner : Content ι}
    (hd : Scope.find? (h.frame :: scope) none = none) (hs : scope.find? none = none → scope'.find? none = none) :
    Scope.find? ((h.prune keep inner).frame :: scope') none = none := by
  have hother : ∀ x ∈ h.declarations, x.short ≠ none := Scope.find?_eq_none hd h.frame List.mem_cons_self
  rw [Scope.find?_cons_of_other hother] at hd
  rw [Scope.find?_cons_of_other fun x hx => hother x (List.mem_filter.mp hx).1, hs hd]

theorem Head.prune_meant {keep : List String} {inner : Content ι} (hn : (h.declarations.map (·.short)).Nodup)
    (hh : h.Meant (h.frame :: scope))
    (hs : ∀ d, d ∉ h.declarations → h.uses d = true → scope.find? d.short = some d → scope'.find? d.short = some d)
    (hnone : scope.find? none = none → scope'.find? none = none) :
    (h.prune keep inner).Meant ((h.prune keep inner).frame :: scope') := by
  have hforce : ∀ d, h.uses d = true → Scope.InForce (h.frame :: scope) d →
      Scope.InForce ((h.prune keep inner).frame :: scope') d := fun d hu hd =>
    hd.imp_right fun hd => find?_prune hn hd (.inl hu) fun hm => hs d hm hu
  refine ⟨⟨fun d hd => ?_, fun ha hd => ?_⟩, fun a ha => ⟨fun d hd => ?_, fun k => by cases k⟩, hh.apart⟩
  · have hu : h.uses d = true := by
      have hname : h.name.space = some d := hd
      simp [uses, hname]
    exact ⟨hforce d hu (hh.name.space d hd).1, fun k => by cases k⟩
  · exact find?_prune_none (hh.name.default ha hd) hnone
  · obtain ⟨hd', hshort⟩ := (hh.attrs a ha).space d hd
    exact ⟨hforce d (uses_attr ha hd) hd', hshort⟩

namespace Content

theorem prune_meant {keep : List String} (hn : ∀ x ∈ c.elements, (x.head.declarations.map (·.short)).Nodup)
    (hc : c.Meant scope) (hs : ∀ d, c.uses d = true → scope.find? d.short = some d → scope'.find? d.short = some d)
    (hnone : scope.find? none = none → scope'.find? none = none) : (c.prune keep).Meant scope' := by
  induction c generalizing scope scope' with
  | nil => trivial
  | leaf l rest ih => exact ih hn hc hs hnone
  | element id h inner rest ihi ihr =>
    have hself := hn ⟨id, h, inner⟩ List.mem_cons_self
    refine ⟨?_, ihi ?_ hc.2.1 ?_ ?_, ihr ?_ hc.2.2 ?_ hnone⟩
    · exact Head.prune_meant hself hc.1 (fun d hm hu => hs d (by simp [uses, hm, hu])) hnone
    · exact fun x hx => hn x (List.mem_cons_of_mem _ (List.mem_append_left _ hx))
    · exact fun d hu hd => Head.find?_prune hself hd (.inr hu) fun hm => hs d (by simp [uses, hm, hu])
    · exact fun hd => Head.find?_prune_none hd hnone
    · exact fun x hx => hn x (List.mem_cons_of_mem _ (List.mem_append_right _ hx))
    · exact fun d hu => hs d (by simp [uses, hu])

end Content

/-! ### Names that are written and read -/

/-- Whether no declaration of a scope takes a namespace away. -/
def Scope.Filled (scope : Scope) : Prop := ∀ f ∈ scope, ∀ d ∈ f.declarations, d.Legible ∧ d.uri ≠ ""

theorem Scope.Filled.cons {f : Frame} (hf : ∀ d ∈ f.declarations, d.Legible ∧ d.uri ≠ "") (hs : scope.Filled) :
    Scope.Filled (f :: scope) :=
  List.forall_mem_cons.mpr ⟨hf, hs⟩

theorem elementName?_filled (hs : scope.Filled) (base : String) :
    elementName? scope (none, base) = some ⟨scope.find? none, base⟩ := by
  rw [elementName?_default]
  cases hd : scope.find? none with
  | none => rfl
  | some d =>
    obtain ⟨-, f, hf, hm⟩ := Scope.find?_some hd
    simp [Option.filter, (hs f hf d hm).2]

/-- A name is read as what it is if and only if it is bound to what its prefix stands for. -/
theorem Name.meant_iff (hs : scope.Filled) : n.Meant scope false ↔ elementName? scope n.parts = some n := by
  obtain ⟨_ | ⟨_ | short, uri⟩, base⟩ := n
  · have hread : elementName? scope (⟨none, base⟩ : Name).parts = some ⟨scope.find? none, base⟩ :=
      elementName?_filled hs base
    rw [hread, Option.some_inj, Name.mk.injEq, and_iff_left rfl]
    exact ⟨fun hn => hn.default rfl rfl, fun hd => ⟨nofun, fun _ _ => hd⟩⟩
  · have hread : elementName? scope (⟨some ⟨none, uri⟩, base⟩ : Name).parts = some ⟨scope.find? none, base⟩ :=
      elementName?_filled hs base
    rw [hread, Option.some_inj, Name.mk.injEq, and_iff_left rfl]
    constructor
    · intro hn
      obtain ⟨hforce, -⟩ := hn.space _ rfl
      exact hforce.resolve_left (by simp [Declaration.xml])
    · intro hd
      refine ⟨fun d hd' => ?_, fun _ => nofun⟩
      cases hd'
      exact ⟨.inr hd, nofun⟩
  · by_cases hx : short = "xml"
    · subst hx
      have hread : elementName? scope (⟨some ⟨some "xml", uri⟩, base⟩ : Name).parts = some ⟨some .xml, base⟩ := rfl
      rw [hread, Option.some_inj, Name.mk.injEq, and_iff_left rfl, Option.some_inj]
      constructor
      · intro hn
        obtain ⟨hforce | hfind, -⟩ := hn.space _ rfl
        · exact hforce.symm
        · obtain ⟨-, f, hf, hm⟩ := Scope.find?_some hfind
          exact absurd rfl ((hs f hf _ hm).1.isName_short rfl).2.1
      · intro hd
        refine ⟨fun d hd' => ?_, fun _ => nofun⟩
        cases hd'
        exact ⟨.inl hd.symm, nofun⟩
    · have hread : elementName? scope (⟨some ⟨some short, uri⟩, base⟩ : Name).parts =
          (scope.find? (some short)).map fun d => ⟨some d, base⟩ := elementName?_prefixed hx scope base
      rw [hread]
      constructor
      · intro hn
        obtain ⟨hforce, -⟩ := hn.space _ rfl
        have hfind := hforce.resolve_left fun k => hx (by cases k; rfl)
        rw [show scope.find? (some short) = some ⟨some short, uri⟩ from hfind]
        rfl
      · intro hd
        obtain ⟨d, hfind, hd⟩ := Option.map_eq_some_iff.mp hd
        cases hd
        refine ⟨fun d hd' => ?_, fun _ => nofun⟩
        cases hd'
        exact ⟨.inr hfind, nofun⟩

/-- So is the name of an attribute that has a prefix if it has a namespace. -/
theorem Name.meant_attr_iff (hs : scope.Filled) (hp : ∀ d, n.space = some d → d.short.isSome = true) :
    n.Meant scope true ↔ attrName? scope n.parts = some n := by
  obtain ⟨_ | ⟨_ | short, uri⟩, base⟩ := n
  · exact iff_of_true ⟨nofun, nofun⟩ rfl
  · cases hp _ rfl
  · have hname : (⟨some ⟨some short, uri⟩, base⟩ : Name).Meant scope true ↔
        (⟨some ⟨some short, uri⟩, base⟩ : Name).Meant scope false := by
      constructor
      · exact fun hn => ⟨fun d hd => ⟨(hn.space d hd).1, nofun⟩, fun _ => nofun⟩
      · exact fun hn => ⟨fun d hd => ⟨(hn.space d hd).1, fun _ => hp d hd⟩, nofun⟩
    rw [hname, Name.meant_iff hs]
    rfl

theorem mapM_rebind_self {attrs : List Attr} :
    attrs.mapM (Attr.rebind scope) = some attrs ↔ ∀ a ∈ attrs, attrName? scope a.name.parts = some a.name := by
  induction attrs with
  | nil => exact iff_of_true rfl nofun
  | cons a attrs ih =>
    have ha : a.rebind scope = some a ↔ attrName? scope a.name.parts = some a.name := by
      unfold Attr.rebind
      cases attrName? scope a.name.parts with
      | none => exact iff_of_false nofun nofun
      | some n =>
        rw [Option.map_some, Option.some_inj, Option.some_inj]
        exact ⟨fun k => congrArg Attr.name k, fun k => by rw [k]⟩
    rw [List.mapM_cons, List.forall_mem_cons, ← ih, ← ha]
    constructor
    · intro h
      obtain ⟨b, hb, h⟩ := Option.bind_eq_some_iff.mp h
      obtain ⟨rest, hr, h⟩ := Option.bind_eq_some_iff.mp h
      cases h
      exact ⟨hb, hr⟩
    · rintro ⟨hb, hr⟩
      rw [hb, hr]
      rfl

/-- Whether the names of a start tag are read as what they are in a scope, the tag's own declarations included,
and its attributes are different ones. -/
structure Head.Bound (scope : Scope) (h : Head) : Prop where
  name : elementName? scope h.name.parts = some h.name
  attrs : ∀ a ∈ h.attrs, attrName? scope a.name.parts = some a.name
  apart : (h.attrs.map fun a => (a.name.uri, a.name.base)).Nodup

/-- What is read differently is written differently. -/
theorem nodup_parts {attrs : List Attr} (hattrs : ∀ a ∈ attrs, attrName? scope a.name.parts = some a.name)
    (hapart : (attrs.map fun a => (a.name.uri, a.name.base)).Nodup) : (attrs.map (·.name.parts)).Nodup := by
  refine List.Nodup.of_map (fun w => (attrName? scope w).map fun n => (n.uri, n.base)) ?_
  have hread : ((attrs.map (·.name.parts)).map fun w => (attrName? scope w).map fun n => (n.uri, n.base)) =
      (attrs.map fun a => (a.name.uri, a.name.base)).map some := by
    rw [List.map_map, List.map_map]
    refine List.map_congr_left fun a ha => ?_
    change (attrName? scope a.name.parts).map _ = some (a.name.uri, a.name.base)
    rw [hattrs a ha]
    rfl
  rw [hread]
  exact hapart.map fun _ _ => Option.some.inj

/-- A start tag is read from what it is written as if and only if its names are bound as they are written. -/
theorem Head.bound_iff (hl : h.Legible) :
    h.Bound (h.frame :: scope) ↔ bind? scope h.name.parts h.raw = some h := by
  have halike : Scope.Alike (h.frame :: scope) (⟨h.declarations, none⟩ :: scope) := (Scope.Alike.refl scope).cons rfl
  rw [bind?_raw hl, mapM_rebind_self, ← halike.elementName?]
  simp only [← halike.attrName?]
  constructor
  · intro hb
    exact ⟨hl.nodup_raw (nodup_parts hb.attrs hb.apart), trivial, hb.attrs, hb.apart, hb.name⟩
  · rintro ⟨-, -, hattrs, hapart, hname⟩
    exact ⟨hname, hattrs, hapart⟩

/-- A start tag is bound as it is written if and only if it is bound to what its prefixes stand for. -/
theorem Head.meant_iff (hl : h.Legible) (hs : Scope.Filled (h.frame :: scope)) :
    h.Meant (h.frame :: scope) ↔ bind? scope h.name.parts h.raw = some h := by
  have hattr : ∀ a ∈ h.attrs, (a.name.Meant (h.frame :: scope) true ↔ attrName? (h.frame :: scope) a.name.parts = some a.name) :=
    fun a ha => Name.meant_attr_iff hs (hl.attrs a ha).prefixed
  rw [← Head.bound_iff hl]
  constructor
  · exact fun hm => ⟨(Name.meant_iff hs).mp hm.name, fun a ha => (hattr a ha).mp (hm.attrs a ha), hm.apart⟩
  · exact fun hb => ⟨(Name.meant_iff hs).mpr hb.name, fun a ha => (hattr a ha).mpr (hb.attrs a ha), hb.apart⟩

theorem Content.meant_iff (hl : c.Legible) (hs : scope.Filled) (hd : ∀ x ∈ c.elements, ∀ d ∈ x.head.declarations, d.uri ≠ "") :
    c.Meant scope ↔ c.rebind scope = some c := by
  induction c generalizing scope with
  | nil => exact iff_of_true trivial rfl
  | leaf l rest ih =>
    rw [Meant, ih hl.2.2 hs hd, rebind_leaf]
    constructor
    · exact fun h => ⟨rest, h, rfl⟩
    · rintro ⟨rest', hr, h⟩
      cases h
      exact hr
  | element id h inner rest ihi ihr =>
    have hframe : Scope.Filled (h.frame :: scope) := hs.cons fun d hm =>
      ⟨hl.1.declarations d hm, hd ⟨id, h, inner⟩ List.mem_cons_self d hm⟩
    rw [Meant, Head.meant_iff hl.1 hframe,
      ihi hl.2.1 hframe fun x hx => hd x (List.mem_cons_of_mem _ (List.mem_append_left _ hx)),
      ihr hl.2.2 hs fun x hx => hd x (List.mem_cons_of_mem _ (List.mem_append_right _ hx)), rebind_element]
    constructor
    · exact fun ⟨hh, hi, hr⟩ => ⟨h, inner, rest, hh, hi, hr, rfl⟩
    · rintro ⟨head, inner', rest', hh, hi, hr, k⟩
      cases k
      exact ⟨hh, hi, hr⟩

/-! ### Elements -/

namespace Element

variable {e : Element ι}

/-- Whether all names in the element are bound to what their prefixes stand for. -/
def Meant (e : Element ι) : Prop := e.head.Meant [e.head.frame] ∧ e.inner.Meant [e.head.frame]

theorem meant_iff (hl : e.Legible) (hd : ∀ x ∈ e.all, ∀ d ∈ x.head.declarations, d.uri ≠ "") :
    e.Meant ↔ e.rebind = some e := by
  have hframe : Scope.Filled [e.head.frame] :=
    Scope.Filled.cons (fun d hm => ⟨hl.1.declarations d hm, hd e List.mem_cons_self d hm⟩) nofun
  rw [Meant, Head.meant_iff hl.1 hframe, Content.meant_iff hl.2 hframe fun x hx => hd x (List.mem_cons_of_mem _ hx),
    rebind_iff]
  constructor
  · exact fun ⟨hh, hi⟩ => ⟨e.head, e.inner, hh, hi, rfl⟩
  · rintro ⟨head, inner, hh, hi, k⟩
    obtain rfl : head = e.head := (congrArg Element.head k).symm
    obtain rfl : inner = e.inner := (congrArg Element.inner k).symm
    exact ⟨hh, hi⟩

theorem prune_meant {keep : List String} (hn : ∀ x ∈ e.all, (x.head.declarations.map (·.short)).Nodup)
    (he : e.Meant) : (e.prune keep).Meant := by
  have hself := hn e List.mem_cons_self
  refine ⟨Head.prune_meant hself he.1 nofun fun _ => rfl, Content.prune_meant ?_ he.2 ?_ ?_⟩
  · exact fun x hx => hn x (List.mem_cons_of_mem _ hx)
  · exact fun d hu hd => Head.find?_prune hself hd (.inr hu) nofun
  · exact fun hd => Head.find?_prune_none hd fun _ => rfl

theorem mem_prune {keep : List String} {P : Declaration → Prop} (h : ∀ x ∈ e.all, ∀ d ∈ x.head.declarations, P d) :
    ∀ x ∈ (e.prune keep).all, ∀ d ∈ x.head.declarations, P d := by
  have hcontent : ∀ c : Content ι, (∀ x ∈ c.elements, ∀ d ∈ x.head.declarations, P d) →
      ∀ x ∈ (c.prune keep).elements, ∀ d ∈ x.head.declarations, P d := by
    intro c h
    induction c with
    | nil => exact nofun
    | leaf l rest ih => exact ih h
    | element id head inner rest ihi ihr =>
      intro x hx
      rcases List.mem_cons.mp hx with rfl | hx
      · exact fun d hd => h ⟨id, head, inner⟩ List.mem_cons_self d (List.mem_filter.mp hd).1
      · rcases List.mem_append.mp hx with hx | hx
        · exact ihi (fun y hy => h y (List.mem_cons_of_mem _ (List.mem_append_left _ hy))) x hx
        · exact ihr (fun y hy => h y (List.mem_cons_of_mem _ (List.mem_append_right _ hy))) x hx
  refine List.forall_mem_cons.mpr ⟨fun d hd => h e List.mem_cons_self d (List.mem_filter.mp hd).1, ?_⟩
  exact hcontent e.inner fun x hx => h x (List.mem_cons_of_mem _ hx)

/-- An element that has been relocated is bound to what its prefixes stand for, if they are not mixed up. -/
theorem relocate_meant (hu : Unmixed ds) (hl : ∀ d ∈ ds, d.Legible) (counter : Nat)
    (hd : ∀ x ∈ e.all, ∀ d ∈ x.head.declarations, d ∈ ds)
    (hn : ∀ x ∈ e.all, (x.head.declarations.map (·.short)).Nodup) (he : e.Meant) :
    (e.relocate counter).1.Meant ∧ ∀ x ∈ (e.relocate counter).1.all, ∀ d ∈ x.head.declarations, d ∈ ds := by
  rcases h : e.relocate counter with ⟨e', counter'⟩
  unfold relocate at h
  dsimp only at h
  have hself : (⟨[], counter⟩ : Supply).extend e.head.frame = e.head.frame := by
    simp [Supply.extend, Head.frame]
  have hdself := hd e List.mem_cons_self
  have hnself := hn e List.mem_cons_self
  have hm : Moving ds [e.head.frame] e.head.frame [] (e.head.declarations.map fun d => (d, d)) ⟨[], counter⟩ := by
    refine ⟨?_, fun d hd => absurd hd List.not_mem_nil⟩
    rw [List.nil_append, hself]
    refine ⟨List.forall_mem_singleton.mpr hdself, List.forall_mem_singleton.mpr hnself, ⟨?_, trivial⟩, ?_, ?_, fun hd => hd⟩
    · exact fun d hd => (he.1.name.space d hd).1
    · intro p hp
      obtain ⟨d, hdm, rfl⟩ := List.mem_map.mp hp
      exact ⟨hdself d hdm, rfl, _, List.mem_cons_self, hdm⟩
    · intro d hfind
      obtain ⟨-, f, hf, hm⟩ := Scope.find?_some hfind
      rw [List.mem_singleton.mp hf] at hm
      have hm : d ∈ e.head.declarations := hm
      refine ⟨d, ?_, hfind⟩
      rw [replacement?_self hm]
  rcases hname : relocateName e.head.frame (e.head.declarations.map fun d => (d, d)) ⟨[], counter⟩ false
    e.head.name with ⟨name, s₁⟩
  rw [hname] at h
  dsimp only at h
  rcases hattrs : relocateAttrs e.head.frame (e.head.declarations.map fun d => (d, d)) s₁ e.head.attrs with
    ⟨attrs, s₂⟩
  rw [hattrs] at h
  dsimp only at h
  have hown : ∀ d, e.head.name.space = some d → d = .xml ∨ d ∈ e.head.declarations := by
    intro d hspace
    refine (he.1.name.space d hspace).1.imp_right fun hfind => ?_
    obtain ⟨-, f, hf, hm⟩ := Scope.find?_some hfind
    rwa [List.mem_singleton.mp hf] at hm
  obtain rfl : name = e.head.name := (congrArg Prod.fst hname).symm.trans (relocateName_self hown)
  rcases hinner : e.inner.relocate ⟨e.head.declarations, e.head.name.space⟩ []
    (e.head.declarations.map fun d => (d, d)) s₂ with ⟨inner, s₃⟩
  rw [hinner] at h
  cases h
  obtain ⟨-, hmeant, hm₁, hx₁⟩ := relocateName_meant hu hl hm he.1.name hname
  obtain ⟨hsame, hall, hm₂, hx₂⟩ := relocateAttrs_meant hu hl hm₁ he.1.attrs hattrs
  obtain ⟨hmi, hdi, hm₃, hx₃⟩ := Content.relocate_meant hu hl hm₂ (fun x hx => hd x (List.mem_cons_of_mem _ hx))
    (fun x hx => hn x (List.mem_cons_of_mem _ hx)) he.2 hinner
  refine ⟨⟨⟨?_, fun a ha => ?_, ?_⟩, hmi⟩, List.forall_mem_cons.mpr ⟨hm₃.declared _ List.mem_cons_self, hdi⟩⟩
  · exact hmeant.extend (hx₂.trans hx₃) hm₃.added
  · exact (hall a ha).extend hx₃ hm₃.added
  · change (attrs.map fun a => (a.name.uri, a.name.base)).Nodup
    rw [hsame]
    exact he.1.apart

end Element

end LiveSvg.Markup
