import LiveSvg.Markup.Relocate
import LiveSvg.Proofs.Parsing
/-!
Clearing needless declarations: names keep their addresses, and each goes by a prefix that is declared
around it, whatever prefixes stand for the addresses then.
-/

namespace LiveSvg.Markup

open Number

variable {ι : Type} {scope around : Scope} {d : Declaration} {uri : String} {root : Frame}
  {table : Replacements} {s t : Supply} {isAttr : Bool} {n : Name} {a : Attr} {h : Head} {c : Content ι}

/-! ### Declarations in force -/

namespace Scope

theorem byUri?_some {nearer : Scope} {accept : Declaration → Bool}
    (h : byUri? nearer uri accept scope = some d) :
    d.uri = uri ∧ accept d = true ∧ ∃ f ∈ scope, d ∈ f.declarations ∨ f.space = some d := by
  induction scope generalizing nearer with
  | nil => cases h
  | cons f outer ih =>
    rw [byUri?] at h
    split at h
    · next k =>
      cases h
      have hp := List.find?_some k
      simp only [Bool.and_eq_true, beq_iff_eq] at hp
      refine ⟨hp.1.1, hp.1.2, f, List.mem_cons_self, ?_⟩
      rcases List.mem_append.mp (List.mem_of_find?_eq_some k) with hm | hm
      · exact .inl hm
      · split at hm
        · cases hm
        · exact .inr (Option.mem_toList.mp hm)
    · obtain ⟨hu, ha, g, hg, hm⟩ := ih h
      exact ⟨hu, ha, g, List.mem_cons_of_mem _ hg, hm⟩

/-- What is in force for an address is declared around the place or stands for a name there. -/
theorem inForce?_some (h : scope.inForce? isAttr uri = some d) :
    d.uri = uri ∧ (isAttr = true → d.short.isSome = true) ∧
      (d = .xml ∨ ∃ f ∈ scope, d ∈ f.declarations ∨ f.space = some d) := by
  unfold inForce? at h
  split at h
  · unfold prefixedFor? at h
    split at h
    · next hu =>
      cases h
      exact ⟨hu.symm, fun _ => rfl, .inl rfl⟩
    · obtain ⟨hu, ha, hm⟩ := byUri?_some h
      exact ⟨hu, fun _ => ha, .inr hm⟩
  · next hc =>
    obtain ⟨hu, -, hm⟩ := byUri?_some h
    refine ⟨hu, fun k => ?_, .inr hm⟩
    simp [k] at hc

theorem find?_eq_none {short : Option String} (h : scope.find? short = none) :
    ∀ f ∈ scope, ∀ d ∈ f.declarations, d.short ≠ short := by
  intro f hf d hd k
  have hn := List.findSome?_eq_none_iff.mp h f hf
  exact absurd (List.find?_eq_none.mp hn d hd) (by simp [k])

end Scope

/-! ### New prefixes -/

theorem generated_toList (n : Nat) : (generated n).toList = 'n' :: 's' :: digitsOf n := by
  have hn : ¬ (n : Int) < 0 := by omega
  simp [generated, intText, hn]

theorem generated_inj {m n : Nat} (h : generated m = generated n) : m = n := by
  have hd : digitsOf m = digitsOf n := by
    have := congrArg String.toList h
    rw [generated_toList, generated_toList] at this
    exact (List.cons.inj (List.cons.inj this).2).2
  rw [← Nat.ofDigitChars_ten_toDigits (n := m), ← Nat.ofDigitChars_ten_toDigits (n := n)]
  exact congrArg (Nat.ofDigitChars 10 · 0) hd

theorem generated_ne {short : String} (n : Nat) (h : short.toList.head? ≠ some 'n') : generated n ≠ short := by
  rintro rfl
  rw [generated_toList] at h
  exact h rfl

theorem isName_generated (n : Nat) : isName (generated n).toList = true := by
  rw [generated_toList, isName, List.all_cons, Bool.and_eq_true, Bool.and_eq_true, List.all_eq_true]
  refine ⟨by decide, by decide, fun c hc => ?_⟩
  have hd : c.isDigit = true := Nat.isDigit_of_mem_toDigits (by decide) (by decide) hc
  have hlt : c.toNat < 128 := by
    simp only [Char.isDigit, Bool.and_eq_true, decide_eq_true_eq, UInt32.le_iff_toNat_le] at hd
    exact Nat.lt_of_le_of_lt hd.2 (by decide)
  simp [isNamePart, hlt, hd]

theorem Scope.length_shorts_le (scope : Scope) :
    (scope.flatMap fun f => f.declarations.filterMap (·.short)).length ≤ scope.size := by
  have h : ∀ (scope : Scope) (n : Nat), n + (scope.flatMap fun f => f.declarations.filterMap (·.short)).length ≤
      scope.foldl (fun n f => n + f.declarations.length) n := by
    intro scope
    induction scope with
    | nil => exact fun n => Nat.le_refl n
    | cons f scope ih =>
      intro n
      have := ih (n + f.declarations.length)
      have := List.length_filterMap_le (fun d : Declaration => d.short) f.declarations
      rw [List.flatMap_cons, List.length_append, List.foldl_cons]
      omega
  have := h scope 0
  rwa [Nat.zero_add] at this

/-- A generated prefix is new: there are more of them than prefixes in the scope. -/
theorem freshShort_spec (scope : Scope) (counter : Nat) :
    ∃ n, (freshShort scope counter scope.size).1 = generated n ∧ scope.find? (some (generated n)) = none := by
  have hstep : ∀ fuel counter, ∃ n, (freshShort scope counter fuel).1 = generated n ∧
      (scope.find? (some (generated n)) = none ∨
        n = counter + fuel ∧ ∀ i < fuel, (scope.find? (some (generated (counter + i)))).isSome = true) := by
    intro fuel
    induction fuel with
    | zero => exact fun counter => ⟨counter, rfl, .inr ⟨rfl, nofun⟩⟩
    | succ fuel ih =>
      intro counter
      rw [freshShort]
      split
      · next hc =>
        obtain ⟨n, hn, hs⟩ := ih (counter + 1)
        refine ⟨n, hn, hs.imp_right fun ⟨hn, hall⟩ => ⟨by omega, fun i hi => ?_⟩⟩
        cases i with
        | zero => exact hc
        | succ i =>
          rw [show counter + (i + 1) = counter + 1 + i by omega]
          exact hall i (by omega)
      · next hc => exact ⟨counter, rfl, .inl (by simpa using hc)⟩
  obtain ⟨n, hn, hs⟩ := hstep scope.size counter
  refine ⟨n, hn, ?_⟩
  rcases hs with hs | ⟨rfl, hall⟩
  · exact hs
  · cases hlast : scope.find? (some (generated (counter + scope.size))) with
    | none => rfl
    | some d =>
      -- one more prefix than the scope declares would be declared in it
      exfalso
      have hmem : ∀ i < scope.size + 1, generated (counter + i) ∈
          scope.flatMap fun f => f.declarations.filterMap (·.short) := by
        intro i hi
        have hi' : (scope.find? (some (generated (counter + i)))).isSome = true := by
          rcases Nat.lt_succ_iff_lt_or_eq.mp hi with hi | rfl
          · exact hall i hi
          · rw [hlast]
            rfl
        obtain ⟨e, he⟩ := Option.isSome_iff_exists.mp hi'
        obtain ⟨hshort, f, hf, hm⟩ := Scope.find?_some he
        exact List.mem_flatMap.mpr ⟨f, hf, List.mem_filterMap.mpr ⟨e, hm, hshort⟩⟩
      have hnodup : ((List.range (scope.size + 1)).map fun i => generated (counter + i)).Nodup := by
        refine List.Nodup.map (fun i j hij => ?_) List.nodup_range
        have := generated_inj hij
        omega
      have hsub := List.subperm_of_subset hnodup (by
        intro short hshort
        obtain ⟨i, hi, rfl⟩ := List.mem_map.mp hshort
        exact hmem i (List.mem_range.mp hi))
      have hlen := hsub.length_le
      have hsize := scope.length_shorts_le
      rw [List.length_map, List.length_range] at hlen
      omega

theorem customaryPrefix?_some {short : String} (h : customaryPrefix? uri = some short) :
    isName short.toList = true ∧ short ≠ "xmlns" := by
  obtain ⟨⟨name, short'⟩, hf, rfl⟩ := Option.map_eq_some_iff.mp h
  have hm := List.mem_of_find?_eq_some hf
  have hall : ∀ p ∈ customaryPrefixes, isName p.2.toList = true ∧ p.2 ≠ "xmlns" := by decide
  exact hall _ hm

/-- A declaration for names of an address is in force already, or it is one with a prefix that is
not declared yet. -/
theorem bindingFor_spec {wanted : Option String} {counter counter' : Nat} {isNew : Bool}
    (hw : ∀ short, wanted = some short → isName short.toList = true ∧ short ≠ "xmlns")
    (h : scope.bindingFor isAttr uri wanted counter = (d, isNew, counter')) :
    isNew = false ∧ scope.inForce? isAttr uri = some d ∨
      isNew = true ∧ scope.inForce? isAttr uri = none ∧ ∃ short, d = ⟨some short, uri⟩ ∧
        isName short.toList = true ∧ short ≠ "xmlns" ∧ short ≠ "xml" ∧
        scope.find? (some short) = none := by
  unfold Scope.bindingFor at h
  split at h
  · next k =>
    cases h
    exact .inl ⟨rfl, k⟩
  · next hnone =>
    split at h
    · next short k =>
      cases h
      obtain ⟨ho, hf⟩ := Option.filter_eq_some_iff.mp k
      simp only [Bool.and_eq_true, Option.isNone_iff_eq_none, decide_eq_true_eq] at hf
      refine .inr ⟨rfl, hnone, short, rfl, ?_, ?_, hf.2, hf.1⟩ <;>
      · rcases Option.or_eq_some_iff.mp ho with hs | ⟨-, hs⟩
        · first | exact (hw _ hs).1 | exact (hw _ hs).2
        · first | exact (customaryPrefix?_some hs).1 | exact (customaryPrefix?_some hs).2
    · obtain ⟨n, hn, hs⟩ := freshShort_spec scope counter
      cases h
      rw [hn]
      exact .inr ⟨rfl, hnone, generated n, rfl, isName_generated n, generated_ne n (by decide),
        generated_ne n (by decide), hs⟩

/-! ### What relocation keeps -/

/-- A name without the prefix that it goes by. -/
def Name.bare (n : Name) : Name := ⟨n.uri.map fun uri => ⟨none, uri⟩, n.base⟩

def Attr.bare (a : Attr) : Attr := ⟨a.name.bare, a.value⟩

def Head.bare (h : Head) : Head := ⟨h.name.bare, [], h.attrs.map (·.bare)⟩

/-- Content without prefixes and their declarations. -/
def Content.bare : Content ι → Content ι
  | .nil => .nil
  | .leaf l rest => .leaf l rest.bare
  | .element id h inner rest => .element id h.bare inner.bare rest.bare

/-- Whether a place within a scope can refer to a declaration by its prefix. -/
def Scope.Reaches (scope : Scope) (d : Declaration) : Prop :=
  d = .xml ∨ ∃ f ∈ scope, d ∈ f.declarations

/-- Whether a declaration may stand for an address within a scope. -/
def Scope.Offers (scope : Scope) (d : Declaration) : Prop :=
  (d.Legible ∨ d = .xml) ∧ scope.Reaches d

/-- Whether a name can be written within a scope. -/
structure Name.Stands (scope : Scope) (isAttr : Bool) (n : Name) : Prop where
  base : isName n.base.toList = true
  space : ∀ d, n.space = some d → scope.Offers d ∧ d.uri ≠ "" ∧ (isAttr = true → d.short.isSome = true)

/-- The state of relocation at a place: what is declared around it and what stands for what. -/
structure Settled (root : Frame) (around : Scope) (table : Replacements) (s : Supply) : Prop where
  legible : Scope.Legible (around ++ [s.extend root])
  spaces : ∀ f ∈ around ++ [s.extend root], ∀ d, f.space = some d →
    Scope.Offers (around ++ [s.extend root]) d
  table : ∀ p ∈ table, p.2.uri = p.1.uri ∧ Scope.Offers (around ++ [s.extend root]) p.2
  distinct : ((s.extend root).declarations.map (·.short)).Nodup
  added : ∀ d ∈ s.added, d.short.isSome = true ∧ isPlainAddress d.uri = true

/-- Whether what is declared in one scope is declared in another. -/
def Scope.Within (scope scope' : Scope) : Prop :=
  ∀ f ∈ scope, ∀ d ∈ f.declarations, ∃ g ∈ scope', d ∈ g.declarations

theorem Scope.Within.named {ds : List Declaration} {space space' : Option Declaration} {scope : Scope} :
    Scope.Within (⟨ds, space⟩ :: scope) (⟨ds, space'⟩ :: scope) := by
  rintro f (_ | ⟨_, hf⟩) d hd
  · exact ⟨_, List.mem_cons_self, hd⟩
  · exact ⟨f, List.mem_cons_of_mem _ hf, hd⟩

theorem Scope.Within.trans {scope' scope'' : Scope} (h : scope.Within scope') (h' : scope'.Within scope'') :
    scope.Within scope'' := by
  intro f hf d hd
  obtain ⟨g, hg, hm⟩ := h f hf d hd
  exact h' g hg d hm

theorem Scope.Reaches.mono {scope' : Scope} (h : scope.Reaches d) (hs : scope.Within scope') :
    scope'.Reaches d := by
  rcases h with h | ⟨f, hf, hd⟩
  · exact .inl h
  · exact .inr (hs f hf d hd)

/-- More declarations on the outermost element leave those that were there within reach. -/
theorem within_extend (hst : s.added <+: t.added) :
    Scope.Within (around ++ [s.extend root]) (around ++ [t.extend root]) := by
  intro f hf d hd
  rcases List.mem_append.mp hf with hf | hf
  · exact ⟨f, List.mem_append_left _ hf, hd⟩
  · rw [List.mem_singleton.mp hf] at hd
    refine ⟨t.extend root, List.mem_append_right _ List.mem_cons_self, ?_⟩
    rcases List.mem_append.mp hd with hd | hd
    · exact List.mem_append_left _ hd
    · exact List.mem_append_right _ (hst.subset hd)

theorem Scope.Offers.mono {scope' : Scope} (h : scope.Offers d) (hs : scope.Within scope') : scope'.Offers d :=
  ⟨h.1, h.2.mono hs⟩

theorem Scope.Offers.cons (f : Frame) (h : scope.Offers d) : Scope.Offers (f :: scope) d :=
  h.mono fun g hg _ hd => ⟨g, List.mem_cons_of_mem _ hg, hd⟩

theorem Scope.Legible.offers (h : scope.Legible) {f : Frame} (hf : f ∈ scope) (hd : d ∈ f.declarations) :
    scope.Offers d :=
  ⟨.inl (h f hf d hd), .inr ⟨f, hf, hd⟩⟩

theorem Name.Stands.mono {scope' : Scope} (h : n.Stands scope isAttr) (hs : scope.Within scope') :
    n.Stands scope' isAttr :=
  ⟨h.base, fun d hd => ⟨(h.space d hd).1.mono hs, (h.space d hd).2⟩⟩

theorem Scope.Offers.extend (h : Scope.Offers (around ++ [s.extend root]) d) (hst : s.added <+: t.added) :
    Scope.Offers (around ++ [t.extend root]) d :=
  h.mono (within_extend hst)

theorem Name.Stands.extend (h : n.Stands (around ++ [s.extend root]) isAttr) (hst : s.added <+: t.added) :
    n.Stands (around ++ [t.extend root]) isAttr :=
  h.mono (within_extend hst)

/-- What holds of a place holds there once more is declared on the outermost element. -/
theorem Settled.extend (h : Settled root around table s) (hst : s.added <+: t.added)
    (hl : ∀ d ∈ t.added, d.Legible) (hn : ((t.extend root).declarations.map (·.short)).Nodup)
    (ha : ∀ d ∈ t.added, d.short.isSome = true ∧ isPlainAddress d.uri = true) :
    Settled root around table t := by
  refine ⟨?_, ?_, fun p hp => ⟨(h.table p hp).1, (h.table p hp).2.extend hst⟩, hn, ha⟩
  · intro f hf d hd
    rcases List.mem_append.mp hf with hf | hf
    · exact h.legible f (List.mem_append_left _ hf) d hd
    · rw [List.mem_singleton.mp hf] at hd
      rcases List.mem_append.mp hd with hd | hd
      · exact h.legible (s.extend root) (List.mem_append_right _ List.mem_cons_self) d
          (List.mem_append_left _ hd)
      · exact hl d hd
  · intro f hf d hd
    rcases List.mem_append.mp hf with hf | hf
    · exact (h.spaces f (List.mem_append_left _ hf) d hd).extend hst
    · rw [List.mem_singleton.mp hf] at hd
      exact (h.spaces (s.extend root) (List.mem_append_right _ List.mem_cons_self) d hd).extend hst

theorem Settled.added_legible (h : Settled root around table s) : ∀ d ∈ s.added, d.Legible := fun d hd =>
  h.legible (s.extend root) (List.mem_append_right _ List.mem_cons_self) d (List.mem_append_right _ hd)

/-- Inside an element the declarations that it makes are around as well. -/
theorem Settled.enter {ds : List Declaration} {pairs : Replacements} (h : Settled root around table s)
    (hd : ∀ d ∈ ds, d.Legible) (hp : ∀ p ∈ pairs, p.2.uri = p.1.uri ∧
      Scope.Offers (⟨ds, none⟩ :: (around ++ [s.extend root])) p.2) :
    Settled root (⟨ds, none⟩ :: around) (pairs ++ table) s := by
  refine ⟨?_, ?_, ?_, h.distinct, h.added⟩
  · rintro f (_ | ⟨_, hf⟩)
    · exact hd
    · exact h.legible f hf
  · rintro f (_ | ⟨_, hf⟩) d k
    · cases k
    · exact (h.spaces f hf d k).cons _
  · intro p hm
    rcases List.mem_append.mp hm with hm | hm
    · exact hp p hm
    · exact ⟨(h.table p hm).1, (h.table p hm).2.cons _⟩

/-- The name of an element may stand for its address inside it. -/
theorem Settled.named {ds : List Declaration} {space : Option Declaration}
    (h : Settled root (⟨ds, none⟩ :: around) table s)
    (hd : ∀ d, space = some d → Scope.Offers (⟨ds, none⟩ :: around ++ [s.extend root]) d) :
    Settled root (⟨ds, space⟩ :: around) table s := by
  have hmono : Scope.Within (⟨ds, none⟩ :: around ++ [s.extend root]) (⟨ds, space⟩ :: around ++ [s.extend root]) :=
    Scope.Within.named
  refine ⟨?_, ?_, fun p hp => ⟨(h.table p hp).1, (h.table p hp).2.mono hmono⟩, h.distinct, h.added⟩
  · rintro f (_ | ⟨_, hf⟩)
    · exact h.legible ⟨ds, none⟩ List.mem_cons_self
    · exact h.legible f (List.mem_cons_of_mem _ hf)
  · rintro f (_ | ⟨_, hf⟩) d k
    · exact (hd d k).mono hmono
    · exact (h.spaces f (List.mem_cons_of_mem _ hf) d k).mono hmono

/-- The outermost element may go by another prefix that stands for an address there. -/
theorem Settled.renamed {space : Option Declaration} (h : Settled root [] table s)
    (hd : ∀ d, space = some d → Scope.Offers [s.extend root] d) :
    Settled ⟨root.declarations, space⟩ [] table s := by
  have hmono : Scope.Within [s.extend root] [s.extend ⟨root.declarations, space⟩] := Scope.Within.named
  refine ⟨?_, ?_, fun p hp => ⟨(h.table p hp).1, (h.table p hp).2.mono hmono⟩, h.distinct, h.added⟩
  · intro f hf d hm
    rw [List.mem_singleton.mp hf] at hm
    exact h.legible (s.extend root) List.mem_cons_self d hm
  · intro f hf d k
    rw [List.mem_singleton.mp hf] at k
    exact (hd d k).mono hmono

/-- What is in force at the outermost element may stand for its address anywhere. -/
theorem Settled.offers_inForce (h : Settled root around table s)
    (hd : Scope.inForce? [s.extend root] isAttr uri = some d) :
    Scope.Offers (around ++ [s.extend root]) d := by
  have hroot : s.extend root ∈ around ++ [s.extend root] := List.mem_append_right _ List.mem_cons_self
  obtain ⟨-, -, rfl | ⟨f, hf, hm⟩⟩ := Scope.inForce?_some hd
  · exact ⟨.inr rfl, .inl rfl⟩
  · rw [List.mem_singleton.mp hf] at hm
    rcases hm with hm | hm
    · exact h.legible.offers hroot hm
    · exact h.spaces _ hroot d hm

/-- Whether the addresses of names are written as they are read. -/
def Name.Plain (n : Name) : Prop := ∀ d, n.space = some d → isPlainAddress d.uri = true

theorem Declaration.Legible.isName_short {short : String} (h : d.Legible) (hs : d.short = some short) :
    isName short.toList = true ∧ short ≠ "xml" ∧ short ≠ "xmlns" := by
  obtain ⟨_, uri⟩ := d
  cases hs
  have hp : Written.isValid (some "xmlns", short) = true := h.named
  rw [Written.isValid, Bool.and_eq_true] at hp
  exact ⟨hp.2, (declaration?_prefixed.mp h.declares).1⟩

/-- An address that is declared may be declared with any other prefix that is free to be. -/
theorem Declaration.Legible.withShort {short : String} (h : d.Legible) (hu : d.uri ≠ "")
    (hs : isName short.toList = true) (hx : short ≠ "xml") (hn : short ≠ "xmlns") :
    (⟨some short, d.uri⟩ : Declaration).Legible := by
  have hv : isName "xmlns".toList = true := by decide
  refine ⟨Bool.and_eq_true_iff.mpr ⟨hv, hs⟩, h.writable, declaration?_prefixed.mpr ⟨⟨hx, hn⟩, ?_⟩⟩
  obtain ⟨short', uri⟩ := d
  cases short' with
  | some short' => exact (declaration?_prefixed.mp h.declares).2
  | none =>
    obtain ⟨hr, hv⟩ := declaration?_default.mp h.declares
    exact ⟨hr, hu, hv.resolve_left hu⟩

/-- A name under replacements is the same name, and can be written where it stands. -/
theorem relocateName_spec (hs : Settled root around table s) (hn : n.Legible) (hp : n.Plain)
    (ha : isAttr = true → ∀ d, n.space = some d → d.short.isSome = true) {n' : Name} {s' : Supply}
    (h : relocateName root table s isAttr n = (n', s')) :
    n'.bare = n.bare ∧ n'.Stands (around ++ [s'.extend root]) isAttr ∧ Settled root around table s' ∧
      s.added <+: s'.added := by
  obtain ⟨space, base⟩ := n
  unfold relocateName at h
  cases space with
  | none =>
    cases h
    exact ⟨rfl, ⟨hn.base, nofun⟩, hs, List.prefix_refl _⟩
  | some old =>
    dsimp only at h
    split at h
    · next new k =>
      cases h
      obtain ⟨⟨old', new'⟩, hf, rfl⟩ := Option.map_eq_some_iff.mp k
      have hq := List.find?_some hf
      simp only [Bool.and_eq_true, beq_iff_eq, Bool.not_eq_true', Bool.and_eq_false_iff] at hq
      obtain ⟨rfl, hq⟩ := hq
      obtain ⟨hu, ho⟩ := hs.table _ (List.mem_of_find?_eq_some hf)
      refine ⟨?_, ⟨hn.base, fun d hd => ?_⟩, hs, List.prefix_refl _⟩
      · simp only [Name.bare, Name.uri, Option.map_some]
        rw [hu]
      · cases hd
        refine ⟨ho, hu ▸ (hn.space _ rfl).2, fun k => ?_⟩
        simpa [k, ha k _ rfl] using hq
    · rcases hb : Scope.bindingFor [s.extend root] isAttr old.uri old.short s.counter with ⟨d, isNew, counter⟩
      rw [hb] at h
      cases h
      obtain ⟨hold, hne⟩ := hn.space old rfl
      have hw : ∀ short, old.short = some short → isName short.toList = true ∧ short ≠ "xmlns" := by
        intro short k
        rcases hold with hl | rfl
        · exact ⟨(hl.isName_short k).1, (hl.isName_short k).2.2⟩
        · cases k
          decide
      rcases bindingFor_spec hw hb with ⟨rfl, hd⟩ | ⟨rfl, hnone, short, rfl, hshort, hnx, hx, hfree⟩
      · obtain ⟨hu, hshort, -⟩ := Scope.inForce?_some hd
        refine ⟨?_, ⟨hn.base, fun e he => ?_⟩, ?_, List.prefix_refl _⟩
        · simp only [Name.bare, Name.uri, Option.map_some]
          rw [hu]
        · cases he
          exact ⟨hs.offers_inForce hd, hu ▸ hne, hshort⟩
        · exact hs.extend (List.prefix_refl _) hs.added_legible hs.distinct hs.added
      · have hl : (⟨some short, old.uri⟩ : Declaration).Legible := by
          rcases hold with hl | rfl
          · exact hl.withShort hne hshort hx hnx
          · cases isAttr <;> cases hnone
        have hst : s.added <+: s.added ++ [⟨some short, old.uri⟩] := List.prefix_append ..
        refine ⟨rfl, ⟨hn.base, fun e he => ?_⟩, hs.extend hst ?_ ?_ ?_, hst⟩
        · cases he
          refine ⟨⟨.inl hl, .inr ⟨_, List.mem_append_right _ List.mem_cons_self, ?_⟩⟩, hne, fun _ => rfl⟩
          exact List.mem_append_right _ (List.mem_append_right _ List.mem_cons_self)
        · intro e he
          rcases List.mem_append.mp he with he | he
          · exact hs.added_legible e he
          · exact List.mem_singleton.mp he ▸ hl
        · have hd := hs.distinct
          simp only [Supply.extend, if_true, List.map_append, ← List.append_assoc] at hd ⊢
          refine List.nodup_append.mpr ⟨hd, List.nodup_singleton _, fun x hx y hy => ?_⟩
          rw [List.mem_singleton.mp hy]
          rw [← List.map_append] at hx
          obtain ⟨e, he, rfl⟩ := List.mem_map.mp hx
          exact Scope.find?_eq_none hfree (s.extend root) List.mem_cons_self e he
        · intro e he
          rcases List.mem_append.mp he with he | he
          · exact hs.added e he
          · exact List.mem_singleton.mp he ▸ ⟨rfl, hp old rfl⟩

theorem replacement?_self {ds : List Declaration} (hd : d ∈ ds) :
    replacement? (ds.map fun d => (d, d)) false d = some d := by
  unfold replacement?
  rw [List.find?_map]
  cases hf : ds.find? ((fun p : Declaration × Declaration =>
    p.1 == d && !(false && p.1.short.isSome && p.2.short.isNone)) ∘ fun d => (d, d)) with
  | none => exact absurd (List.find?_eq_none.mp hf d hd) (by simp)
  | some e =>
    have he := List.find?_some hf
    simp only [Function.comp_apply, Bool.false_and, Bool.not_false, Bool.and_true, beq_iff_eq] at he
    rw [he]
    rfl

/-- The outermost element keeps its name. -/
theorem relocateName_self {ds : List Declaration}
    (hn : ∀ d, n.space = some d → d = .xml ∨ d ∈ ds) :
    (relocateName root (ds.map fun d => (d, d)) s false n).1 = n := by
  obtain ⟨space, base⟩ := n
  cases space with
  | none => rfl
  | some d =>
    unfold relocateName
    dsimp only
    by_cases hd : d ∈ ds
    · rw [replacement?_self hd]
    · obtain rfl := (hn d rfl).resolve_right hd
      have hnone : replacement? (ds.map fun d => (d, d)) false .xml = none := by
        unfold replacement?
        rw [Option.map_eq_none_iff, List.find?_eq_none]
        intro p hp
        obtain ⟨e, he, rfl⟩ := List.mem_map.mp hp
        have hne : e ≠ .xml := fun k => hd (k ▸ he)
        simp [hne]
      rw [hnone]
      rfl

theorem Name.Stands.legible (h : n.Stands scope isAttr) : n.Legible :=
  ⟨h.base, fun d hd => ⟨(h.space d hd).1.1, (h.space d hd).2.1⟩⟩

/-- An attribute with another prefix for the same address is still an attribute. -/
theorem Name.Stands.other {n' : Name} (h : n'.Stands scope true) (hb : n'.bare = n.bare)
    (ho : isDeclaration n.parts = false) : isDeclaration n'.parts = false := by
  obtain ⟨space, base⟩ := n
  obtain ⟨space', base'⟩ := n'
  cases space' with
  | none =>
    cases space with
    | none =>
      cases (Name.mk.inj hb).2
      exact ho
    | some => cases hb
  | some d =>
    obtain ⟨⟨hd, -⟩, -, hshort⟩ := h.space d rfl
    obtain ⟨short, hs⟩ := Option.isSome_iff_exists.mp (hshort rfl)
    obtain ⟨_, uri⟩ := d
    cases hs
    have hx : short ≠ "xmlns" := by
      rcases hd with hd | hd
      · exact (hd.isName_short rfl).2.2
      · cases hd
        decide
    simp [parts, isDeclaration, hx]

theorem relocateAttrs_spec {attrs attrs' : List Attr} {s' : Supply} (hs : Settled root around table s)
    (hl : ∀ a ∈ attrs, a.Legible) (hp : ∀ a ∈ attrs, a.name.Plain)
    (h : relocateAttrs root table s attrs = (attrs', s')) :
    attrs'.map (·.bare) = attrs.map (·.bare) ∧
      (∀ a ∈ attrs', a.Legible ∧ a.name.Stands (around ++ [s'.extend root]) true) ∧
      Settled root around table s' ∧ s.added <+: s'.added := by
  induction attrs generalizing attrs' s with
  | nil =>
    cases h
    exact ⟨rfl, nofun, hs, List.prefix_refl _⟩
  | cons a attrs ih =>
    rw [relocateAttrs] at h
    rcases hn : relocateName root table s true a.name with ⟨name, s₁⟩
    rcases hr : relocateAttrs root table s₁ attrs with ⟨rest, s₂⟩
    rw [hn] at h
    dsimp only at h
    rw [hr] at h
    cases h
    have ha := hl a List.mem_cons_self
    obtain ⟨hb, hst, hs₁, hx₁⟩ := relocateName_spec hs ha.name (hp a List.mem_cons_self)
      (fun _ => ha.prefixed) hn
    obtain ⟨hm, hall, hs₂, hx₂⟩ := ih hs₁ (fun b hb => hl b (List.mem_cons_of_mem _ hb))
      (fun b hb => hp b (List.mem_cons_of_mem _ hb)) hr
    refine ⟨by rw [List.map_cons, List.map_cons, hm, Attr.bare, Attr.bare, hb], ?_, hs₂, hx₁.trans hx₂⟩
    rintro b (_ | ⟨_, hb'⟩)
    · exact ⟨⟨hst.legible, fun d hd => (hst.space d hd).2.2 rfl, ha.writable, hst.other hb ha.other⟩,
        hst.extend hx₂⟩
    · exact hall b hb'

/-- Whether the names of a start tag can be written within a scope, the tag's own declarations
included. -/
def Head.Stands (scope : Scope) (h : Head) : Prop :=
  h.name.Stands scope false ∧ ∀ a ∈ h.attrs, a.name.Stands scope true

/-- Whether the addresses of all names and declarations are written as they are read. -/
structure Head.Plain (h : Head) : Prop where
  declarations : ∀ d ∈ h.declarations, isPlainAddress d.uri = true
  name : h.name.Plain
  attrs : ∀ a ∈ h.attrs, a.name.Plain

/-- The names of a start tag under replacements, once its own declarations are among what stands
around it. -/
theorem relocateNames_spec {name : Name} {attrs : List Attr} {s₁ s₂ : Supply}
    (hs : Settled root around table s) (hl : h.Legible) (hp : h.Plain)
    (hn : relocateName root table s false h.name = (name, s₁))
    (ha : relocateAttrs root table s₁ h.attrs = (attrs, s₂)) :
    name.bare = h.name.bare ∧
      attrs.map (·.bare) = h.attrs.map (·.bare) ∧
      (∀ a ∈ attrs, a.Legible ∧ a.name.Stands (around ++ [s₂.extend root]) true) ∧
      name.Stands (around ++ [s₂.extend root]) false ∧ Settled root around table s₂ ∧
      s.added <+: s₂.added := by
  obtain ⟨hb, hst, hs₁, hx₁⟩ := relocateName_spec hs hl.name hp.name (fun k => by cases k) hn
  obtain ⟨hm, hall, hs₂, hx₂⟩ := relocateAttrs_spec hs₁ hl.attrs hp.attrs ha
  exact ⟨hb, hm, hall, hst.extend hx₂, hs₂, hx₁.trans hx₂⟩

/-- A start tag under replacements says the same and can be written where it stands; what stands
inside it can be written below it. -/
theorem relocateHead_spec {h' : Head} {table' : Replacements} {s' : Supply}
    (hs : Settled root around table s) (hl : h.Legible) (hp : h.Plain)
    (h₀ : relocateHead root around table s h = (h', table', s')) :
    h'.bare = h.bare ∧ h'.Legible ∧ (∀ d ∈ h'.declarations, isPlainAddress d.uri = true) ∧
      h'.Stands (h'.frame :: (around ++ [s'.extend root])) ∧
      Settled root (h'.frame :: around) table' s' ∧ s.added <+: s'.added := by
  unfold relocateHead at h₀
  dsimp only at h₀
  -- the declarations that stay, as a frame of their own
  let kept := h.declarations.filter fun d => ((around ++ [s.extend root]).declarationOf? d.uri).isNone
  let pairs := h.declarations.map fun d => (d, ((around ++ [s.extend root]).declarationOf? d.uri).getD d)
  have hkept : ∀ d ∈ kept, d ∈ h.declarations := fun d hd => (List.mem_filter.mp hd).1
  have hinner : Settled root (⟨kept, none⟩ :: around) (pairs ++ table) s :=
    hs.enter (fun d hd => hl.declarations d (hkept d hd)) fun p hp => by
      obtain ⟨d, hd, rfl⟩ := List.mem_map.mp hp
      dsimp only
      cases hof : (around ++ [s.extend root]).declarationOf? d.uri with
      | none =>
        have hk : d ∈ kept := List.mem_filter.mpr ⟨hd, by rw [hof]; rfl⟩
        exact ⟨rfl, .inl (hl.declarations d hd), .inr ⟨_, List.mem_cons_self, hk⟩⟩
      | some e =>
        obtain ⟨hu, -, f, hf, hm⟩ := Scope.byUri?_some hof
        refine ⟨hu, Scope.Offers.cons _ ?_⟩
        rcases hm with hm | hm
        · exact hs.legible.offers hf hm
        · exact hs.spaces f hf e hm
  rcases hn : relocateName root (pairs ++ table) s false h.name with ⟨name, s₁⟩
  rw [hn] at h₀
  dsimp only at h₀
  rcases ha : relocateAttrs root (pairs ++ table) s₁ h.attrs with ⟨attrs, s₂⟩
  rw [ha] at h₀
  cases h₀
  obtain ⟨hb, hm, hall, hst, hs₂, hx⟩ := relocateNames_spec hinner hl hp hn ha
  refine ⟨?_, ⟨hst.legible, ?_, ?_, fun a ha => (hall a ha).1⟩, ?_, ?_, ?_, hx⟩
  · simp only [Head.bare, hb, hm]
  · exact fun d hd => hl.declarations d (hkept d hd)
  · exact hl.distinct.sublist (List.filter_sublist.map _)
  · exact fun d hd => hp.declarations d (hkept d hd)
  · exact ⟨hst.mono Scope.Within.named, fun a ha => (hall a ha).2.mono Scope.Within.named⟩
  · exact hs₂.named fun d hd => (hst.space d hd).1

/-! ### Content -/

namespace Content

theorem startsText_bare (c : Content ι) : c.bare.startsText = c.startsText := by
  cases c <;> rfl

theorem depth_bare (c : Content ι) : c.bare.depth = c.depth := by
  induction c with
  | nil => rfl
  | leaf l rest ih => exact ih
  | element id h inner rest ihi ihr => rw [bare, depth, depth, ihi, ihr]

/-- Whether all names in the content can be written where they stand, within a scope. -/
def Stands (scope : Scope) : Content ι → Prop
  | .nil => True
  | .leaf _ rest => rest.Stands scope
  | .element _ h inner rest =>
    h.Stands (h.frame :: scope) ∧ inner.Stands (h.frame :: scope) ∧ rest.Stands scope

/-- Relocation keeps what content says. Its names can be written where they stand once the
outermost element declares what has been added to it, then or later. -/
theorem relocate_spec {c' : Content ι} {s' : Supply} (hs : Settled root around table s) (hl : c.Legible)
    (hp : ∀ x ∈ c.elements, x.head.Plain) (h : c.relocate root around table s = (c', s')) :
    c'.bare = c.bare ∧ c'.Legible ∧ c'.Plain ∧
      (∀ t : Supply, s'.added <+: t.added → c'.Stands (around ++ [t.extend root])) ∧
      Settled root around table s' ∧ s.added <+: s'.added := by
  induction c generalizing around table s c' s' with
  | nil =>
    cases h
    exact ⟨rfl, trivial, nofun, fun _ _ => trivial, hs, List.prefix_refl _⟩
  | leaf l rest ih =>
    rw [relocate] at h
    rcases hr : rest.relocate root around table s with ⟨rest', s₁⟩
    rw [hr] at h
    cases h
    obtain ⟨hb, hl', hp', hst, hs', hx⟩ := ih hs hl.2.2 hp hr
    refine ⟨by rw [bare, bare, hb], ⟨hl.1, fun k => ?_, hl'⟩, hp', hst, hs', hx⟩
    rw [← startsText_bare, hb, startsText_bare]
    exact hl.2.1 k
  | element id head inner rest ihi ihr =>
    rw [relocate] at h
    rcases hh : relocateHead root around table s head with ⟨head', table', s₁⟩
    rw [hh] at h
    dsimp only at h
    rcases hi : inner.relocate root (head'.frame :: around) table' s₁ with ⟨inner', s₂⟩
    rw [hi] at h
    dsimp only at h
    rcases hr : rest.relocate root around table s₂ with ⟨rest', s₃⟩
    rw [hr] at h
    cases h
    obtain ⟨hbh, hlh, hph, hsth, hs₁, hx₁⟩ := relocateHead_spec hs hl.1 (hp ⟨id, head, inner⟩ (by simp [elements])) hh
    obtain ⟨hbi, hli, hpi, hsti, hs₂, hx₂⟩ := ihi hs₁ hl.2.1 (fun x hx => hp x (by simp [elements, hx])) hi
    have hx := hx₁.trans hx₂
    obtain ⟨hbr, hlr, hpr, hstr, hs₃, hx₃⟩ := ihr (hs.extend hx hs₂.added_legible hs₂.distinct hs₂.added)
      hl.2.2 (fun x hx => hp x (by simp [elements, hx])) hr
    refine ⟨by rw [bare, bare, hbh, hbi, hbr], ⟨hlh, hli, hlr⟩, ?_, fun t ht => ⟨?_, ?_, ?_⟩, hs₃, hx.trans hx₃⟩
    · intro x hx
      rcases List.mem_cons.mp hx with rfl | hx
      · exact hph
      · exact (List.mem_append.mp hx).elim (hpi x) (hpr x)
    · have hin : Scope.Within (head'.frame :: around ++ [s₁.extend root]) (head'.frame :: around ++ [t.extend root]) :=
        within_extend ((hx₂.trans hx₃).trans ht)
      exact ⟨hsth.1.mono hin, fun a ha => (hsth.2 a ha).mono hin⟩
    · exact hsti t (hx₃.trans ht)
    · exact hstr t ht

end Content

/-! ### Declarations that nothing uses -/

theorem Head.mem_prune {keep : List String} {inner : Content ι} (hd : d ∈ h.declarations)
    (hu : h.uses d = true ∨ inner.uses d = true) : d ∈ (h.prune keep inner).declarations := by
  refine List.mem_filter.mpr ⟨hd, ?_⟩
  rcases hu with hu | hu <;> simp [hu]

theorem Head.prune_legible {keep : List String} {inner : Content ι} (hl : h.Legible) :
    (h.prune keep inner).Legible :=
  ⟨hl.name, fun d hd => hl.declarations d (List.mem_filter.mp hd).1,
    hl.distinct.sublist (List.filter_sublist.map _), hl.attrs⟩

/-- The names of a start tag can still be written without the declarations that nothing uses, if
those that it uses from around it are still there. -/
theorem Head.prune_stands {keep : List String} {inner : Content ι} {scope' : Scope}
    (hst : h.Stands (h.frame :: scope))
    (hs : ∀ d, d ∉ h.declarations → h.uses d = true → (∃ f ∈ scope, d ∈ f.declarations) →
      ∃ f ∈ scope', d ∈ f.declarations) :
    (h.prune keep inner).Stands ((h.prune keep inner).frame :: scope') := by
  have hname : ∀ {n : Name} {isAttr : Bool}, n.Stands (h.frame :: scope) isAttr →
      (∀ d, n.space = some d → h.uses d = true) →
      n.Stands ((h.prune keep inner).frame :: scope') isAttr := by
    intro n isAttr hn hu
    refine ⟨hn.base, fun d hd => ?_⟩
    obtain ⟨⟨hl, hr⟩, hrest⟩ := hn.space d hd
    refine ⟨⟨hl, hr.imp_right fun ⟨f, hf, hm⟩ => ?_⟩, hrest⟩
    by_cases hin : d ∈ h.declarations
    · exact ⟨_, List.mem_cons_self, mem_prune hin (.inl (hu d hd))⟩
    · have hf' : f ∈ scope := by
        rcases List.mem_cons.mp hf with rfl | hf
        · exact absurd hm hin
        · exact hf
      obtain ⟨g, hg, hm⟩ := hs d hin (hu d hd) ⟨f, hf', hm⟩
      exact ⟨g, List.mem_cons_of_mem _ hg, hm⟩
  refine ⟨hname hst.1 fun d (hd : h.name.space = some d) => by simp [uses, hd],
    fun a ha => hname (hst.2 a ha) fun d hd => ?_⟩
  simp only [uses, Bool.or_eq_true, List.any_eq_true]
  exact .inr ⟨a, ha, by simp [hd]⟩

namespace Content

theorem prune_spec (keep : List String) (c : Content ι) : (c.prune keep).bare = c.bare ∧
    (c.Legible → (c.prune keep).Legible) ∧ (c.Plain → (c.prune keep).Plain) := by
  induction c with
  | nil => exact ⟨rfl, id, id⟩
  | leaf l rest ih =>
    obtain ⟨hb, hl, hp⟩ := ih
    refine ⟨by rw [prune, bare, bare, hb], fun h => ⟨h.1, fun k => ?_, hl h.2.2⟩, hp⟩
    rw [← startsText_bare, hb, startsText_bare]
    exact h.2.1 k
  | element id head inner rest ihi ihr =>
    obtain ⟨hbi, hli, hpi⟩ := ihi
    obtain ⟨hbr, hlr, hpr⟩ := ihr
    refine ⟨by rw [prune, bare, bare, hbi, hbr]; rfl,
      fun h => ⟨Head.prune_legible h.1, hli h.2.1, hlr h.2.2⟩, fun h x hx => ?_⟩
    rcases List.mem_cons.mp hx with rfl | hx
    · exact fun d hd => h ⟨id, head, inner⟩ (by simp [elements]) d (List.mem_filter.mp hd).1
    · rcases List.mem_append.mp hx with hx | hx
      · exact hpi (fun y hy => h y (by simp [elements, hy])) x hx
      · exact hpr (fun y hy => h y (by simp [elements, hy])) x hx

/-- Names can still be written without the declarations that nothing uses. -/
theorem prune_stands {keep : List String} {scope' : Scope} (hst : c.Stands scope)
    (hs : ∀ d, c.uses d = true → (∃ f ∈ scope, d ∈ f.declarations) → ∃ f ∈ scope', d ∈ f.declarations) :
    (c.prune keep).Stands scope' := by
  induction c generalizing scope scope' with
  | nil => trivial
  | leaf l rest ih => exact ih hst hs
  | element id head inner rest ihi ihr =>
    refine ⟨Head.prune_stands hst.1 fun d hd hu => hs d (by simp [uses, hd, hu]), ihi hst.2.1 ?_,
      ihr hst.2.2 fun d hu => hs d (by simp [uses, hu])⟩
    intro d hu ⟨f, hf, hm⟩
    by_cases hin : d ∈ head.declarations
    · exact ⟨_, List.mem_cons_self, Head.mem_prune hin (.inr hu)⟩
    · have hf' : f ∈ scope := by
        rcases List.mem_cons.mp hf with rfl | hf
        · exact absurd hm hin
        · exact hf
      obtain ⟨g, hg, hm⟩ := hs d (by simp [uses, hin, hu]) ⟨f, hf', hm⟩
      exact ⟨g, List.mem_cons_of_mem _ hg, hm⟩

end Content

/-! ### Elements -/

namespace Element

variable {e : Element ι}

/-- Whether all names in the element can be written where they stand. -/
def Stands (e : Element ι) : Prop :=
  e.head.Stands [e.head.frame] ∧ e.inner.Stands [e.head.frame]

/-- What clearing an element of needless declarations keeps. -/
structure Tidied (e e' : Element ι) : Prop where
  name : e'.head.name = e.head.name
  default : ∀ d ∈ e'.head.declarations, d.short = none → d ∈ e.head.declarations
  head : e'.head.bare = e.head.bare
  inner : e'.inner.bare = e.inner.bare
  legible : e'.Legible
  plain : e'.Plain
  stands : e'.Stands

theorem relocate_spec {counter counter' : Nat} {e' : Element ι} (hl : e.Legible)
    (hp : ∀ x ∈ e.all, x.head.Plain)
    (hn : ∀ d, e.head.name.space = some d → d = .xml ∨ d ∈ e.head.declarations)
    (h : e.relocate counter = (e', counter')) :
    Tidied e e' ∧ e.head.declarations <+: e'.head.declarations := by
  unfold relocate at h
  dsimp only at h
  have declared : ∀ d ∈ e.head.declarations,
      Scope.Offers [(⟨[], counter⟩ : Supply).extend e.head.frame] d := fun d hd =>
    ⟨.inl (hl.1.declarations d hd), .inr ⟨_, List.mem_cons_self, List.mem_append_left _ hd⟩⟩
  have hs : Settled e.head.frame [] (e.head.declarations.map fun d => (d, d)) ⟨[], counter⟩ := by
    refine ⟨?_, ?_, ?_, ?_, nofun⟩
    · intro f hf d hd
      rw [List.mem_singleton.mp hf] at hd
      exact hl.1.declarations d (by simpa [Supply.extend, Head.frame] using hd)
    · intro f hf d hd
      rw [List.mem_singleton.mp hf] at hd
      rcases hn d hd with rfl | hm
      · exact ⟨.inr rfl, .inl rfl⟩
      · exact declared d hm
    · intro p hp
      obtain ⟨d, hd, rfl⟩ := List.mem_map.mp hp
      exact ⟨rfl, declared d hd⟩
    · simpa [Supply.extend, Head.frame] using hl.1.distinct
  rcases hname : relocateName e.head.frame (e.head.declarations.map fun d => (d, d)) ⟨[], counter⟩ false
    e.head.name with ⟨name, s₁⟩
  rw [hname] at h
  dsimp only at h
  rcases hattrs : relocateAttrs e.head.frame (e.head.declarations.map fun d => (d, d)) s₁ e.head.attrs with
    ⟨attrs, s₂⟩
  rw [hattrs] at h
  dsimp only at h
  rcases hinner : e.inner.relocate ⟨e.head.declarations, name.space⟩ []
    (e.head.declarations.map fun d => (d, d)) s₂ with ⟨inner, s₃⟩
  rw [hinner] at h
  cases h
  obtain ⟨hb, hm, hall, hst, hs₂, -⟩ := relocateNames_spec hs hl.1 (hp e List.mem_cons_self) hname hattrs
  obtain ⟨hbi, hli, hpi, hsti, hs₃, hx⟩ := Content.relocate_spec
    (hs₂.renamed fun d hd => (hst.space d hd).1) hl.2 (fun x hx => hp x (List.mem_cons_of_mem _ hx)) hinner
  have hroot : Scope.Within [s₂.extend e.head.frame] [s₃.extend e.head.frame] := by
    rw [← List.nil_append [s₂.extend _], ← List.nil_append [s₃.extend _]]
    exact within_extend hx
  have hframe : Scope.Within [s₂.extend e.head.frame] [s₃.extend ⟨e.head.declarations, name.space⟩] :=
    hroot.trans Scope.Within.named
  obtain rfl : name = e.head.name := (congrArg Prod.fst hname).symm.trans (relocateName_self hn)
  refine ⟨⟨rfl, ?_, ?_, hbi, ⟨⟨hst.legible, hs₃.legible _ List.mem_cons_self, hs₃.distinct, fun a ha => (hall a ha).1⟩,
    hli⟩, ?_, ⟨hst.mono hframe, fun a ha => (hall a ha).2.mono hframe⟩, hsti s₃ (List.prefix_refl _)⟩,
    List.prefix_append ..⟩
  · intro d hd hshort
    refine (List.mem_append.mp hd).resolve_right fun k => ?_
    have hs := (hs₃.added d k).1
    rw [hshort] at hs
    cases hs
  · simp only [Head.bare, hm]
  · intro x hx
    rcases List.mem_cons.mp hx with rfl | hx
    · intro d hd
      rcases List.mem_append.mp hd with hd | hd
      · exact (hp e List.mem_cons_self).declarations d hd
      · exact (hs₃.added d hd).2
    · exact hpi x hx

theorem prune_spec {keep : List String} {e' : Element ι} (h : Tidied e e') : Tidied e (e'.prune keep) := by
  obtain ⟨hb, hl, hp⟩ := Content.prune_spec keep e'.inner
  refine ⟨h.name, fun d hd => h.default d (List.mem_filter.mp hd).1, h.head, hb.trans h.inner, ⟨Head.prune_legible h.legible.1, hl h.legible.2⟩, ?_, ?_, ?_⟩
  · intro x hx
    rcases List.mem_cons.mp hx with rfl | hx
    · exact fun d hd => h.plain e' List.mem_cons_self d (List.mem_filter.mp hd).1
    · exact hp (fun y hy => h.plain y (List.mem_cons_of_mem _ hy)) x hx
  · exact Head.prune_stands h.stands.1 fun d _ _ k => absurd k (by simp)
  · refine Content.prune_stands h.stands.2 fun d hu ⟨f, hf, hm⟩ => ?_
    rw [List.mem_singleton.mp hf] at hm
    exact ⟨_, List.mem_cons_self, Head.mem_prune hm (.inr hu)⟩

end Element

end LiveSvg.Markup
