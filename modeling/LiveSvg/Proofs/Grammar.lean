import LiveSvg.Proofs.Isolation
/-!
The grammar of descriptors. Whether an object is one is told by the members of what it lists and by the names in
it, apart from how it is read; reading takes just those that are, and leaves what is listed in its order.
-/

namespace LiveSvg.Descriptor

open Json (bind_eq_ok)
open Value (Members.get?)

/-! ### The grammar -/

/-- The members of an object. -/
abbrev Fields := List (String × Value)

def Has (key : String) (ms : Fields) : Prop := key ∈ ms.map (·.1)

/-- Whether a text stands under a key, if anything does. -/
def TextAt (key : String) (ms : Fields) : Prop := ∀ v, Members.get? ms key = some v → ∃ s, v = .text s

def IsOfType (ms : Fields) (type : String) : Prop := Members.get? ms "type" = some (.text type)

/-- Whether the type of a behavior is one of those known. -/
def isKnown (ms : Fields) : Bool :=
  match Members.get? ms "type" with
  | some (.text type) => ["value", "action", "widgetAction"].contains type
  | _ => false

/-- Whether actions, if there are any, are objects, or false as conditions. -/
def Acts (ms : Fields) : Prop :=
  ∀ v, Members.get? ms "actions" = some v →
    v = .null ∨ ∃ actions, v = .object actions ∧ ∀ a ∈ actions, (∃ ns, a.2 = .object ns) ∨ a.2.truthy = false

/-- What is under a key is a list of objects, or there is nothing under it. -/
def Lists (ms : Fields) (key : String) (xs : List Fields) : Prop :=
  Members.get? ms key = some (.list (xs.map .object)) ∨ Members.get? ms key = none ∧ xs = []

/-- The objects that an object lists for a descriptor. Where they have names and types, these are texts. -/
structure Listing (ms : Fields) (ts bs ps : List Fields) : Prop where
  tags : Lists ms "tags" ts
  behaviors : Lists ms "behavior" bs
  properties : Lists ms "properties" ps
  tagNames : ∀ t ∈ ts, TextAt "tag" t
  behaviorIds : ∀ b ∈ bs, TextAt "id" b
  behaviorTypes : ∀ b ∈ bs, TextAt "type" b
  propertyIds : ∀ p ∈ ps, TextAt "id" p

/-- What stands under a key of several objects. -/
def under (key : String) (xs : List Fields) : List Value := xs.filterMap fun ms => Members.get? ms key

/-- The grammar of descriptors: which members the objects listed must have, and which names must not be
repeated. -/
structure Grammatical (ts bs ps : List Fields) : Prop where
  tag : ∀ t ∈ ts, Has "tag" t ∧ Acts t
  value : ∀ b ∈ bs, IsOfType b "value" → Has "id" b ∧ Has "valueId" b
  action : ∀ b ∈ bs, IsOfType b "action" ∨ IsOfType b "widgetAction" → Has "id" b
  property : ∀ p ∈ ps, Has "id" p ∧ Has "type" p
  tagNames : (under "tag" ts).Nodup
  behaviorIds : (under "id" (bs.filter isKnown)).Nodup
  propertyIds : (under "id" ps).Nodup

/-- The entries of a descriptor are those of the objects listed, one for one and in order; behaviors of
unknown types are left out. -/
structure Entries (ts bs ps : List Fields) (d : Descriptor) : Prop where
  tags : List.Forall₂ (fun t t' => tagOf (.object t) = .ok t') ts d.tags
  behaviors : List.Forall₂ (fun b b' => behaviorOf (.object b) = .ok (some b')) (bs.filter isKnown) d.behaviors
  properties : List.Forall₂ (fun p p' => propertyOf (.object p) = .ok p') ps d.properties

/-! ### Entries -/

section

variable {ms : Fields} {key : String} {v : Value}

theorem required_eq_ok : required ms key = .ok v ↔ Members.get? ms key = some v := by
  unfold required
  cases Members.get? ms key <;> simp

theorem exists_required : (∃ v, required ms key = .ok v) ↔ Has key ms := by
  simp only [required_eq_ok]
  constructor
  · rintro ⟨v, hv⟩
    exact List.mem_map_of_mem (f := (·.1)) (Value.Members.mem_of_get? hv)
  · exact Value.Members.exists_get?

theorem actionOf_isOk : (∃ source, actionOf v = .ok source) ↔ (∃ ns, v = .object ns) ∨ v.truthy = false := by
  unfold actionOf
  cases ht : v.truthy with
  | false => simp [members?, bind, Except.bind, pure, Except.pure]
  | true => cases v <;> simp [members?, bind, Except.bind, pure, Except.pure]

theorem mapM_eq_ok {ε α β : Type} {f : α → Except ε β} {xs : List α} {ys : List β} :
    xs.mapM f = .ok ys ↔ List.Forall₂ (fun x y => f x = .ok y) xs ys := by
  induction xs generalizing ys with
  | nil =>
    rw [List.forall₂_nil_left_iff]
    exact ⟨fun h => (Except.ok.inj h).symm, fun h => congrArg Except.ok h.symm⟩
  | cons x xs ih =>
    rw [List.mapM_cons, List.forall₂_cons_left_iff]
    constructor
    · intro h
      obtain ⟨y, hy, h⟩ := bind_eq_ok.mp h
      obtain ⟨ys', hys, h⟩ := bind_eq_ok.mp h
      exact ⟨y, ys', hy, ih.mp hys, (Except.ok.inj h).symm⟩
    · rintro ⟨y, ys', hy, hys, rfl⟩
      exact bind_eq_ok.mpr ⟨y, hy, bind_eq_ok.mpr ⟨ys', ih.mpr hys, rfl⟩⟩

theorem mapM_isOk {ε α β : Type} {f : α → Except ε β} {xs : List α} :
    (∃ ys, xs.mapM f = .ok ys) ↔ ∀ x ∈ xs, ∃ y, f x = .ok y := by
  simp only [mapM_eq_ok]
  constructor
  · rintro ⟨ys, h⟩ x hx
    induction h with
    | nil => cases hx
    | cons hxy _ ih =>
      rcases List.mem_cons.mp hx with rfl | hx
      · exact ⟨_, hxy⟩
      · exact ih hx
  · intro h
    induction xs with
    | nil => exact ⟨[], .nil⟩
    | cons x xs ih =>
      obtain ⟨y, hy⟩ := h x List.mem_cons_self
      obtain ⟨ys, hys⟩ := ih fun x hx => h x (List.mem_cons_of_mem _ hx)
      exact ⟨y :: ys, .cons hy hys⟩

theorem actionsOf_isOk {v : Value} : (∃ actions, actionsOf v = .ok actions) ↔
    v = .null ∨ ∃ actions, v = .object actions ∧ ∀ a ∈ actions, (∃ ns, a.2 = .object ns) ∨ a.2.truthy = false := by
  cases v with
  | null => simp [actionsOf]
  | object ms =>
    have hmap : (∃ actions, actionsOf (.object ms) = .ok actions) ↔
        ∃ actions, ms.mapM (fun m => do return (m.1, ← actionOf m.2)) = (.ok actions : Except Problem Fields) := by
      constructor
      · rintro ⟨actions, h⟩
        obtain ⟨_, hms, h⟩ := bind_eq_ok.mp h
        cases hms
        obtain ⟨actions, h, -⟩ := bind_eq_ok.mp h
        exact ⟨actions, h⟩
      · rintro ⟨actions, h⟩
        exact ⟨some actions, bind_eq_ok.mpr ⟨ms, rfl, bind_eq_ok.mpr ⟨actions, h, rfl⟩⟩⟩
    rw [hmap, mapM_isOk]
    have hpair : ∀ m : String × Value, (∃ a, (do return (m.1, ← actionOf m.2) : Except Problem _) = .ok a) ↔
        (∃ ns, m.2 = .object ns) ∨ m.2.truthy = false := by
      intro m
      rw [← actionOf_isOk]
      constructor
      · rintro ⟨a, h⟩
        obtain ⟨source, h, -⟩ := bind_eq_ok.mp h
        exact ⟨source, h⟩
      · rintro ⟨source, h⟩
        exact ⟨_, bind_eq_ok.mpr ⟨source, h, rfl⟩⟩
    constructor
    · intro h
      exact .inr ⟨ms, rfl, fun a ha => (hpair a).mp (h a ha)⟩
    · rintro (h | ⟨_, h, hall⟩)
      · cases h
      · cases h
        exact fun a ha => (hpair a).mpr (hall a ha)
  | _ => simp [actionsOf, members?, bind, Except.bind]

theorem tagOf_eq_ok {t : Tag} : tagOf (.object ms) = .ok t ↔ Members.get? ms "tag" = some t.name ∧
    t.render = optional ms "stateRenderFunction" .null ∧
      actionsOf (optional ms "actions" .null) = .ok t.actions := by
  obtain ⟨name, render, actions⟩ := t
  constructor
  · intro h
    obtain ⟨_, hms, h⟩ := bind_eq_ok.mp h
    cases hms
    obtain ⟨_, hn, h⟩ := bind_eq_ok.mp h
    obtain ⟨_, ha, h⟩ := bind_eq_ok.mp h
    cases h
    exact ⟨required_eq_ok.mp hn, rfl, ha⟩
  · rintro ⟨hn, rfl, ha⟩
    exact bind_eq_ok.mpr ⟨ms, rfl, bind_eq_ok.mpr ⟨name, required_eq_ok.mpr hn, bind_eq_ok.mpr ⟨actions, ha, rfl⟩⟩⟩

theorem tagOf_isOk : (∃ t, tagOf (.object ms) = .ok t) ↔ Has "tag" ms ∧ Acts ms := by
  have hacts : (∃ actions, actionsOf (optional ms "actions" .null) = .ok actions) ↔ Acts ms := by
    rw [actionsOf_isOk, Acts, optional]
    cases Members.get? ms "actions" <;> simp
  rw [← exists_required, ← hacts]
  simp only [required_eq_ok, tagOf_eq_ok]
  constructor
  · rintro ⟨t, hn, -, ha⟩
    exact ⟨⟨_, hn⟩, _, ha⟩
  · rintro ⟨⟨name, hn⟩, actions, ha⟩
    exact ⟨⟨name, _, actions⟩, hn, rfl, ha⟩

theorem propertyOf_members {p : Property} (h : propertyOf (.object ms) = .ok p) :
    Members.get? ms "id" = some p.id ∧ Members.get? ms "type" = some p.type := by
  obtain ⟨_, hms, h⟩ := bind_eq_ok.mp h
  cases hms
  obtain ⟨id, hi, h⟩ := bind_eq_ok.mp h
  obtain ⟨type, ht, h⟩ := bind_eq_ok.mp h
  cases h
  exact ⟨required_eq_ok.mp hi, required_eq_ok.mp ht⟩

theorem propertyOf_isOk : (∃ p, propertyOf (.object ms) = .ok p) ↔ Has "id" ms ∧ Has "type" ms := by
  rw [← exists_required, ← exists_required]
  constructor
  · rintro ⟨p, h⟩
    obtain ⟨hi, ht⟩ := propertyOf_members h
    exact ⟨⟨_, required_eq_ok.mpr hi⟩, _, required_eq_ok.mpr ht⟩
  · rintro ⟨⟨id, hi⟩, type, ht⟩
    exact ⟨_, bind_eq_ok.mpr ⟨ms, rfl, bind_eq_ok.mpr ⟨id, hi, bind_eq_ok.mpr ⟨type, ht, rfl⟩⟩⟩⟩

theorem isOfType_iff {type : String} (hne : type ≠ "") :
    IsOfType ms type ↔ optional ms "type" (.text "") = .text type := by
  unfold IsOfType optional
  cases Members.get? ms "type" with
  | none => simp [hne.symm]
  | some v => simp

/-- What an object is read as for a behavior: one of the type that it names, under its id, or none if the
type is not known. -/
theorem behaviorOf_cases {b : Option Behavior} (h : behaviorOf (.object ms) = .ok b) :
    (∃ b', b = some b' ∧ Members.get? ms "id" = some b'.id ∧ IsOfType ms (kindName b'.kind)) ∨
      b = none ∧ isKnown ms = false := by
  obtain ⟨_, hms, h⟩ := bind_eq_ok.mp h
  cases hms
  dsimp only at h
  split at h
  · cases h
  · split at h
    · next ht =>
      obtain ⟨id, hi, h⟩ := bind_eq_ok.mp h
      obtain ⟨valueId, -, h⟩ := bind_eq_ok.mp h
      cases h
      exact .inl ⟨_, rfl, required_eq_ok.mp hi, (isOfType_iff (by simp [kindName])).mpr ht⟩
    · next ht =>
      obtain ⟨id, hi, h⟩ := bind_eq_ok.mp h
      cases h
      exact .inl ⟨_, rfl, required_eq_ok.mp hi, (isOfType_iff (by simp [kindName])).mpr ht⟩
    · next ht =>
      obtain ⟨id, hi, h⟩ := bind_eq_ok.mp h
      cases h
      exact .inl ⟨_, rfl, required_eq_ok.mp hi, (isOfType_iff (by simp [kindName])).mpr ht⟩
    · next hv ha hw =>
      cases h
      refine .inr ⟨rfl, ?_⟩
      unfold isKnown
      split
      · next type ht =>
        have htype : optional ms "type" (.text "") = .text type := by rw [optional, ht, Option.getD_some]
        rw [htype] at hv ha hw
        simp only [Value.text.injEq] at hv ha hw
        simp only [List.contains_eq_mem, decide_eq_false_iff_not, List.mem_cons, List.not_mem_nil, or_false, not_or]
        exact ⟨hv, ha, hw⟩
      · rfl

theorem behaviorOf_members {b : Behavior} (h : behaviorOf (.object ms) = .ok (some b)) :
    Members.get? ms "id" = some b.id ∧ IsOfType ms (kindName b.kind) := by
  rcases behaviorOf_cases h with ⟨_, he, hmembers⟩ | ⟨he, -⟩
  · cases he
    exact hmembers
  · cases he

/-- The behavior of an object is passed over if its type is not known, and only then. -/
theorem isSome_of_behaviorOf {b : Option Behavior} (h : behaviorOf (.object ms) = .ok b) : b.isSome = isKnown ms := by
  rcases behaviorOf_cases h with ⟨b', rfl, -, htype⟩ | ⟨rfl, hknown⟩
  · rw [isKnown, htype]
    cases b'.kind <;> rfl
  · exact hknown.symm

theorem behaviorOf_isOk (ht : TextAt "type" ms) : (∃ b, behaviorOf (.object ms) = .ok b) ↔
    (IsOfType ms "value" → Has "id" ms ∧ Has "valueId" ms) ∧
    (IsOfType ms "action" ∨ IsOfType ms "widgetAction" → Has "id" ms) := by
  obtain ⟨type, htype⟩ : ∃ type, optional ms "type" (.text "") = .text type := by
    unfold optional
    cases hget : Members.get? ms "type" with
    | none => exact ⟨"", rfl⟩
    | some v => exact ht v hget
  rw [isOfType_iff (by decide), isOfType_iff (by decide), isOfType_iff (by decide), htype]
  rw [← exists_required, ← exists_required]
  unfold behaviorOf
  by_cases hv : type = "value"
  · subst hv
    cases hi : required ms "id" <;> cases hw : required ms "valueId" <;>
      simp [members?, bind, Except.bind, pure, Except.pure, htype, isName, hi, hw]
  · by_cases ha : type = "action"
    · subst ha
      cases hi : required ms "id" <;>
        simp [members?, bind, Except.bind, pure, Except.pure, htype, isName, hi]
    · by_cases hg : type = "widgetAction"
      · subst hg
        cases hi : required ms "id" <;>
          simp [members?, bind, Except.bind, pure, Except.pure, htype, isName, hi]
      · simp [members?, bind, Except.bind, pure, Except.pure, htype, isName, hv, ha, hg]

end

/-! ### Lists of objects -/

theorem forall₂_filter {α β : Type} {R : α → Option β → Prop} {p : α → Bool} {xs : List α} {ys : List (Option β)}
    (hp : ∀ x y, R x y → y.isSome = p x) (h : List.Forall₂ R xs ys) :
    List.Forall₂ (fun x y => R x (some y)) (xs.filter p) (ys.filterMap id) := by
  induction h with
  | nil => exact .nil
  | @cons x y xs ys hxy _ ih =>
    have hx := hp x y hxy
    cases y with
    | none => rwa [List.filter_cons_of_neg (by simp [← hx])]
    | some y =>
      rw [List.filter_cons_of_pos (by simp [← hx])]
      exact .cons hxy ih

theorem filterMap_of_forall₂ {α β γ : Type} {f : α → Option γ} {g : β → γ} {xs : List α} {ys : List β}
    (h : List.Forall₂ (fun x y => f x = some (g y)) xs ys) : xs.filterMap f = ys.map g := by
  induction h with
  | nil => rfl
  | cons hxy _ ih => rw [List.filterMap_cons_some hxy, ih, List.map_cons]

theorem items_of_lists {ms : Fields} {key : String} {xs : List Fields} (h : Lists ms key xs) :
    items ms key = .ok (xs.map .object) := by
  rcases h with h | ⟨h, rfl⟩ <;> rw [items, h]
  rfl

section

variable {ms : Fields} {ts bs ps : List Fields} {d : Descriptor} {text : String}

theorem ofValue_listing (listing : Listing ms ts bs ps) : ofValue (.object ms) = do
    let behaviors ← (bs.map Value.object).mapM behaviorOf
    let tags ← (ts.map Value.object).mapM tagOf
    let properties ← (ps.map Value.object).mapM propertyOf
    return ⟨optional ms "title" (.text ""), optional ms "stateRenderFunction" .null, tags,
      behaviors.filterMap id, properties⟩ := by
  unfold ofValue
  dsimp only
  rw [items_of_lists listing.behaviors, items_of_lists listing.tags, items_of_lists listing.properties]
  rfl

theorem entries_of_ofValue (listing : Listing ms ts bs ps) (h : ofValue (.object ms) = .ok d) : Entries ts bs ps d := by
  rw [ofValue_listing listing] at h
  obtain ⟨behaviors, hb, h⟩ := bind_eq_ok.mp h
  obtain ⟨tags, ht, h⟩ := bind_eq_ok.mp h
  obtain ⟨properties, hp, h⟩ := bind_eq_ok.mp h
  cases h
  rw [mapM_eq_ok, List.forall₂_map_left_iff] at hb ht hp
  exact ⟨ht, forall₂_filter (fun _ _ hx => isSome_of_behaviorOf hx) hb, hp⟩

theorem ofValue_isOk (listing : Listing ms ts bs ps) : (∃ d, ofValue (.object ms) = .ok d) ↔
    (∀ t ∈ ts, ∃ t', tagOf (.object t) = .ok t') ∧ (∀ b ∈ bs, ∃ b', behaviorOf (.object b) = .ok b') ∧
      ∀ p ∈ ps, ∃ p', propertyOf (.object p) = .ok p' := by
  have hlisted : ∀ {α : Type} {f : Value → Except Problem α} {xs : List Fields},
      (∃ ys, (xs.map Value.object).mapM f = .ok ys) ↔ ∀ x ∈ xs, ∃ y, f (.object x) = .ok y := by
    intro α f xs
    rw [mapM_isOk, List.forall_mem_map]
  rw [← hlisted, ← hlisted, ← hlisted, ofValue_listing listing]
  constructor
  · rintro ⟨d, h⟩
    obtain ⟨behaviors, hb, h⟩ := bind_eq_ok.mp h
    obtain ⟨tags, ht, h⟩ := bind_eq_ok.mp h
    obtain ⟨properties, hp, h⟩ := bind_eq_ok.mp h
    exact ⟨⟨tags, ht⟩, ⟨behaviors, hb⟩, properties, hp⟩
  · rintro ⟨⟨tags, ht⟩, ⟨behaviors, hb⟩, properties, hp⟩
    exact ⟨_, bind_eq_ok.mpr ⟨behaviors, hb, bind_eq_ok.mpr ⟨tags, ht, bind_eq_ok.mpr ⟨properties, hp, rfl⟩⟩⟩⟩

/-! ### Names -/

theorem Entries.namings (h : Entries ts bs ps d) :
    d.namings = [under "tag" ts, under "id" (bs.filter isKnown), under "id" ps] := by
  have ht : under "tag" ts = d.tags.map (·.name) :=
    filterMap_of_forall₂ (h.tags.imp fun _ _ hx => (tagOf_eq_ok.mp hx).1)
  have hb : under "id" (bs.filter isKnown) = d.behaviors.map (·.id) :=
    filterMap_of_forall₂ (h.behaviors.imp fun _ _ hx => (behaviorOf_members hx).1)
  have hp : under "id" ps = d.properties.map (·.id) :=
    filterMap_of_forall₂ (h.properties.imp fun _ _ hx => (propertyOf_members hx).1)
  rw [ht, hb, hp]
  rfl

theorem texts_under {key : String} {xs : List Fields} (h : ∀ x ∈ xs, TextAt key x) :
    ∀ n ∈ under key xs, ∃ s, n = .text s := by
  intro n hn
  obtain ⟨x, hx, hget⟩ := List.mem_filterMap.mp hn
  exact h x hx n hget

theorem Listing.texts (listing : Listing ms ts bs ps) :
    ∀ ns ∈ [under "tag" ts, under "id" (bs.filter isKnown), under "id" ps], ∀ n ∈ ns, ∃ s, n = .text s := by
  simp only [List.forall_mem_cons]
  refine ⟨texts_under listing.tagNames, texts_under fun b hb => ?_, texts_under listing.propertyIds, by simp⟩
  exact listing.behaviorIds b (List.mem_of_mem_filter hb)

theorem apart_iff_nodup {ns : List Value} (texts : ∀ n ∈ ns, ∃ s, n = .text s) : Apart ns ↔ ns.Nodup := by
  constructor
  · intro h
    have hmap : (ns.map id).Nodup := nodup_of_pairwise texts h.2
    rwa [List.map_id] at hmap
  · intro h
    constructor
    · intro n hn
      obtain ⟨s, rfl⟩ := texts n hn
      rfl
    · refine h.imp_of_mem fun {n n'} _ hn' hne => ?_
      obtain ⟨s, rfl⟩ := texts n' hn'
      rw [Bool.eq_false_iff]
      exact fun he => hne (sameName_text he)

theorem parse_of_read {v : Value} (hread : Json.read text = .ok v) :
    parse text = .ok d ↔ ofValue v = .ok d ∧ ∀ ns ∈ d.namings, Apart ns := by
  rw [parse_eq_ok, hread]
  simp

/-- Where all names are texts, a value that was read is refused as no descriptor if it is none. -/
theorem refused_of_texts {v : Value} {p : Problem} (hread : Json.read text = .ok v)
    (texts : ∀ d, ofValue v = .ok d → ∀ ns ∈ d.namings, ∀ n ∈ ns, ∃ s, n = .text s) (h : parse text = .error p) :
    p.IsForeseen := by
  by_contra hp
  rcases escapes_iff.mpr ⟨p, h, hp⟩ with hhuge | ⟨v', d, hread', hd, before, ns, after, hnamings, -, hlack⟩
  · rw [hread] at hhuge
    cases hhuge
  · rw [hread] at hread'
    cases hread'
    obtain ⟨good, bad, rest, rfl, -, hbad⟩ := hlack
    obtain ⟨s, rfl⟩ := texts d hd (good ++ bad :: rest) (by simp [hnamings]) bad (by simp)
    cases hbad

/-- A text is read as a descriptor if, and only if, what it lists is grammatical. -/
theorem parse_isOk (hread : Json.read text = .ok (.object ms)) (listing : Listing ms ts bs ps) :
    (∃ d, parse text = .ok d) ↔ Grammatical ts bs ps := by
  constructor
  · rintro ⟨d, hd⟩
    obtain ⟨hof, hapart⟩ := (parse_of_read hread).mp hd
    obtain ⟨ht, hb, hp⟩ := (ofValue_isOk listing).mp ⟨d, hof⟩
    rw [(entries_of_ofValue listing hof).namings] at hapart
    have hnodup := fun ns hns => (apart_iff_nodup (listing.texts ns hns)).mp (hapart ns hns)
    simp only [List.forall_mem_cons] at hnodup
    have hbehavior := fun b h => (behaviorOf_isOk (listing.behaviorTypes b h)).mp (hb b h)
    exact ⟨fun t h => tagOf_isOk.mp (ht t h), fun b h => (hbehavior b h).1, fun b h => (hbehavior b h).2,
      fun p h => propertyOf_isOk.mp (hp p h), hnodup.1, hnodup.2.1, hnodup.2.2.1⟩
  · intro grammatical
    obtain ⟨d, hof⟩ := (ofValue_isOk listing).mpr ⟨fun t h => tagOf_isOk.mpr (grammatical.tag t h),
      fun b h => (behaviorOf_isOk (listing.behaviorTypes b h)).mpr ⟨grammatical.value b h, grammatical.action b h⟩,
      fun p h => propertyOf_isOk.mpr (grammatical.property p h)⟩
    have hnodup : ∀ ns ∈ [under "tag" ts, under "id" (bs.filter isKnown), under "id" ps], ns.Nodup := by
      simp only [List.forall_mem_cons]
      exact ⟨grammatical.tagNames, grammatical.behaviorIds, grammatical.propertyIds, by simp⟩
    refine ⟨d, (parse_of_read hread).mpr ⟨hof, ?_⟩⟩
    rw [(entries_of_ofValue listing hof).namings]
    exact fun ns hns => (apart_iff_nodup (listing.texts ns hns)).mpr (hnodup ns hns)

/-! ### Looking up -/

theorem find?_eq_some_iff_of_nodup {α : Type} {name : α → Value} {l : List α} (texts : ∀ a ∈ l, ∃ s, name a = .text s)
    (distinct : (l.map name).Nodup) {id : Value} {a : α} :
    l.find? (fun a => (name a).same id) = some a ↔ a ∈ l ∧ name a = id := by
  have hsame : ∀ a ∈ l, (name a).same id = true ↔ name a = id := by
    intro a ha
    obtain ⟨s, hs⟩ := texts a ha
    rw [hs]
    cases id <;> simp [Value.same]
  constructor
  · intro h
    have hmem := List.mem_of_find?_eq_some h
    have hfound := List.find?_some h
    exact ⟨hmem, (hsame a hmem).mp hfound⟩
  · rintro ⟨ha, rfl⟩
    cases hfind : l.find? (fun b => (name b).same (name a)) with
    | none => exact absurd ((hsame a ha).mpr rfl) (by simpa using List.find?_eq_none.mp hfind a ha)
    | some b =>
      have hb := List.mem_of_find?_eq_some hfind
      have hfound := List.find?_some hfind
      have he : name b = name a := (hsame b hb).mp hfound
      rw [List.inj_on_of_nodup_map distinct hb ha he]

end

/-- The grammar of descriptors. A JSON text that holds lists of objects under the keys of a descriptor, with
texts for names and types, is read as one if, and only if, the objects are grammatical, and is refused as none
otherwise. The descriptor has their entries, and under each name the one entry that has it is found. -/
theorem parse_grammar {text : String} {ms : Fields} {ts bs ps : List Fields} (hread : Json.read text = .ok (.object ms))
    (listing : Listing ms ts bs ps) :
    ((∃ d, parse text = .ok d) ↔ Grammatical ts bs ps) ∧
    (¬ Grammatical ts bs ps → ∃ p, parse text = .error p ∧ p.failure.cause = .descriptor) ∧
    ∀ d, parse text = .ok d → Entries ts bs ps d ∧
      d.namings = [under "tag" ts, under "id" (bs.filter isKnown), under "id" ps] ∧
      under "type" (bs.filter isKnown) = d.behaviors.map (fun b => .text (kindName b.kind)) ∧
      (∀ id b, d.behavior? id = some b ↔ b ∈ d.behaviors ∧ b.id = id) ∧
      ∀ id p, d.property? id = some p ↔ p ∈ d.properties ∧ p.id = id := by
  have haccepted := parse_isOk hread listing
  refine ⟨haccepted, fun hnot => ?_, fun d hd => ?_⟩
  · cases hp : parse text with
    | ok d => exact absurd (haccepted.mp ⟨d, hp⟩) hnot
    | error p =>
      refine ⟨p, rfl, refused_of_texts hread (fun d hd => ?_) hp⟩
      rw [(entries_of_ofValue listing hd).namings]
      exact listing.texts
  · obtain ⟨hof, hapart⟩ := (parse_of_read hread).mp hd
    have hentries := entries_of_ofValue listing hof
    have htexts : ∀ ns ∈ d.namings, ∀ n ∈ ns, ∃ s, n = .text s := hentries.namings ▸ listing.texts
    have hnodup := fun ns hns => (apart_iff_nodup (htexts ns hns)).mp (hapart ns hns)
    simp only [namings, List.forall_mem_cons, List.forall_mem_map] at htexts hnodup
    have htypes : under "type" (bs.filter isKnown) = d.behaviors.map (fun b => .text (kindName b.kind)) :=
      filterMap_of_forall₂ (hentries.behaviors.imp fun _ _ hx => (behaviorOf_members hx).2)
    exact ⟨hentries, hentries.namings, htypes, fun id b => find?_eq_some_iff_of_nodup htexts.2.1 hnodup.2.1,
      fun id p => find?_eq_some_iff_of_nodup htexts.2.2.1 hnodup.2.2.1⟩

/-- A text with an action script that is null, a behavior of an unknown type and no names repeated. -/
def pumpText : String :=
  "\x7b\"tags\":[\x7b\"tag\":\"pump\",\"actions\":\x7b\"click\":null\x7d\x7d]," ++
    "\"behavior\":[\x7b\"id\":\"on\",\"type\":\"action\"\x7d,\x7b\"id\":\"on\",\"type\":\"other\"\x7d]\x7d"

def pumpTags : List Fields := [[("tag", .text "pump"), ("actions", .object [("click", .null)])]]

def pumpBehaviors : List Fields :=
  [[("id", .text "on"), ("type", .text "action")], [("id", .text "on"), ("type", .text "other")]]

def pumpMembers : Fields :=
  [("tags", .list (pumpTags.map .object)), ("behavior", .list (pumpBehaviors.map .object))]

set_option maxRecDepth 100000 in
/-- It is the text of a descriptor. -/
theorem parse_grammar_pump : ∃ d, parse pumpText = .ok d ∧ Entries pumpTags pumpBehaviors [] d := by
  have hread : Json.read pumpText = .ok (.object pumpMembers) := rfl
  have htexts : (∀ t ∈ pumpTags, TextAt "tag" t) ∧ (∀ b ∈ pumpBehaviors, TextAt "id" b) ∧
      ∀ b ∈ pumpBehaviors, TextAt "type" b := by
    simp [pumpTags, pumpBehaviors, TextAt, Members.get?]
  have listing : Listing pumpMembers pumpTags pumpBehaviors [] :=
    ⟨.inl rfl, .inl rfl, .inr ⟨rfl, rfl⟩, htexts.1, htexts.2.1, htexts.2.2, by simp⟩
  obtain ⟨haccepted, -, hentries⟩ := parse_grammar hread listing
  have grammatical : Grammatical pumpTags pumpBehaviors [] := by
    constructor <;> simp [pumpTags, pumpBehaviors, Has, Acts, IsOfType, under, isKnown, Members.get?, Value.truthy]
  obtain ⟨d, hd⟩ := haccepted.mpr grammatical
  exact ⟨d, hd, (hentries d hd).1⟩

end LiveSvg.Descriptor
