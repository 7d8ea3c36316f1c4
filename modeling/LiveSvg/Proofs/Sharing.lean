import LiveSvg.Proofs.Typed
/-!
Settings of descriptors in which a behavior may be named as a property is. What is under the name is then the
property's, in the defaults and in the settings alike, and the behavior has settings only if that fits it too.
-/

namespace LiveSvg

variable {α β : Type}

namespace Settings

open Value (Members.get?)

/-! ### Names in tables -/

namespace Table

open Descriptor (sameName sameName_text sameName_symm sameName_text_self)

variable {name : β → Value} {f : β → α} {l : List β} {t : Table α}

theorem keys_set_of_mem {s : String} (h : Value.text s ∈ t.map (·.1)) (a : α) :
    (t.set (.text s) a).map (·.1) = t.map (·.1) := by
  induction t with
  | nil => cases h
  | cons e t ih =>
    obtain ⟨k, b⟩ := e
    by_cases hk : sameName k (.text s) = true
    · rw [set, if_pos hk]
      rfl
    · have hne : Value.text s ≠ k := by
        intro he
        rw [← he, sameName_text_self] at hk
        exact hk rfl
      have hrest : Value.text s ∈ t.map (·.1) := (List.mem_cons.mp h).resolve_left hne
      rw [set, if_neg hk, List.map_cons, List.map_cons, ih hrest]

/-- Whatever is set one after another, there is one entry for each name. -/
theorem keys_foldl_set (texts : ∀ b ∈ l, ∃ s, name b = .text s) (distinct : (t.map (·.1)).Nodup) :
    ((l.foldl (fun t b => t.set (name b) (f b)) t).map (·.1)).Nodup ∧
      ∀ k, k ∈ (l.foldl (fun t b => t.set (name b) (f b)) t).map (·.1) ↔ k ∈ t.map (·.1) ∨ k ∈ l.map name := by
  induction l generalizing t with
  | nil => exact ⟨distinct, fun k => by simp⟩
  | cons b l ih =>
    obtain ⟨s, hs⟩ := texts b List.mem_cons_self
    have htexts : ∀ b ∈ l, ∃ s, name b = .text s := fun b hb => texts b (List.mem_cons_of_mem _ hb)
    rw [List.foldl_cons, hs]
    by_cases hmem : Value.text s ∈ t.map (·.1)
    · have hkeys := keys_set_of_mem hmem (f b)
      obtain ⟨hn, hk⟩ := ih htexts (hkeys ▸ distinct)
      refine ⟨hn, fun k => ?_⟩
      rw [hk, hkeys, List.map_cons, List.mem_cons, hs]
      constructor
      · exact fun h => h.imp_right .inr
      · rintro (h | rfl | h)
        · exact .inl h
        · exact .inl hmem
        · exact .inr h
    · have hkeys : (t.set (.text s) (f b)).map (·.1) = t.map (·.1) ++ [.text s] := by
        rw [set_new hmem, List.map_append]
        rfl
      have hdistinct : ((t.set (.text s) (f b)).map (·.1)).Nodup := by
        rw [hkeys, List.nodup_append]
        refine ⟨distinct, List.nodup_singleton _, ?_⟩
        intro k hk k' hk' he
        rw [List.mem_singleton.mp hk'] at he
        exact hmem (he ▸ hk)
      obtain ⟨hn, hk⟩ := ih htexts hdistinct
      refine ⟨hn, fun k => ?_⟩
      rw [hk, hkeys, List.mem_append, List.mem_singleton, List.map_cons, List.mem_cons, hs, or_assoc]

end Table

/-! ### Behaviors one after the other -/

variable {defaults merged : Table Value} {b : Behavior} {v default : Value}

/-- A behavior takes what is merged under its name, or else the default under it, and fails without either. -/
theorem resolveBehavior_snd (hd : defaults.get? b.id = some default) (hm : merged.get? b.id = some v) :
    (resolveBehavior defaults merged b).2 =
      ((entryOf? b.kind v).or (entryOf? b.kind default)).elim (.error invalid) .ok := by
  rw [resolveBehavior, hm, hd, Option.getD_some, Option.getD_some]
  cases entryOf? b.kind v with
  | some e => rfl
  | none => cases entryOf? b.kind default <;> rfl

/-- A behavior has settings of its kind, or else it fails as having none that are valid. -/
theorem resolveBehavior_cases (defaults merged : Table Value) (b : Behavior) :
    (∃ e, (resolveBehavior defaults merged b).2 = .ok e ∧ Suits b.kind e) ∨
      (resolveBehavior defaults merged b).2 = .error invalid := by
  unfold resolveBehavior
  split
  · next he => exact .inl ⟨_, rfl, _, he⟩
  · dsimp only
    split
    · next he => exact .inl ⟨_, rfl, _, he⟩
    · exact .inr rfl

theorem suits_of_resolveBehavior {e : Entry} (h : (resolveBehavior defaults merged b).2 = .ok e) :
    Suits b.kind e := by
  rcases resolveBehavior_cases defaults merged b with ⟨e', he, suits⟩ | he
  · rw [h] at he
    cases he
    exact suits
  · rw [h] at he
    cases he

/-- One behavior without settings is enough for there to be none. -/
theorem resolveBehaviors_error {l : List Behavior} (h : ∃ b ∈ l, ∀ e, (resolveBehavior defaults merged b).2 ≠ .ok e)
    (done : Table Entry) : (resolveBehaviors defaults merged done l).2 = .error invalid := by
  induction l generalizing done with
  | nil =>
    obtain ⟨b, hb, -⟩ := h
    cases hb
  | cons c l ih =>
    rw [resolveBehaviors]
    rcases hc : resolveBehavior defaults merged c with ⟨log, e | entry⟩
    · have he : (.error e : Except Failure Entry) = .error invalid := by
        rcases resolveBehavior_cases defaults merged c with ⟨e', he, -⟩ | he
        · rw [hc] at he
          cases he
        · rw [hc] at he
          exact he
      exact congrArg Except.error (Except.error.inj he)
    · obtain ⟨b, hb, hnone⟩ := h
      have hrest : ∃ b ∈ l, ∀ e, (resolveBehavior defaults merged b).2 ≠ .ok e := by
        rcases List.mem_cons.mp hb with rfl | hb
        · exact absurd (congrArg Prod.snd hc) (hnone entry)
        · exact ⟨b, hb, hnone⟩
      exact ih hrest (done.set c.id entry)

theorem resolve_of_error {d : Descriptor} {overrides : Value} {table : Table Value} {os : List (String × Value)}
    {e : Failure} (hd : Settings.defaults d = .ok table) (ho : overridesOf overrides = .ok os)
    (hb : (resolveBehaviors table (mergeTable table os) [] d.behaviors).2 = .error e) :
    (resolve d overrides).2 = .error e := by
  unfold resolve
  rw [hd, ho]
  dsimp only [bind, Except.bind, pure, Except.pure]
  rcases hall : resolveBehaviors table (mergeTable table os) [] d.behaviors with ⟨log, f | entries⟩
  · rw [hall] at hb
    exact hb
  · rw [hall] at hb
    cases hb

end Settings

/-! ### All names -/

/-- Names are texts, and what actions say of their data is text. -/
structure Descriptor.Spelled (d : Descriptor) : Prop where
  behaviors : ∀ b ∈ d.behaviors, ∃ s, b.id = .text s
  properties : ∀ p ∈ d.properties, ∃ s, p.id = .text s
  worded : ∀ b ∈ d.behaviors, Settings.isWorded b.kind

namespace Settings

open Descriptor (sameName sameName_text)

/-- What behaviors and then properties put under their names. -/
def Table.named (d : Descriptor) (f : Behavior → α) (g : Property → α) : Table α :=
  d.properties.foldl (fun t p => t.set p.id (g p)) (d.behaviors.foldl (fun t b => t.set b.id (f b)) [])

section Descriptor

variable {d : Descriptor} {f : Behavior → α} {g : Property → α} {b : Behavior} {p : Property}

theorem keys_named (spelled : d.Spelled) : ((Table.named d f g).map (·.1)).Nodup ∧
    ∀ k, k ∈ (Table.named d f g).map (·.1) ↔ k ∈ d.behaviors.map (·.id) ∨ k ∈ d.properties.map (·.id) := by
  obtain ⟨hn, hk⟩ := Table.keys_foldl_set (f := f) spelled.behaviors (t := []) List.nodup_nil
  obtain ⟨hn', hk'⟩ := Table.keys_foldl_set (f := g) spelled.properties hn
  refine ⟨hn', fun k => ?_⟩
  rw [Table.named, hk', hk]
  simp

theorem get?_named_property {text : String} (h : Descriptor.parse text = .ok d) (hp : p ∈ d.properties) :
    (Table.named d f g).get? p.id = some (g p) :=
  Table.get?_foldl_set_of_mem (Descriptor.parse_named h).properties (Descriptor.parse_properties h) hp

theorem get?_named_behavior {text : String} (h : Descriptor.parse text = .ok d) (spelled : d.Spelled)
    (hb : b ∈ d.behaviors) (apart : ∀ p ∈ d.properties, p.id ≠ b.id) :
    (Table.named d f g).get? b.id = some (f b) := by
  apply get?_behavior (Descriptor.parse_named h) f g hb
  intro p hp
  obtain ⟨s, hs⟩ := spelled.properties p hp
  rw [hs, Bool.eq_false_iff]
  intro he
  apply apart p hp
  rw [hs, sameName_text he]

/-- A behavior that shares its name has the settings that fit what is said of the property, if any do; one with
a name of its own has some. -/
theorem resolveBehavior_named {text : String} (h : Descriptor.parse text = .ok d) (spelled : d.Spelled)
    {own : Behavior → Entry} (hown : ∀ b ∈ d.behaviors, entryOf? b.kind (own b).toValue = some (own b))
    {os : List (String × Value)} (distinct : (os.map (·.1)).Nodup) (hb : b ∈ d.behaviors) :
    let table := Table.named d (fun b => (own b).toValue) (·.default)
    (∃ e, (resolveBehavior table (mergeTable table os) b).2 = .ok e) ↔ ∀ p ∈ d.properties, p.id = b.id →
      (entryOf? b.kind (overridden p.default (said os p.id))).isSome ∨ (entryOf? b.kind p.default).isSome := by
  intro table
  have hresult : ∀ default, table.get? b.id = some default →
      ((∃ e, (resolveBehavior table (mergeTable table os) b).2 = .ok e) ↔
        (entryOf? b.kind (overridden default (said os b.id))).isSome ∨ (entryOf? b.kind default).isSome) := by
    intro default hd
    have hm := mergeTable_said distinct (spelled.behaviors b hb) hd
    rw [resolveBehavior_snd hd hm, ← Bool.or_eq_true, ← Option.isSome_or]
    cases (entryOf? b.kind (overridden default (said os b.id))).or (entryOf? b.kind default) <;> simp
  by_cases hshared : ∃ p ∈ d.properties, p.id = b.id
  · have hdefault : ∀ p ∈ d.properties, p.id = b.id → table.get? b.id = some p.default := by
      intro p hp he
      rw [← he]
      exact get?_named_property h hp
    constructor
    · intro hok p hp he
      rw [he]
      exact (hresult p.default (hdefault p hp he)).mp hok
    · intro hfits
      obtain ⟨p, hp, he⟩ := hshared
      have hfit := hfits p hp he
      rw [he] at hfit
      exact (hresult p.default (hdefault p hp he)).mpr hfit
  · have hd : table.get? b.id = some (own b).toValue := by
      apply get?_named_behavior h spelled hb
      exact fun p hp he => hshared ⟨p, hp, he⟩
    constructor
    · exact fun _ p hp he => absurd ⟨p, hp, he⟩ hshared
    · intro _
      rw [hresult _ hd, hown b hb]
      exact .inr rfl

/-- If every behavior has an entry, these are the settings, with the properties laid over them. -/
theorem resolve_named {text : String} (h : Descriptor.parse text = .ok d) (spelled : d.Spelled)
    {own : Behavior → Value} (htable : defaults d = .ok (Table.named d own (·.default)))
    {os : List (String × Value)} (distinct : (os.map (·.1)).Nodup) {entry : Behavior → Entry}
    (hentry : ∀ b ∈ d.behaviors, (resolveBehavior (Table.named d own (·.default))
      (mergeTable (Table.named d own (·.default)) os) b).2 = .ok (entry b)) :
    (resolve d (.object os)).2 = .ok (Table.named d entry fun p => .literal (overridden p.default (said os p.id))) := by
  have hbehaviors := resolveBehaviors_eq (fun b hb => Prod.ext rfl (hentry b hb)) []
  rw [resolve_of_ok htable (overridesOf_object os) hbehaviors]
  refine congrArg Except.ok (List.foldl_ext _ _ _ fun t p hp => ?_)
  have hd : (Table.named d own (·.default)).get? p.id = some p.default := get?_named_property h hp
  rw [mergeTable_said distinct (spelled.properties p hp) hd]
  rfl

end Descriptor

theorem entryOf?_ne_literal {k : Behavior.Kind} {v w : Value} : entryOf? k v ≠ some (.literal w) := by
  cases k <;> simp [entryOf?]

end Settings

open Settings

/-- Each name has one entry in the settings, and no other name has any. What a property is named has the value
of the property, as overrides make it. So a behavior has settings of its kind if, and only if, no property has
its name. Settings fail in one way, and only where a property has the name of a behavior: there is none if neither
the property's value nor its default fits that behavior. -/
theorem one_entry_per_name {text : String} {d : Descriptor} {os : List (String × Value)}
    (h : Descriptor.parse text = .ok d) (spelled : d.Spelled) (distinct : (os.map (·.1)).Nodup) :
    (∀ e, (resolve d (.object os)).2 = .error e → e = invalid) ∧
    ((∃ t, (resolve d (.object os)).2 = .ok t) ↔ ∀ b ∈ d.behaviors, ∀ p ∈ d.properties, p.id = b.id →
      (entryOf? b.kind (overridden p.default (said os p.id))).isSome ∨ (entryOf? b.kind p.default).isSome) ∧
    ∀ t, (resolve d (.object os)).2 = .ok t →
      (t.map (·.1)).Nodup ∧
      (∀ k, k ∈ t.map (·.1) ↔ k ∈ d.behaviors.map (·.id) ∨ k ∈ d.properties.map (·.id)) ∧
      (∀ p ∈ d.properties, t.get? p.id = some (.literal (overridden p.default (said os p.id)))) ∧
      ∀ b ∈ d.behaviors, (∃ e, t.get? b.id = some e ∧ Suits b.kind e) ↔ ∀ p ∈ d.properties, p.id ≠ b.id := by
  have : Nonempty Entry := ⟨.literal .null⟩
  choose! own hown using fun b hb => default_valid (spelled.worded b hb)
  let table := Table.named d (fun b => (own b).toValue) (·.default)
  have htable : defaults d = .ok table := defaults_of_own fun b hb => (hown b hb).1
  have hfits := fun b hb => resolveBehavior_named (b := b) h spelled (fun b hb => (hown b hb).2) distinct hb
  by_cases hall : ∀ b ∈ d.behaviors, ∃ e, (resolveBehavior table (mergeTable table os) b).2 = .ok e
  · choose! entry hentry using hall
    have hsettings := resolve_named h spelled htable distinct hentry
    refine ⟨fun e he => ?_, ⟨fun _ b hb => ?_, fun _ => ⟨_, hsettings⟩⟩, fun t ht => ?_⟩
    · rw [hsettings] at he
      cases he
    · exact (hfits b hb).mp ⟨_, hentry b hb⟩
    · rw [hsettings] at ht
      cases ht
      obtain ⟨hnodup, hkeys⟩ := keys_named spelled
      refine ⟨hnodup, hkeys, fun p hp => get?_named_property h hp, fun b hb => ⟨?_, ?_⟩⟩
      · rintro ⟨e, he, v, hv⟩ p hp hshared
        rw [← hshared, get?_named_property h hp] at he
        cases he
        exact entryOf?_ne_literal hv
      · intro apart
        exact ⟨entry b, get?_named_behavior h spelled hb apart, suits_of_resolveBehavior (hentry b hb)⟩
  · have herror : (resolve d (.object os)).2 = .error invalid := by
      apply resolve_of_error htable (overridesOf_object os)
      apply resolveBehaviors_error
      simpa using hall
    refine ⟨fun e he => ?_, ⟨?_, fun hok => ?_⟩, fun t ht => ?_⟩
    · rw [herror] at he
      exact (Except.error.inj he).symm
    · rintro ⟨t, ht⟩
      rw [herror] at ht
      cases ht
    · exact absurd (fun b hb => (hfits b hb).mpr (hok b hb)) hall
    · rw [herror] at ht
      cases ht

/-- It is so for a descriptor with a value, an action and a property, of which the settings are there under
overrides that do not all fit. -/
theorem one_entry_per_name_mixed : ∃ d t, Descriptor.parse plainText = .ok d ∧
    (resolve d (.object mixedOverrides)).2 = .ok t ∧ (t.map (·.1)).Nodup ∧
      ∀ b ∈ d.behaviors, ∃ e, t.get? b.id = some e ∧ Suits b.kind e := by
  obtain ⟨d, hd, plain⟩ := plainText_plain
  have spelled : d.Spelled := ⟨plain.behaviors, plain.properties, plain.worded⟩
  obtain ⟨-, hok, hentries⟩ := one_entry_per_name hd spelled (show (mixedOverrides.map (·.1)).Nodup by decide)
  have apart : ∀ b ∈ d.behaviors, ∀ p ∈ d.properties, p.id ≠ b.id := fun b hb p hp => (plain.apart b hb p hp).symm
  obtain ⟨t, ht⟩ := hok.mpr fun b hb p hp he => absurd he (apart b hb p hp)
  obtain ⟨hnodup, -, -, hsuits⟩ := hentries t ht
  exact ⟨d, t, hd, ht, hnodup, fun b hb => (hsuits b hb).mpr (apart b hb)⟩

/-- A descriptor whose one behavior and one property have the same name. -/
def sharedText : String :=
  "\x7b\"behavior\":[\x7b\"id\":\"x\",\"type\":\"widgetAction\"\x7d]," ++
    "\"properties\":[\x7b\"id\":\"x\",\"type\":\"number\"\x7d]\x7d"

set_option maxRecDepth 100000 in
open Descriptor (sameName sameName_text) in
/-- It is accepted, and there are no settings for it, though nothing is overridden. -/
theorem shared_name_unsettled : ∃ d, Descriptor.parse sharedText = .ok d ∧ d.Spelled ∧
    (resolve d (.object [])).2 = .error invalid := by
  have ht : ((Descriptor.parse sharedText).toOption.any fun d =>
      d.behaviors.all (fun b => sameName (.text "x") b.id && isWorded b.kind) &&
        d.properties.all (fun p => sameName (.text "x") p.id) &&
          match (resolve d (.object [])).2 with
          | .error e => decide (e = invalid)
          | .ok _ => false) = true := rfl
  cases hd : Descriptor.parse sharedText with
  | error e =>
    rw [hd] at ht
    cases ht
  | ok d =>
    rw [hd] at ht
    simp only [Except.toOption, Option.any_some, Bool.and_eq_true, List.all_eq_true] at ht
    obtain ⟨⟨hb, hp⟩, hfails⟩ := ht
    have spelled : d.Spelled :=
      { behaviors := fun b k => ⟨_, sameName_text (hb b k).1⟩
        properties := fun p k => ⟨_, sameName_text (hp p k)⟩
        worded := fun b k => (hb b k).2 }
    refine ⟨d, rfl, spelled, ?_⟩
    split at hfails
    · next e he => rw [he, of_decide_eq_true hfails]
    · cases hfails

end LiveSvg
