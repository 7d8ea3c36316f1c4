import LiveSvg.Proofs.Refusals
/-!
Descriptors are read back from the JSON text that they are written as. A descriptor that was read holds
nothing that could not be written, and writing it leaves nothing out that reading it would miss.
-/

namespace LiveSvg

open Json (Fits bind_eq_ok)

theorem Json.Fits.members {depth : Nat} {ms : List (String × Value)} (h : Fits (depth + 1) (.object ms)) :
    (ms.map (·.1)).Nodup ∧ ∀ m ∈ ms, Fits depth m.2 := by
  cases h with
  | object hn h => exact ⟨hn, h⟩

theorem Json.Fits.items {depth : Nat} {xs : List Value} (h : Fits (depth + 1) (.list xs)) :
    ∀ x ∈ xs, Fits depth x := by
  cases h with
  | list h => exact h

/-- Whether the hints of a property are among those known, in the order in which they are written. -/
def Property.Hinted (p : Property) : Prop :=
  ∃ f : String → Value, p.hints = Descriptor.present (Descriptor.hintNames.map fun key => (key, f key))

namespace Descriptor

variable {ms : List (String × Value)} {key : String} {v default : Value} {depth : Nat}

/-! ### What is written is read -/

/-- A value, unless it is null. -/
def there? (v : Value) : Option Value := if v.kind = .null then none else some v

theorem there?_getD (v : Value) : (there? v).getD .null = v := by cases v <;> rfl

theorem get?_present (k : String) (v : Value) (ms : List (String × Value)) (key : String) :
    Value.Members.get? (present ((k, v) :: ms)) key =
      if k = key then (there? v).or (Value.Members.get? (present ms) key)
      else Value.Members.get? (present ms) key := by
  cases v <;> simp [present, there?, Value.kind, Value.Members.get?]

theorem get?_present_nil (key : String) : Value.Members.get? (present []) key = none := rfl

theorem get?_present_map (f : String → Value) (keys : List String) (key : String) :
    Value.Members.get? (present (keys.map fun k => (k, f k))) key =
      if key ∈ keys then there? (f key) else none := by
  induction keys with
  | nil => rfl
  | cons k keys ih =>
    rw [List.map_cons, get?_present, ih]
    by_cases hk : k = key
    · subst k
      cases there? (f key) <;> simp
    · simp [hk, Ne.symm hk]

theorem actionOf_actionValue (source : Value) : actionOf (actionValue source) = .ok source := by
  cases source <;> rfl

theorem mapM_map_ok {ε α β γ : Type} {f : α → β} {g : β → Except ε γ} {k : α → γ} {xs : List α}
    (h : ∀ x ∈ xs, g (f x) = .ok (k x)) : (xs.map f).mapM g = .ok (xs.map k) := by
  induction xs with
  | nil => rfl
  | cons x xs ih =>
    rw [List.map_cons, List.mapM_cons, h x List.mem_cons_self, ih fun y hy => h y (List.mem_cons_of_mem _ hy)]
    rfl

theorem actionsOf_value (actions : List (String × Value)) :
    actionsOf (.object (actions.map fun (k, source) => (k, actionValue source))) = .ok (some actions) := by
  unfold actionsOf
  have h : (actions.map fun (k, source) => (k, actionValue source)).mapM (fun (k, a) => do
      return ((k, ← actionOf a) : String × Value)) = (.ok (actions.map id) : Except Problem _) :=
    mapM_map_ok fun a _ => by
      dsimp only
      rw [actionOf_actionValue]
      rfl
  simp only [members?, bind, Except.bind] at h ⊢
  rw [h, List.map_id]
  rfl

theorem tagOf_tagValue (t : Tag) : tagOf (tagValue t) = .ok t := by
  obtain ⟨name, render, actions⟩ := t
  cases actions with
  | none =>
    simp [tagOf, tagValue, members?, required, optional, Value.Members.get?, get?_present, get?_present_nil,
      there?_getD, actionsOf, bind, Except.bind, pure, Except.pure]
  | some actions =>
    simp [tagOf, tagValue, members?, required, optional, Value.Members.get?_append, Value.Members.get?, get?_present,
      get?_present_nil, there?_getD, actionsOf_value, bind, Except.bind, pure, Except.pure]

theorem behaviorOf_behaviorValue (b : Behavior) : behaviorOf (behaviorValue b) = .ok (some b) := by
  obtain ⟨id, name, hint, kind⟩ := b
  cases kind <;>
    simp [behaviorOf, behaviorValue, kindName, kindMembers, isName, members?, required, optional, Value.Members.get?_append,
      Value.Members.get?, get?_present, get?_present_nil, there?_getD, bind, Except.bind, pure, Except.pure]

theorem propertyOf_propertyValue {p : Property} (h : p.Hinted) : propertyOf (propertyValue p) = .ok p := by
  obtain ⟨id, name, type, default, hints⟩ := p
  obtain ⟨f, rfl⟩ := h
  have hf : ∀ key ∈ hintNames, (Value.Members.get? ([("id", id), ("name", name), ("type", type),
      ("default", default)] ++ present (hintNames.map fun key => (key, f key))) key).getD .null = f key := by
    intro key hk
    have hne : "id" ≠ key ∧ "name" ≠ key ∧ "type" ≠ key ∧ "default" ≠ key := by
      revert key
      decide
    rw [Value.Members.get?_append, get?_present_map, if_pos hk]
    simp [Value.Members.get?, hne, there?_getD]
  simp only [propertyOf, propertyValue, members?, bind, Except.bind, pure, Except.pure, optional]
  rw [List.map_congr_left fun key hk => congrArg (Prod.mk key) (hf key hk)]
  simp [required, Value.Members.get?]

/-- A descriptor is read from the value that it is written as. -/
theorem ofValue_toValue {d : Descriptor} (h : ∀ p ∈ d.properties, p.Hinted) : ofValue d.toValue = .ok d := by
  obtain ⟨title, render, tags, behaviors, properties⟩ := d
  have ht : (tags.map tagValue).mapM tagOf = .ok (tags.map id) := mapM_map_ok fun t _ => tagOf_tagValue t
  have hb : (behaviors.map behaviorValue).mapM behaviorOf = .ok (behaviors.map some) :=
    mapM_map_ok fun b _ => behaviorOf_behaviorValue b
  have hp : (properties.map propertyValue).mapM propertyOf = .ok (properties.map id) :=
    mapM_map_ok fun p hp => propertyOf_propertyValue (h p hp)
  rw [List.map_id] at ht hp
  simp [ofValue, toValue, items, optional, Value.Members.get?_append, Value.Members.get?, get?_present, get?_present_nil,
    there?_getD, ht, hb, hp, bind, Except.bind, pure, Except.pure]

/-! ### What is read can be written -/

theorem mem_of_mapM_ok {ε α β : Type} {f : α → Except ε β} {xs : List α} {ys : List β}
    (h : xs.mapM f = .ok ys) : ∀ y ∈ ys, ∃ x ∈ xs, f x = .ok y := by
  induction xs generalizing ys with
  | nil =>
    cases h
    exact fun _ hy => absurd hy List.not_mem_nil
  | cons x xs ih =>
    rw [List.mapM_cons] at h
    obtain ⟨y, hy, h⟩ := bind_eq_ok.mp h
    obtain ⟨ys, hys, h⟩ := bind_eq_ok.mp h
    cases h
    refine List.forall_mem_cons.mpr ⟨⟨x, List.mem_cons_self, hy⟩, fun z hz => ?_⟩
    obtain ⟨w, hw, hz⟩ := ih hys z hz
    exact ⟨w, List.mem_cons_of_mem _ hw, hz⟩

theorem hinted_of_propertyOf {p : Property} (h : propertyOf v = .ok p) : p.Hinted := by
  obtain ⟨ms, -, h⟩ := bind_eq_ok.mp h
  obtain ⟨id, -, h⟩ := bind_eq_ok.mp h
  obtain ⟨type, -, h⟩ := bind_eq_ok.mp h
  cases h
  exact ⟨fun key => optional ms key .null, rfl⟩

theorem members?_ok (h : members? v = .ok ms) : v = .object ms := by
  cases v <;> cases h
  rfl

theorem fits_optional (h : ∀ m ∈ ms, Fits depth m.2) (hd : Fits depth default) :
    Fits depth (optional ms key default) := by
  unfold optional
  cases hg : Value.Members.get? ms key with
  | none => exact hd
  | some v => exact h _ (Value.Members.mem_of_get? hg)

theorem fits_required (h : ∀ m ∈ ms, Fits depth m.2) (hr : required ms key = .ok v) : Fits depth v := by
  unfold required at hr
  split at hr
  · next hg =>
    cases hr
    exact h _ (Value.Members.mem_of_get? hg)
  · cases hr

theorem present_sublist (ms : List (String × Value)) : (present ms).Sublist ms := List.filter_sublist

/-- An object with some of the members that fit. -/
theorem fits_members {all : List (String × Value)} (hn : (all.map (·.1)).Nodup)
    (h : ∀ m ∈ all, Fits depth m.2) (hs : ms.Sublist all) : Fits (depth + 1) (.object ms) :=
  .object (hn.sublist (hs.map _)) fun m hm => h m (hs.subset hm)

theorem fits_actionValue {source : Value} (h : actionOf v = .ok source) (hv : Fits (depth + 1) v) :
    Fits (depth + 1) (actionValue source) := by
  obtain ⟨ms, hm, h⟩ := bind_eq_ok.mp h
  cases h
  have hms : ∀ m ∈ ms, Fits depth m.2 := by
    have k := members?_ok hm
    split at k
    · exact (k ▸ hv).members.2
    · cases k
      exact fun _ hm => absurd hm List.not_mem_nil
  refine fits_members ?_ ?_ (present_sublist [("actionFunction", optional ms "actionFunction" .null)])
  · simp
  · exact List.forall_mem_singleton.mpr (fits_optional hms .null)

theorem keys_of_mapM_ok {f : Value → Except Problem Value} {actions : List (String × Value)}
    (h : ms.mapM (fun (k, a) => do return (k, ← f a)) = .ok actions) :
    actions.map (·.1) = ms.map (·.1) := by
  induction ms generalizing actions with
  | nil =>
    cases h
    rfl
  | cons m ms ih =>
    rw [List.mapM_cons] at h
    obtain ⟨a, ha, h⟩ := bind_eq_ok.mp h
    obtain ⟨rest, hr, h⟩ := bind_eq_ok.mp h
    obtain ⟨b, -, ha⟩ := bind_eq_ok.mp ha
    cases h
    cases ha
    exact congrArg (m.1 :: ·) (ih hr)

theorem fits_actions {actions : List (String × Value)} (h : actionsOf v = .ok (some actions))
    (hv : Fits (depth + 2) v) :
    Fits (depth + 2) (.object (actions.map fun (k, source) => (k, actionValue source))) := by
  unfold actionsOf at h
  split at h
  · cases h
  · obtain ⟨ms, hm, h⟩ := bind_eq_ok.mp h
    obtain ⟨actions', ha, h⟩ := bind_eq_ok.mp h
    cases h
    obtain ⟨hn, hms⟩ := (members?_ok hm ▸ hv).members
    refine .object ?_ fun m hm => ?_
    · rw [List.map_map]
      exact (keys_of_mapM_ok ha ▸ hn : (actions.map (·.1)).Nodup)
    · obtain ⟨a, hma, rfl⟩ := List.mem_map.mp hm
      obtain ⟨b, hb, h⟩ := mem_of_mapM_ok ha a hma
      obtain ⟨source, hs, h⟩ := bind_eq_ok.mp h
      cases h
      exact fits_actionValue hs (hms b hb)

theorem fits_tagValue {t : Tag} (h : tagOf v = .ok t) (hv : Fits (depth + 3) v) :
    Fits (depth + 3) (tagValue t) := by
  obtain ⟨ms, hm, h⟩ := bind_eq_ok.mp h
  obtain ⟨name, hname, h⟩ := bind_eq_ok.mp h
  obtain ⟨actions, hactions, h⟩ := bind_eq_ok.mp h
  cases h
  have hms := (members?_ok hm ▸ hv).members.2
  have hname := fits_required hms hname
  have hrender : Fits (depth + 2) (optional ms "stateRenderFunction" .null) := fits_optional hms .null
  have hkeys : ["tag", "stateRenderFunction", "actions"].Nodup := by decide
  -- null stands in for the actions where there are none
  have hfits : ∀ w rest, Fits (depth + 2) w → rest.Sublist [("actions", w)] → Fits (depth + 3)
      (.object (("tag", name) :: present [("stateRenderFunction", optional ms "stateRenderFunction" .null)] ++
        rest)) := by
    intro w rest hw hs
    have hsub : (("tag", name) :: present [("stateRenderFunction", optional ms "stateRenderFunction" .null)] ++
        rest).Sublist [("tag", name), ("stateRenderFunction", optional ms "stateRenderFunction" .null),
          ("actions", w)] := ((present_sublist _).append hs).cons_cons _
    refine fits_members ?_ ?_ hsub
    · exact hkeys
    · simp [hname, hrender, hw]
  cases actions with
  | none => exact hfits .null [] .null (List.nil_sublist _)
  | some actions => exact hfits _ _ (fits_actions hactions (fits_optional hms .null)) (List.Sublist.refl _)

/-- What all behaviors have, with the members that only some have. -/
theorem fits_shared {id name hint : Value} {type : String} {all more : List (String × Value)}
    (hid : Fits depth id) (hname : Fits depth name) (hhint : Fits depth hint)
    (hkeys : (["id", "name", "type", "hint"] ++ all.map (·.1)).Nodup) (hall : ∀ m ∈ all, Fits depth m.2)
    (hs : more.Sublist all) : Fits (depth + 1)
      (.object ([("id", id), ("name", name), ("type", .text type)] ++ present [("hint", hint)] ++ more)) := by
  have hfour : ∀ m ∈ [("id", id), ("name", name), ("type", Value.text type)] ++ [("hint", hint)],
      Fits depth m.2 := by
    simp [hid, hname, hhint, Fits.text]
  refine fits_members ?_ (fun m hm => (List.mem_append.mp hm).elim (hfour m) (hall m))
    (((List.Sublist.refl _).append (present_sublist _)).append hs)
  rw [List.map_append]
  exact hkeys

theorem fits_behaviorValue {b : Behavior} (h : behaviorOf v = .ok (some b)) (hv : Fits (depth + 1) v) :
    Fits (depth + 1) (behaviorValue b) := by
  obtain ⟨ms, hm, h⟩ := bind_eq_ok.mp h
  have hms := (members?_ok hm ▸ hv).members.2
  have hopt : ∀ {key}, Fits depth (optional ms key .null) := fits_optional hms .null
  have htext : ∀ {key s}, Fits depth (optional ms key (.text s)) := fits_optional hms (.text _)
  dsimp only at h
  split at h
  · cases h
  split at h
  · obtain ⟨id, hid, h⟩ := bind_eq_ok.mp h
    obtain ⟨valueId, hvalueId, h⟩ := bind_eq_ok.mp h
    cases h
    have hid := fits_required hms hid
    have hvalueId := fits_required hms hvalueId
    have hkeys : ["id", "name", "type", "hint", "valueType", "defaultValue", "valueId", "trueLabel", "falseLabel",
      "stateLabel"].Nodup := by decide
    refine fits_shared hid htext hopt ?_ ?_ ((List.Sublist.refl _).append (present_sublist _))
    · exact hkeys
    · simp [hvalueId, hopt, htext]
  · obtain ⟨id, hid, h⟩ := bind_eq_ok.mp h
    cases h
    have hid := fits_required hms hid
    have hkeys : ["id", "name", "type", "hint", "valueToDataType", "constantValue", "valueToDataFunction"].Nodup := by
      decide
    refine fits_shared hid htext hopt ?_ ?_ ((List.Sublist.refl _).append (present_sublist _))
    · exact hkeys
    · simp [hopt, htext]
  · obtain ⟨id, hid, h⟩ := bind_eq_ok.mp h
    cases h
    have hkeys : ["id", "name", "type", "hint"].Nodup := by decide
    have hnone : ∀ m ∈ ([] : List (String × Value)), Fits depth m.2 := fun _ k => absurd k List.not_mem_nil
    refine fits_shared (fits_required hms hid) htext hopt ?_ hnone (List.Sublist.refl _)
    exact hkeys
  · cases h

theorem fits_propertyValue {p : Property} (h : propertyOf v = .ok p) (hv : Fits (depth + 1) v) :
    Fits (depth + 1) (propertyValue p) := by
  obtain ⟨ms, hm, h⟩ := bind_eq_ok.mp h
  have hms := (members?_ok hm ▸ hv).members.2
  obtain ⟨id, hid, h⟩ := bind_eq_ok.mp h
  obtain ⟨type, htype, h⟩ := bind_eq_ok.mp h
  cases h
  have hkeys : (["id", "name", "type", "default"] ++ hintNames).Nodup := by decide
  refine fits_members ?_ (fun m hm => ?_) ((List.Sublist.refl _).append (present_sublist _))
  · rw [List.map_append, List.map_map]
    exact (List.map_id hintNames).symm ▸ hkeys
  · rcases List.mem_append.mp hm with hm | hm
    · revert m
      simp [fits_required hms hid, fits_required hms htype, fits_optional hms (.text _), fits_optional hms .null]
    · obtain ⟨key, -, rfl⟩ := List.mem_map.mp hm
      exact fits_optional hms .null

theorem fits_items {xs : List Value} (h : items ms key = .ok xs) (hms : ∀ m ∈ ms, Fits (depth + 1) m.2) :
    ∀ x ∈ xs, Fits depth x := by
  unfold items at h
  split at h
  · cases h
    exact fun _ k => absurd k List.not_mem_nil
  · next hg =>
    cases h
    exact (hms _ (Value.Members.mem_of_get? hg)).items
  · cases h
    intro x hx
    obtain ⟨m, -, rfl⟩ := List.mem_map.mp hx
    exact .text _
  · cases h
    intro x hx
    obtain ⟨c, -, rfl⟩ := List.mem_map.mp hx
    exact .text _
  · cases h

theorem fits_listed {α : Type} {f : Value → Except Problem α} {g : α → Value} {xs : List Value} {ys : List α}
    (hxs : ∀ x ∈ xs, Fits depth x) (h : xs.mapM f = .ok ys)
    (hg : ∀ {x y}, f x = .ok y → Fits depth x → Fits depth (g y)) : Fits (depth + 1) (.list (ys.map g)) := by
  refine .list fun y hy => ?_
  obtain ⟨a, ha, rfl⟩ := List.mem_map.mp hy
  obtain ⟨x, hx, hf⟩ := mem_of_mapM_ok h a ha
  exact hg hf (hxs x hx)

/-- A descriptor that was read can be written, and is read back from what is written. -/
theorem ofValue_spec {d : Descriptor} (h : ofValue v = .ok d) (hv : Fits (depth + 5) v) :
    Fits (depth + 5) d.toValue ∧ ofValue d.toValue = .ok d := by
  cases v with
  | object ms =>
    obtain ⟨bs, hbs, h⟩ := bind_eq_ok.mp h
    obtain ⟨behaviors, hb, h⟩ := bind_eq_ok.mp h
    obtain ⟨ts, hts, h⟩ := bind_eq_ok.mp h
    obtain ⟨tags, ht, h⟩ := bind_eq_ok.mp h
    obtain ⟨ps, hps, h⟩ := bind_eq_ok.mp h
    obtain ⟨properties, hp, h⟩ := bind_eq_ok.mp h
    cases h
    have hms := hv.members.2
    have hbehaviors : Fits (depth + 4) (.list ((behaviors.filterMap id).map behaviorValue)) := by
      refine .list fun y hy => ?_
      obtain ⟨b, hmem, rfl⟩ := List.mem_map.mp hy
      obtain ⟨b?, hm, rfl⟩ := List.mem_filterMap.mp hmem
      obtain ⟨x, hx, hf⟩ := mem_of_mapM_ok hb _ hm
      exact fits_behaviorValue hf (fits_items hbs hms x hx)
    have htags := fits_listed (fits_items hts hms) ht fits_tagValue
    have hproperties := fits_listed (fits_items hps hms) hp fits_propertyValue
    refine ⟨?_, ofValue_toValue fun p hmem => ?_⟩
    · have hkeys : ["title", "stateRenderFunction", "tags", "behavior", "properties"].Nodup := by decide
      refine fits_members ?_ ?_ (((present_sublist _).append (List.Sublist.refl _)).cons_cons _)
      · exact hkeys
      · simp only [List.cons_append, List.nil_append, List.forall_mem_cons]
        exact ⟨fits_optional hms (.text _), fits_optional hms .null, htags, hbehaviors, hproperties,
          fun _ k => absurd k List.not_mem_nil⟩
    · obtain ⟨x, -, hf⟩ := mem_of_mapM_ok hp p hmem
      exact hinted_of_propertyOf hf
  | _ => cases h

/-- A descriptor that was read can be written, and is read back from the JSON text that documents carry. -/
theorem parse_spec {text : String} {d : Descriptor} (h : parse text = .ok d) :
    Fits Json.maxDepth d.toValue ∧
      parse (String.ofList (Document.sectionSafe d.toJson.toList)) = .ok d := by
  obtain ⟨v, hread, hof, hapart⟩ := parse_eq_ok.mp h
  have hroom : Fits (995 + 5) v := Json.fits_of_read hread
  obtain ⟨hfits, hback⟩ := ofValue_spec hof hroom
  exact ⟨hfits, parse_eq_ok.mpr ⟨d.toValue, Json.read_safe hfits, hback, hapart⟩⟩

end Descriptor

end LiveSvg
