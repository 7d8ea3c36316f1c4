import LiveSvg.Proofs.Descriptors
import LiveSvg.Proofs.Isolation
import LiveSvg.Proofs.Merging
/-!
Settings that have been resolved are restored from what they are written as. A reader takes many values for a
field; what it makes of one is written as a value that overrides the default again, and that is read as the
same. So it is for every field, for every settings object and for all settings of a descriptor.
-/

namespace LiveSvg.Settings

open Value (Keyed Members.get? merge along?)

variable {α : Type} {read : Value → Option α} {write : α → Value} {c v : Value}
  {ms olds news : List (String × Value)} {key name : String} {keys : List (String × String)}

/-- Whatever overrides make of a value, what is read from it and written again overrides the value so that
the same is read. -/
def Restores (read : Value → Option α) (write : α → Value) (default : Value) : Prop :=
  ∀ o a, (∀ v ∈ o, Keyed v) → read (overridden default o) = some a → read (default.override (write a)) = some a

/-! ### Fields -/

theorem Restores.of_leaf (hw : ∀ a, (write a).isLeaf) (hr : ∀ v a, read v = some a → read (write a) = some a)
    (default : Value) : Restores read write default := by
  intro o a _ h
  rw [Value.override_leaf (hw a)]
  exact hr _ a h

theorem overridden_again (hc : Keyed c) {o : Option Value} (ho : ∀ v ∈ o, Keyed v) :
    c.override (overridden c o) = overridden c o := by
  cases o with
  | none => exact Value.override_self hc
  | some v => exact Value.override_merged (ho v rfl) hc

theorem Restores.any (hc : Keyed c) : Restores any? id c := by
  intro o a ho h
  obtain rfl : overridden c o = a := Option.some.inj h
  exact congrArg some (overridden_again hc ho)

theorem Restores.text (default : Value) : Restores text? .text default := by
  apply Restores.of_leaf
  · exact fun _ => rfl
  · exact fun _ _ _ => rfl

theorem Restores.int (default : Value) : Restores int? .int default := by
  apply Restores.of_leaf
  · exact fun _ => rfl
  · exact fun _ _ _ => rfl

theorem Restores.bool (default : Value) : Restores bool? .bool default := by
  apply Restores.of_leaf
  · exact fun _ => rfl
  · exact fun _ _ _ => rfl

theorem Restores.optionalText (default : Value) : Restores (optional? text?) optionalText default := by
  apply Restores.of_leaf
  · intro a
    cases a <;> rfl
  · intro v a h
    cases a <;> rfl

theorem Restores.oneOf (words : List String) (default : Value) : Restores (oneOf? words) .text default := by
  apply Restores.of_leaf
  · exact fun _ => rfl
  · intro v a h
    cases v with
    | text s =>
      simp only [oneOf?, Option.ite_none_right_eq_some, Option.some.injEq] at h ⊢
      exact ⟨h.2 ▸ h.1, trivial⟩
    | _ => simp [oneOf?] at h

theorem field?_of_get? (h : Members.get? ms key = some v) (read : Value → Option α) (default : α) :
    field? ms key name read default = read v := by
  simp [field?, h]

theorem required?_of_get? (h : Members.get? ms key = some v) (read : Value → Option α) :
    required? ms key name read = read v := by
  simp [required?, h]

/-! ### Objects -/

/-- Two objects agree with the fields that are written: under the key of each the one has what overrides make
of the default, and the other the default overridden by what is written. -/
def Echoes (olds fields ms ms' : List (String × Value)) : Prop :=
  ∀ key c w, Members.get? olds key = some c → Members.get? fields key = some w →
    ∃ o, (∀ v ∈ o, Keyed v) ∧ Members.get? ms key = some (overridden c o) ∧
      Members.get? ms' key = some (c.override w)

theorem Echoes.field {fields ms' : List (String × Value)} (h : Echoes olds fields ms ms') {a default : α}
    (hr : Restores read write c) (hc : Members.get? olds key = some c)
    (hw : Members.get? fields key = some (write a)) (hf : field? ms key name read default = some a) :
    field? ms' key name read default = some a := by
  obtain ⟨o, ho, hm, hm'⟩ := h key c (write a) hc hw
  rw [field?_of_get? hm] at hf
  rw [field?_of_get? hm']
  exact hr o a ho hf

theorem Echoes.required {fields ms' : List (String × Value)} (h : Echoes olds fields ms ms') {a : α}
    (hr : Restores read write c) (hc : Members.get? olds key = some c)
    (hw : Members.get? fields key = some (write a)) (hf : required? ms key name read = some a) :
    required? ms' key name read = some a := by
  obtain ⟨o, ho, hm, hm'⟩ := h key c (write a) hc hw
  rw [required?_of_get? hm] at hf
  rw [required?_of_get? hm']
  exact hr o a ho hf

theorem get?_merge_of_get? (hn : (news.map (·.1)).Nodup) (hc : Members.get? olds key = some c) :
    Members.get? (merge olds news) key = some (overridden c (Members.get? news key)) := by
  rw [Value.get?_merge hn, hc]
  cases Members.get? news key <;> rfl

/-- What overrides add to an object with all fields is kept beside them, also what has the other name of a
field. -/
theorem extras_merge (hn : (news.map (·.1)).Nodup) (ho : (olds.map (·.1)).Nodup)
    (holds : olds.map (·.1) = keys.map (·.1)) :
    extras (merge olds news) keys = news.filter fun m => decide (m.1 ∉ keys.map (·.1)) := by
  have hmerged := Value.nodup_keys_merge ho hn
  have hkeys := Value.keys_merge hn olds
  have hhas : ∀ p ∈ keys, hasKey (merge olds news) p.1 = true := by
    intro p hp
    have hmem : p.1 ∈ (merge olds news).map (·.1) := by
      rw [hkeys, holds]
      exact List.mem_append_left _ (List.mem_map_of_mem hp)
    obtain ⟨m, hm, he⟩ := List.mem_map.mp hmem
    simp only [hasKey, List.any_eq_true, beq_iff_eq]
    exact ⟨m, hm, he⟩
  have hfilter : extras (merge olds news) keys =
      (merge olds news).filter fun m => decide (m.1 ∉ keys.map (·.1)) := by
    apply List.filter_congr
    intro m _
    rw [Bool.eq_iff_iff]
    simp only [Bool.not_eq_true', List.any_eq_false, decide_eq_true_eq, List.mem_map, not_exists, not_and]
    constructor
    · intro h p hp he
      exact h p hp (by simp [he])
    · intro h p hp
      simp [hhas p hp, Ne.symm (h p hp)]
  rw [hfilter]
  have hswap : ∀ ms : List (String × Value), (ms.filter fun m => decide (m.1 ∉ keys.map (·.1))).map (·.1) =
      (ms.map (·.1)).filter fun key => decide (key ∉ keys.map (·.1)) := by
    intro ms
    rw [List.filter_map]
    rfl
  apply Value.Members.ext_of_keys (hn.sublist (List.filter_sublist.map _))
  · rw [hswap, hswap, hkeys, holds, List.filter_append, List.filter_filter]
    simp
  · intro key _
    rw [Value.Members.get?_filter (fun key => decide (key ∉ keys.map (·.1))),
      Value.Members.get?_filter (fun key => decide (key ∉ keys.map (·.1))), Value.get?_merge hn]
    split
    · next h =>
      have hnone : Members.get? olds key = none := by
        rw [Value.Members.get?_eq_none_iff, holds]
        simpa using h
      rw [hnone]
      cases Members.get? news key <;> rfl
    · rfl

/-- Settings are restored if each of their fields is, given that defaults and what is written have all keys. -/
theorem Restores.object (keys : List (String × String)) {fields extra : α → List (String × Value)}
    (hwrite : ∀ a, write a = .object (fields a ++ extra a)) (hdistinct : (keys.map (·.1)).Nodup)
    (holds : olds.map (·.1) = keys.map (·.1)) (hfields : ∀ a, (fields a).map (·.1) = keys.map (·.1))
    (hobject : ∀ v, read v = (members? v).bind fun ms => read (.object ms))
    (hextra : ∀ ms a, read (.object ms) = some a → extras ms keys = extra a)
    (hread : ∀ ms ms' a, read (.object ms) = some a → extras ms' keys = extra a →
      Echoes olds (fields a) ms ms' → read (.object ms') = some a) :
    Restores read write (.object olds) := by
  intro o a ho hr
  have ho' : (olds.map (·.1)).Nodup := holds ▸ hdistinct
  -- an override that is no object would not have been read
  obtain ⟨news, hkeyed, hmerged⟩ : ∃ news, Keyed (.object news) ∧
      overridden (.object olds) o = .object (merge olds news) := by
    cases o with
    | none =>
      refine ⟨[], .object List.nodup_nil (by simp), ?_⟩
      rw [merge]
      rfl
    | some v =>
      cases v with
      | object news => exact ⟨news, ho _ rfl, Value.override_object olds news⟩
      | _ =>
        rw [overridden, Value.override_leaf rfl, hobject] at hr
        cases hr
  rw [hmerged] at hr
  have hn := hkeyed.distinct
  have hkept : extra a = news.filter fun m => decide (m.1 ∉ keys.map (·.1)) :=
    (hextra _ a hr).symm.trans (extras_merge hn ho' holds)
  have hn' : ((fields a ++ extra a).map (·.1)).Nodup := by
    rw [List.map_append, hfields, List.nodup_append, hkept]
    refine ⟨hdistinct, hn.sublist (List.filter_sublist.map _), ?_⟩
    intro key hkey key' hkey' he
    obtain ⟨m, hm, rfl⟩ := List.mem_map.mp hkey'
    have hfresh : m.1 ∉ keys.map (·.1) := by simpa using (List.mem_filter.mp hm).2
    exact hfresh (he ▸ hkey)
  have hagain : extras (merge olds (fields a ++ extra a)) keys = extra a := by
    have hnone : (fields a).filter (fun m => decide (m.1 ∉ keys.map (·.1))) = [] := by
      rw [List.filter_eq_nil_iff]
      intro m hm
      have hmem : m.1 ∈ keys.map (·.1) := hfields a ▸ List.mem_map_of_mem hm
      simpa using hmem
    rw [extras_merge hn' ho' holds, List.filter_append, hnone, List.nil_append, hkept, List.filter_filter]
    simp
  rw [hwrite, Value.override_object]
  apply hread _ _ a hr hagain
  intro key c w hc hw
  refine ⟨Members.get? news key, fun v hv => hkeyed.member hv, get?_merge_of_get? hn hc, ?_⟩
  rw [get?_merge_of_get? hn' hc, Value.Members.get?_append, hw]
  rfl

/-! ### Settings objects -/

theorem Rpc.ofValue?_eq_some {s : Rpc} : Rpc.ofValue? (.object ms) = some s ↔
    required? ms "method" "method" text? = some s.method ∧
    field? ms "requestTimeout" "request_timeout" int? 5000 = some s.requestTimeout ∧
    field? ms "requestPersistent" "request_persistent" bool? false = some s.requestPersistent ∧
    field? ms "persistentPollingInterval" "persistent_polling_interval" int? 1000 = some s.pollingInterval ∧
    extras ms Rpc.keys = s.extra := by
  obtain ⟨method, timeout, persistent, interval, extra⟩ := s
  simp only [Rpc.ofValue?, members?, Option.pure_def, Option.bind_eq_bind, Option.bind_eq_some_iff,
    Option.some.injEq, Rpc.mk.injEq]
  constructor
  · rintro ⟨_, rfl, _, hm, _, ht, _, hp, _, hi, rfl, rfl, rfl, rfl, rfl⟩
    exact ⟨hm, ht, hp, hi, rfl⟩
  · rintro ⟨hm, ht, hp, hi, he⟩
    exact ⟨ms, rfl, _, hm, _, ht, _, hp, _, hi, rfl, rfl, rfl, rfl, he⟩

theorem Rpc.restores {default : Rpc} (h : default.extra = []) :
    Restores Rpc.ofValue? Rpc.toValue default.toValue := by
  obtain ⟨method, timeout, persistent, interval, extra⟩ := default
  obtain rfl : extra = [] := h
  refine Restores.object Rpc.keys (fun _ => rfl) (by decide) rfl (fun _ => rfl) ?_ ?_ ?_
  · intro v
    cases v <;> rfl
  · intro ms s hs
    exact (Rpc.ofValue?_eq_some.mp hs).2.2.2.2
  · intro ms ms' s hs he h
    obtain ⟨hm, ht, hp, hi, -⟩ := Rpc.ofValue?_eq_some.mp hs
    exact Rpc.ofValue?_eq_some.mpr ⟨h.required (.text _) rfl rfl hm, h.field (.int _) rfl rfl ht,
      h.field (.bool _) rfl rfl hp, h.field (.int _) rfl rfl hi, he⟩

theorem Attribute.ofValue?_eq_some {s : Attribute} : Attribute.ofValue? (.object ms) = some s ↔
    field? ms "key" "key" text? defaultKey = some s.key ∧
    field? ms "scope" "scope" (optional? text?) none = some s.scope ∧
    extras ms [("key", "key"), ("scope", "scope")] = s.extra := by
  obtain ⟨key, scope, extra⟩ := s
  simp only [Attribute.ofValue?, members?, Option.pure_def, Option.bind_eq_bind, Option.bind_eq_some_iff,
    Option.some.injEq, Attribute.mk.injEq]
  constructor
  · rintro ⟨_, rfl, _, hk, _, hs, rfl, rfl, rfl⟩
    exact ⟨hk, hs, rfl⟩
  · rintro ⟨hk, hs, he⟩
    exact ⟨ms, rfl, _, hk, _, hs, rfl, rfl, he⟩

theorem Attribute.restores {default : Attribute} (h : default.extra = []) :
    Restores Attribute.ofValue? Attribute.toValue default.toValue := by
  obtain ⟨key, scope, extra⟩ := default
  obtain rfl : extra = [] := h
  refine Restores.object [("key", "key"), ("scope", "scope")] (fun _ => rfl) (by decide) rfl (fun _ => rfl)
    ?_ ?_ ?_
  · intro v
    cases v <;> rfl
  · intro ms s hs
    exact (Attribute.ofValue?_eq_some.mp hs).2.2
  · intro ms ms' s hs he h
    obtain ⟨hk, hs, -⟩ := Attribute.ofValue?_eq_some.mp hs
    exact Attribute.ofValue?_eq_some.mpr ⟨h.field (.text _) rfl rfl hk, h.field (.optionalText _) rfl rfl hs, he⟩

theorem TimeSeries.ofValue?_eq_some {s : TimeSeries} : TimeSeries.ofValue? (.object ms) = some s ↔
    field? ms "key" "key" text? defaultKey = some s.key ∧ extras ms [("key", "key")] = s.extra := by
  obtain ⟨key, extra⟩ := s
  simp only [TimeSeries.ofValue?, members?, Option.pure_def, Option.bind_eq_bind, Option.bind_eq_some_iff,
    Option.some.injEq, TimeSeries.mk.injEq]
  constructor
  · rintro ⟨_, rfl, _, hk, rfl, rfl⟩
    exact ⟨hk, rfl⟩
  · rintro ⟨hk, he⟩
    exact ⟨ms, rfl, _, hk, rfl, he⟩

theorem TimeSeries.restores {default : TimeSeries} (h : default.extra = []) :
    Restores TimeSeries.ofValue? TimeSeries.toValue default.toValue := by
  obtain ⟨key, extra⟩ := default
  obtain rfl : extra = [] := h
  have hwrite (s : TimeSeries) : s.toValue = .object ([("key", .text s.key)] ++ s.extra) := rfl
  refine Restores.object [("key", "key")] hwrite (by decide) rfl (fun _ => rfl) ?_ ?_ ?_
  · intro v
    cases v <;> rfl
  · intro ms s hs
    exact (TimeSeries.ofValue?_eq_some.mp hs).2
  · intro ms ms' s hs he h
    obtain ⟨hk, -⟩ := TimeSeries.ofValue?_eq_some.mp hs
    exact TimeSeries.ofValue?_eq_some.mpr ⟨h.field (.text _) rfl rfl hk, he⟩

theorem Inbound.ofValue?_eq_some {s : Inbound} : Inbound.ofValue? (.object ms) = some s ↔
    field? ms "type" "type" text? ({} : Inbound).type = some s.type ∧
    field? ms "compareToValue" "compare_to_value" any? ({} : Inbound).compareTo = some s.compareTo ∧
    field? ms "dataToValueFunction" "data_to_value_function" text? ({} : Inbound).function = some s.function ∧
    extras ms Inbound.keys = s.extra := by
  obtain ⟨type, compareTo, function, extra⟩ := s
  simp only [Inbound.ofValue?, members?, Option.pure_def, Option.bind_eq_bind, Option.bind_eq_some_iff,
    Option.some.injEq, Inbound.mk.injEq]
  constructor
  · rintro ⟨_, rfl, _, ht, _, hc, _, hf, rfl, rfl, rfl, rfl⟩
    exact ⟨ht, hc, hf, rfl⟩
  · rintro ⟨ht, hc, hf, he⟩
    exact ⟨ms, rfl, _, ht, _, hc, _, hf, rfl, rfl, rfl, he⟩

theorem Inbound.restores {default : Inbound} (h : default.extra = []) (hc : Keyed default.compareTo) :
    Restores Inbound.ofValue? Inbound.toValue default.toValue := by
  obtain ⟨type, compareTo, function, extra⟩ := default
  obtain rfl : extra = [] := h
  refine Restores.object Inbound.keys (fun _ => rfl) (by decide) rfl (fun _ => rfl) ?_ ?_ ?_
  · intro v
    cases v <;> rfl
  · intro ms s hs
    exact (Inbound.ofValue?_eq_some.mp hs).2.2.2
  · intro ms ms' s hs he h
    obtain ⟨ht, hv, hf, -⟩ := Inbound.ofValue?_eq_some.mp hs
    exact Inbound.ofValue?_eq_some.mpr ⟨h.field (.text _) rfl rfl ht, h.field (.any hc) rfl rfl hv,
      h.field (.text _) rfl rfl hf, he⟩

theorem Outbound.ofValue?_eq_some {s : Outbound} : Outbound.ofValue? (.object ms) = some s ↔
    field? ms "type" "type" text? ({} : Outbound).type = some s.type ∧
    field? ms "constantValue" "constant_value" any? ({} : Outbound).constant = some s.constant ∧
    field? ms "valueToDataFunction" "value_to_data_function" text? ({} : Outbound).function = some s.function ∧
    extras ms Outbound.keys = s.extra := by
  obtain ⟨type, constant, function, extra⟩ := s
  simp only [Outbound.ofValue?, members?, Option.pure_def, Option.bind_eq_bind, Option.bind_eq_some_iff,
    Option.some.injEq, Outbound.mk.injEq]
  constructor
  · rintro ⟨_, rfl, _, ht, _, hc, _, hf, rfl, rfl, rfl, rfl⟩
    exact ⟨ht, hc, hf, rfl⟩
  · rintro ⟨ht, hc, hf, he⟩
    exact ⟨ms, rfl, _, ht, _, hc, _, hf, rfl, rfl, rfl, he⟩

theorem Outbound.restores {default : Outbound} (h : default.extra = []) (hc : Keyed default.constant) :
    Restores Outbound.ofValue? Outbound.toValue default.toValue := by
  obtain ⟨type, constant, function, extra⟩ := default
  obtain rfl : extra = [] := h
  refine Restores.object Outbound.keys (fun _ => rfl) (by decide) rfl (fun _ => rfl) ?_ ?_ ?_
  · intro v
    cases v <;> rfl
  · intro ms s hs
    exact (Outbound.ofValue?_eq_some.mp hs).2.2.2
  · intro ms ms' s hs he h
    obtain ⟨ht, hv, hf, -⟩ := Outbound.ofValue?_eq_some.mp hs
    exact Outbound.ofValue?_eq_some.mpr ⟨h.field (.text _) rfl rfl ht, h.field (.any hc) rfl rfl hv,
      h.field (.text _) rfl rfl hf, he⟩

theorem Acquisition.ofValue?_eq_some {s : Acquisition} : Acquisition.ofValue? (.object ms) = some s ↔
    field? ms "action" "action" (oneOf? Acquisition.actions) "DO_NOTHING" = some s.action ∧
    field? ms "defaultValue" "default_value" any? .null = some s.default ∧
    field? ms "executeRpc" "execute_rpc" Rpc.ofValue? { method := "getState" } = some s.rpc ∧
    field? ms "getAttribute" "get_attribute" Attribute.ofValue? {} = some s.attr ∧
    field? ms "getTimeSeries" "get_time_series" TimeSeries.ofValue? {} = some s.timeSeries ∧
    field? ms "dataToValue" "data_to_value" Inbound.ofValue? {} = some s.inbound ∧
    (∃ label, field? ms "actionLabel" "action_label" (optional? text?) none = some label ∧
      optionalText label = s.label) ∧
    extras ms Acquisition.keys = s.extra := by
  obtain ⟨action, default, rpc, attr, timeSeries, inbound, label, extra⟩ := s
  simp only [Acquisition.ofValue?, members?, Option.pure_def, Option.bind_eq_bind, Option.bind_eq_some_iff,
    Option.some.injEq, Acquisition.mk.injEq]
  constructor
  · rintro ⟨_, rfl, _, ha, _, hd, _, hr, _, hg, _, ht, _, hi, l, hl, rfl, rfl, rfl, rfl, rfl, rfl, rfl, rfl⟩
    exact ⟨ha, hd, hr, hg, ht, hi, ⟨l, hl, rfl⟩, rfl⟩
  · rintro ⟨ha, hd, hr, hg, ht, hi, ⟨l, hl, rfl⟩, he⟩
    exact ⟨ms, rfl, _, ha, _, hd, _, hr, _, hg, _, ht, _, hi, l, hl, rfl, rfl, rfl, rfl, rfl, rfl, rfl, he⟩

theorem Acquisition.restores {default : Value} (hc : Keyed default) :
    Restores Acquisition.ofValue? Acquisition.toValue (Acquisition.toValue { default }) := by
  refine Restores.object Acquisition.keys (fun _ => rfl) (by decide) rfl (fun _ => rfl) ?_ ?_ ?_
  · intro v
    cases v <;> rfl
  · intro ms s hs
    exact (Acquisition.ofValue?_eq_some.mp hs).2.2.2.2.2.2.2
  · intro ms ms' s hs he h
    obtain ⟨ha, hd, hr, hg, ht, hi, ⟨l, hl, hlabel⟩, -⟩ := Acquisition.ofValue?_eq_some.mp hs
    have hlabel' : field? ms' "actionLabel" "action_label" (optional? text?) none = some l :=
      h.field (.optionalText _) rfl (congrArg some hlabel.symm) hl
    exact Acquisition.ofValue?_eq_some.mpr ⟨h.field (.oneOf _ _) rfl rfl ha, h.field (.any hc) rfl rfl hd,
      h.field (Rpc.restores rfl) rfl rfl hr, h.field (Attribute.restores rfl) rfl rfl hg,
      h.field (TimeSeries.restores rfl) rfl rfl ht, h.field (Inbound.restores rfl (.leaf rfl)) rfl rfl hi,
      ⟨l, hlabel', hlabel⟩, he⟩

theorem Dispatch.ofValue?_eq_some {s : Dispatch} : Dispatch.ofValue? (.object ms) = some s ↔
    field? ms "action" "action" (oneOf? Dispatch.actions) "EXECUTE_RPC" = some s.action ∧
    field? ms "executeRpc" "execute_rpc" Rpc.ofValue? { method := "setState" } = some s.rpc ∧
    field? ms "setAttribute" "set_attribute" Attribute.ofValue? { scope := some "SERVER_SCOPE" } = some s.attr ∧
    field? ms "putTimeSeries" "put_time_series" TimeSeries.ofValue? {} = some s.timeSeries ∧
    field? ms "valueToData" "value_to_data" Outbound.ofValue? {} = some s.outbound ∧
    (∃ label, field? ms "actionLabel" "action_label" (optional? text?) none = some label ∧
      optionalText label = s.label) ∧
    extras ms Dispatch.keys = s.extra := by
  obtain ⟨action, rpc, attr, timeSeries, outbound, label, extra⟩ := s
  simp only [Dispatch.ofValue?, members?, Option.pure_def, Option.bind_eq_bind, Option.bind_eq_some_iff,
    Option.some.injEq, Dispatch.mk.injEq]
  constructor
  · rintro ⟨_, rfl, _, ha, _, hr, _, hg, _, ht, _, ho, l, hl, rfl, rfl, rfl, rfl, rfl, rfl, rfl⟩
    exact ⟨ha, hr, hg, ht, ho, ⟨l, hl, rfl⟩, rfl⟩
  · rintro ⟨ha, hr, hg, ht, ho, ⟨l, hl, rfl⟩, he⟩
    exact ⟨ms, rfl, _, ha, _, hr, _, hg, _, ht, _, ho, l, hl, rfl, rfl, rfl, rfl, rfl, rfl, he⟩

theorem Dispatch.restores {outbound : Outbound} (he : outbound.extra = []) (hc : Keyed outbound.constant) :
    Restores Dispatch.ofValue? Dispatch.toValue (Dispatch.toValue { outbound }) := by
  refine Restores.object Dispatch.keys (fun _ => rfl) (by decide) rfl (fun _ => rfl) ?_ ?_ ?_
  · intro v
    cases v <;> rfl
  · intro ms s hs
    exact (Dispatch.ofValue?_eq_some.mp hs).2.2.2.2.2.2
  · intro ms ms' s hs hx h
    obtain ⟨ha, hr, hg, ht, ho, ⟨l, hl, hlabel⟩, -⟩ := Dispatch.ofValue?_eq_some.mp hs
    have hlabel' : field? ms' "actionLabel" "action_label" (optional? text?) none = some l :=
      h.field (.optionalText _) rfl (congrArg some hlabel.symm) hl
    exact Dispatch.ofValue?_eq_some.mpr ⟨h.field (.oneOf _ _) rfl rfl ha, h.field (Rpc.restores rfl) rfl rfl hr,
      h.field (Attribute.restores rfl) rfl rfl hg, h.field (TimeSeries.restores rfl) rfl rfl ht,
      h.field (Outbound.restores he hc) rfl rfl ho, ⟨l, hlabel', hlabel⟩, hx⟩

theorem WidgetAction.ofValue?_eq_some {s : WidgetAction} : WidgetAction.ofValue? (.object ms) = some s ↔
    field? ms "type" "type" text? "updateDashboardState" = some s.type ∧
    field? ms "targetDashboardStateId" "target_dashboard_state_id" (optional? text?) none =
      some s.targetState ∧
    field? ms "openRightLayout" "open_right_layout" bool? false = some s.openRightLayout ∧
    field? ms "setEntityId" "set_entity_id" bool? true = some s.setEntityId ∧
    field? ms "stateEntityParamName" "state_entity_param_name" (optional? text?) none =
      some s.entityParameter ∧
    extras ms WidgetAction.keys = s.extra := by
  obtain ⟨type, target, layout, entity, parameter, extra⟩ := s
  simp only [WidgetAction.ofValue?, members?, Option.pure_def, Option.bind_eq_bind, Option.bind_eq_some_iff,
    Option.some.injEq, WidgetAction.mk.injEq]
  constructor
  · rintro ⟨_, rfl, _, ht, _, hs, _, hl, _, he, _, hp, rfl, rfl, rfl, rfl, rfl, rfl⟩
    exact ⟨ht, hs, hl, he, hp, rfl⟩
  · rintro ⟨ht, hs, hl, he, hp, hx⟩
    exact ⟨ms, rfl, _, ht, _, hs, _, hl, _, he, _, hp, rfl, rfl, rfl, rfl, rfl, hx⟩

theorem WidgetAction.restores : Restores WidgetAction.ofValue? WidgetAction.toValue (WidgetAction.toValue {}) := by
  refine Restores.object WidgetAction.keys (fun _ => rfl) (by decide) rfl (fun _ => rfl) ?_ ?_ ?_
  · intro v
    cases v <;> rfl
  · intro ms s hs
    exact (WidgetAction.ofValue?_eq_some.mp hs).2.2.2.2.2
  · intro ms ms' s hs hx h
    obtain ⟨ht, hs, hl, he, hp, -⟩ := WidgetAction.ofValue?_eq_some.mp hs
    exact WidgetAction.ofValue?_eq_some.mpr ⟨h.field (.text _) rfl rfl ht, h.field (.optionalText _) rfl rfl hs,
      h.field (.bool _) rfl rfl hl, h.field (.bool _) rfl rfl he, h.field (.optionalText _) rfl rfl hp, hx⟩

/-! ### Entries -/

theorem Restores.map {β : Type} {write' : β → Value} {f : α → β} (h : Restores read write c)
    (hw : ∀ a, write' (f a) = write a) : Restores (fun v => (read v).map f) write' c := by
  intro o b ho hr
  obtain ⟨a, ha, rfl⟩ := Option.map_eq_some_iff.mp hr
  rw [hw]
  exact congrArg (Option.map f) (h o a ho ha)

theorem entry_restores {k : Behavior.Kind} {own : Entry} (hkeyed : ∀ m ∈ Descriptor.kindMembers k, Keyed m.2)
    (hown : defaultEntry k = .ok own.toValue) : Restores (entryOf? k) Entry.toValue own.toValue := by
  cases k with
  | value type default =>
    have hdefault : Keyed default := hkeyed ("defaultValue", default) (by simp [Descriptor.kindMembers])
    rw [← Except.ok.inj hown]
    exact (Acquisition.restores hdefault).map fun _ => rfl
  | action dataType constant function =>
    have hconstant : Keyed constant := hkeyed ("constantValue", constant) (by simp [Descriptor.kindMembers])
    obtain ⟨type, -, hown⟩ := Json.bind_eq_ok.mp hown
    obtain ⟨text, -, hown⟩ := Json.bind_eq_ok.mp hown
    rw [← Except.ok.inj hown]
    exact (Dispatch.restores rfl hconstant).map fun _ => rfl
  | widget =>
    rw [← Except.ok.inj hown]
    exact WidgetAction.restores.map fun _ => rfl

/-- An entry fits where it is written as an override, and is the entry again. -/
theorem entryOf?_resolved {b : Behavior} {own : Entry} (hr : Restores (entryOf? b.kind) Entry.toValue own.toValue)
    (hvalid : entryOf? b.kind own.toValue = some own) {o : Option Value} (ho : ∀ v ∈ o, Keyed v) :
    entryOf? b.kind (own.toValue.override (resolved b own o).toValue) = some (resolved b own o) := by
  unfold resolved
  cases h : entryOf? b.kind (overridden own.toValue o) with
  | some e => exact hr o e ho h
  | none => exact hr none own (fun _ hv => nomatch hv) hvalid

/-! ### All settings -/

/-- Entries as they are written, under their names. -/
def Table.written (t : Table Entry) : Table Value := t.map fun e => (e.1, e.2.toValue)

/-- The members of an object that is made of a table. -/
def Table.members (t : Table Value) : List (String × Value) := t.map fun e => (keyText e.1, e.2)

theorem Table.toValue_eq (t : Table Value) : t.toValue = .object t.members := rfl

theorem Table.keys_members {t : Table Value} (texts : ∀ k ∈ t.map (·.1), ∃ s, k = .text s)
    (distinct : (t.map (·.1)).Nodup) : (t.members.map (·.1)).Nodup := by
  have hkeys : t.members.map (·.1) = (t.map (·.1)).map keyText := by
    simp [members]
  rw [hkeys]
  apply List.Nodup.map_on _ distinct
  intro k hk k' hk' he
  obtain ⟨s, rfl⟩ := texts k hk
  obtain ⟨s', rfl⟩ := texts k' hk'
  exact congrArg Value.text he

theorem Table.said_members {t : Table Value} (texts : ∀ k ∈ t.map (·.1), ∃ s, k = .text s)
    (distinct : (t.map (·.1)).Nodup) {id : Value} (h : (id, v) ∈ t) : said t.members id = some v := by
  obtain ⟨s, rfl⟩ := texts id (List.mem_map_of_mem h)
  exact Value.Members.get?_of_mem (keys_members texts distinct) (List.mem_map_of_mem h)

section Descriptor

variable {d : Descriptor} {own : Behavior → Entry} {os : List (String × Value)}

theorem keys_written : (resolvedTable d own os).written.map (·.1) =
    d.behaviors.map (·.id) ++ d.properties.map (·.id) := by
  rw [← keys_resolvedTable d own os]
  simp [Table.written]

theorem texts_of_plain (plain : d.Plain) :
    ∀ k ∈ (resolvedTable d own os).written.map (·.1), ∃ s, k = .text s := by
  intro k hk
  rw [keys_written] at hk
  rcases List.mem_append.mp hk with hk | hk
  · obtain ⟨b, hb, rfl⟩ := List.mem_map.mp hk
    exact plain.behaviors b hb
  · obtain ⟨p, hp, rfl⟩ := List.mem_map.mp hk
    exact plain.properties p hp

/-- Settings that are written say of each name what its entry is. -/
theorem said_written (plain : d.Plain) (ids : (d.behaviors.map (·.id) ++ d.properties.map (·.id)).Nodup)
    {id : Value} {e : Entry} (h : (id, e) ∈ resolvedTable d own os) :
    said (resolvedTable d own os).written.members id = some e.toValue := by
  apply Table.said_members (texts_of_plain plain)
  · rwa [keys_written]
  · exact List.mem_map_of_mem (f := fun e => (e.1, e.2.toValue)) h

theorem defaults_written (plain : d.Plain) (ids : (d.behaviors.map (·.id) ++ d.properties.map (·.id)).Nodup)
    (hown : ∀ b ∈ d.behaviors, defaultEntry b.kind = .ok (own b).toValue ∧
      entryOf? b.kind (own b).toValue = some (own b)) : defaults d = .ok (resolvedTable d own []).written := by
  have hnone : ∀ id, said [] id = none := by
    intro id
    cases id <;> rfl
  have hresolved : ∀ b ∈ d.behaviors, resolved b (own b) (said [] b.id) = own b := by
    intro b hb
    rw [hnone, resolved, overridden, (hown b hb).2]
    rfl
  rw [defaults_eq plain ids fun b hb => (hown b hb).1, Table.written, resolvedTable, List.map_append,
    List.map_map, List.map_map]
  refine congrArg Except.ok (congrArg₂ (· ++ ·) (List.map_congr_left ?_) (List.map_congr_left ?_))
  · intro b hb
    exact congrArg (fun e => (b.id, e.toValue)) (hresolved b hb).symm
  · intro p _
    exact congrArg (fun o => (p.id, overridden p.default o)) (hnone p.id).symm

end Descriptor

end LiveSvg.Settings

namespace LiveSvg

open Value (Keyed)

theorem Value.keyed_of_fits {depth : Nat} {v : Value} (h : Json.Fits depth v) : Keyed v := by
  induction h with
  | object hn _ ih => exact .object hn ih
  | _ => exact .leaf rfl

/-- What a descriptor holds for a behavior and for a property names no member twice. -/
theorem Descriptor.parse_keyed {text : String} {d : Descriptor} (h : parse text = .ok d) :
    (∀ b ∈ d.behaviors, ∀ m ∈ kindMembers b.kind, Keyed m.2) ∧ ∀ p ∈ d.properties, Keyed p.default := by
  have hfits : Json.Fits (995 + 5) d.toValue := (parse_spec h).1
  have hms := hfits.members.2
  constructor
  · intro b hb m hm
    have hlist := hms ("behavior", .list (d.behaviors.map behaviorValue)) (by simp)
    have hvalue := hlist.items (behaviorValue b) (List.mem_map_of_mem hb)
    exact Value.keyed_of_fits (hvalue.members.2 m (List.mem_append_right _ hm))
  · intro p hp
    have hlist := hms ("properties", .list (d.properties.map propertyValue)) (by simp)
    have hvalue := hlist.items (propertyValue p) (List.mem_map_of_mem hp)
    exact Value.keyed_of_fits (hvalue.members.2 ("default", p.default) (by simp))

open Settings

/-- Settings that were resolved are restored. Written out under their names they are overrides under which
the same settings are resolved, of which none is rejected; and settings that nothing overrides are written as
the defaults. -/
theorem settings_restored {text : String} {d : Descriptor} {os : List (String × Value)}
    (h : Descriptor.parse text = .ok d) (plain : d.Plain) (keyed : Keyed (.object os)) :
    ∃ t, (resolve d (.object os)).2 = .ok t ∧ resolve d t.written.toValue = ([], .ok t) ∧
      (os = [] → defaults d = .ok t.written) := by
  have ids := plain.nodup h
  obtain ⟨hbehaviors, hproperties⟩ := Descriptor.parse_keyed h
  have : Nonempty Entry := ⟨.literal .null⟩
  choose! own hown using fun b hb => default_valid (plain.worded b hb)
  let again := (resolvedTable d own os).written.members
  have hagain : (again.map (·.1)).Nodup := by
    apply Table.keys_members (texts_of_plain plain)
    rwa [keys_written]
  have hkeyed : ∀ id, ∀ v ∈ said os id, Keyed v := by
    intro id v hv
    cases id with
    | text s => exact keyed.member hv
    | _ => cases hv
  have hentry : ∀ b ∈ d.behaviors, entryOf? b.kind (overridden (own b).toValue (said again b.id)) =
      some (resolved b (own b) (said os b.id)) := by
    intro b hb
    rw [said_written plain ids (List.mem_append_left _ (List.mem_map_of_mem hb))]
    exact entryOf?_resolved (entry_restores (hbehaviors b hb) (hown b hb).1) (hown b hb).2 (hkeyed b.id)
  have hliteral : ∀ p ∈ d.properties, overridden p.default (said again p.id) =
      overridden p.default (said os p.id) := by
    intro p hp
    rw [said_written plain ids (List.mem_append_right _ (List.mem_map_of_mem hp))]
    exact overridden_again (hproperties p hp) (hkeyed p.id)
  have hrejections : rejections d own again = [] := by
    rw [rejections, List.flatMap_eq_nil_iff]
    intro b hb
    rw [hentry b hb]
    rfl
  have htable : resolvedTable d own again = resolvedTable d own os := by
    refine congrArg₂ (· ++ ·) (List.map_congr_left ?_) (List.map_congr_left ?_)
    · intro b hb
      rw [resolved, hentry b hb]
      rfl
    · intro p hp
      rw [hliteral p hp]
  refine ⟨resolvedTable d own os, resolve_eq plain ids hown keyed.distinct, ?_, ?_⟩
  · rw [Table.toValue_eq, resolve_logged plain ids hown hagain, hrejections, htable]
  · rintro rfl
    exact defaults_written plain ids hown

/-- Overrides of which one is read leniently, one does not fit and one puts an object in place of a number. -/
def lenientOverrides : List (String × Value) :=
  [("b", .object [("executeRpc", .object [("requestTimeout", .text "7")]), ("action_label", .int 1)]),
    ("a", .int 7), ("p", .object [("x", .null)])]

/-- It is so for a descriptor with a value, an action and a property under such overrides. -/
theorem settings_restored_lenient : ∃ d t, Descriptor.parse plainText = .ok d ∧
    (resolve d (.object lenientOverrides)).2 = .ok t ∧ resolve d t.written.toValue = ([], .ok t) := by
  obtain ⟨d, hd, plain⟩ := plainText_plain
  have keyed : Keyed (.object lenientOverrides) := by
    refine .object (by decide) ?_
    simp only [lenientOverrides, List.forall_mem_cons]
    refine ⟨.object (by decide) ?_, .leaf rfl, .object (by decide) ?_, by simp⟩
    · simp only [List.forall_mem_cons]
      refine ⟨.object (by decide) ?_, .leaf rfl, by simp⟩
      simp only [List.forall_mem_cons]
      exact ⟨.leaf rfl, by simp⟩
    · simp only [List.forall_mem_cons]
      exact ⟨.leaf rfl, by simp⟩
  obtain ⟨t, ht, hagain, -⟩ := settings_restored hd plain keyed
  exact ⟨d, t, hd, ht, hagain⟩

end LiveSvg
