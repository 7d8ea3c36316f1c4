import LiveSvg.Proofs.Members
import LiveSvg.Settings.Resolve
/-!
What merging one object into another keeps. A value that is no object stands at the end of keys that lead to
it through objects; after merging, such a value comes from the overrides, or from what was there before where
the overrides do not lead. Merging what has been merged changes nothing.
-/

namespace LiveSvg

namespace Value

open Members (get?_set keys_set)

/-- Whether a value is no object. -/
def isLeaf : Value → Bool
  | .object _ => false
  | _ => true

/-- Values in which no object that is reached through objects names a member twice. -/
inductive Keyed : Value → Prop where
  | leaf {v : Value} (h : v.isLeaf) : Keyed v
  | object {ms : List (String × Value)} (distinct : (ms.map (·.1)).Nodup) (h : ∀ m ∈ ms, Keyed m.2) :
      Keyed (.object ms)

/-- What keys lead to, one after the other. -/
def along? : Value → List String → Option Value
  | v, [] => some v
  | v, key :: path => (v.get? key).bind fun w => w.along? path

/-- Whether keys lead through objects to one under which there is nothing. -/
def lacks : Value → List String → Bool
  | .object ms, key :: path =>
    match Members.get? ms key with
    | some v => v.lacks path
    | none => true
  | _, _ => false

/-- What a value becomes on top of what is there, if anything is. -/
def laidOn (v : Value) : Option Value → Value
  | some current => current.override v
  | none => v

variable {v w : Value} {olds news : List (String × Value)} {key : String} {path : List String}

theorem Keyed.distinct (h : Keyed (.object news)) : (news.map (·.1)).Nodup := by
  cases h with
  | leaf h => simp [isLeaf] at h
  | object distinct _ => exact distinct

theorem Keyed.member (h : Keyed (.object news)) (hv : Members.get? news key = some v) : Keyed v := by
  cases h with
  | leaf h => simp [isLeaf] at h
  | object _ h => exact h _ (Members.mem_of_get? hv)

theorem override_leaf (h : v.isLeaf) (current : Value) : current.override v = v := by
  cases v <;> simp [isLeaf, override] at h ⊢

theorem override_object (olds news : List (String × Value)) :
    (Value.object olds).override (.object news) = .object (merge olds news) := by
  rw [override]

/-! ### Members -/

theorem merge_cons (olds : List (String × Value)) (key : String) (v : Value) (news : List (String × Value)) :
    merge olds ((key, v) :: news) =
      merge (Members.set olds key (v.laidOn (Members.get? olds key))) news := by
  rw [merge]
  cases Members.get? olds key <;> rfl

/-- Under a key of the overrides there is what they make of what was there, and under any other what was
there. -/
theorem get?_merge (distinct : (news.map (·.1)).Nodup) (olds : List (String × Value)) (key : String) :
    Members.get? (merge olds news) key =
      ((Members.get? news key).map fun v => v.laidOn (Members.get? olds key)).or (Members.get? olds key) := by
  induction news generalizing olds with
  | nil => simp [merge, Members.get?]
  | cons n news ih =>
    obtain ⟨k, v⟩ := n
    rw [List.map_cons, List.nodup_cons] at distinct
    rw [merge_cons, ih distinct.2, get?_set, Members.get?]
    by_cases hk : k = key
    · subst hk
      have hnone : Members.get? news k = none := Members.get?_eq_none_iff.mpr distinct.1
      simp [hnone]
    · simp [hk]

/-- The keys of the overrides that are new come after those that were there. -/
theorem keys_merge (distinct : (news.map (·.1)).Nodup) (olds : List (String × Value)) :
    (merge olds news).map (·.1) =
      olds.map (·.1) ++ (news.map (·.1)).filter fun key => key ∉ olds.map (·.1) := by
  induction news generalizing olds with
  | nil => simp [merge]
  | cons n news ih =>
    obtain ⟨k, v⟩ := n
    rw [List.map_cons, List.nodup_cons] at distinct
    rw [merge_cons, ih distinct.2, keys_set, List.map_cons]
    by_cases hk : k ∈ olds.map (·.1)
    · rw [if_pos hk, List.filter_cons_of_neg (by simpa using hk)]
    · have hrest : (news.map (·.1)).filter (fun key => decide (key ∉ olds.map (·.1) ++ [k])) =
          (news.map (·.1)).filter fun key => decide (key ∉ olds.map (·.1)) := by
        apply List.filter_congr
        intro key hkey
        have hne : key ≠ k := by
          rintro rfl
          exact distinct.1 hkey
        simp [hne]
      rw [if_neg hk, hrest, List.filter_cons_of_pos (by simpa using hk), List.append_assoc]
      rfl

theorem nodup_keys_merge (ho : (olds.map (·.1)).Nodup) (hn : (news.map (·.1)).Nodup) :
    ((merge olds news).map (·.1)).Nodup := by
  rw [keys_merge hn, List.nodup_append]
  refine ⟨ho, hn.filter _, ?_⟩
  intro key hold key' hnew he
  have hfresh : key' ∉ olds.map (·.1) := by simpa using (List.mem_filter.mp hnew).2
  exact hfresh (he ▸ hold)

/-! ### Leaves -/

/-- A leaf is one of the overrides, or was there before where the overrides do not lead. -/
theorem along?_override (hw : Keyed w) (hv : v.isLeaf) (current : Value) :
    (current.override w).along? path = some v ↔
      w.along? path = some v ∨ current.along? path = some v ∧ w.lacks path := by
  induction path generalizing current w with
  | nil =>
    cases w with
    | object news =>
      have hne : ∀ ms, v ≠ .object ms := by
        rintro ms rfl
        simp [isLeaf] at hv
      cases current <;> simp [override, along?, lacks, Ne.symm (hne _)]
    | _ => simp [override, along?, lacks]
  | cons key path ih =>
    cases w with
    | object news =>
      cases current with
      | object olds =>
        rw [override_object]
        simp only [along?, Value.get?, lacks, get?_merge hw.distinct]
        cases hnew : Members.get? news key with
        | none => simp
        | some x =>
          cases hold : Members.get? olds key with
          | none => simp [laidOn]
          | some c => simpa [laidOn] using ih (hw.member hnew) c
      | _ => simp [override, along?, Value.get?]
    | _ => simp [override, along?, Value.get?, lacks]

/-- Where both have an object, merging has the merged one. -/
theorem along?_override_object (hw : Keyed w) {current : Value} (ho : current.along? path = some (.object olds))
    (hn : w.along? path = some (.object news)) :
    (current.override w).along? path = some (.object (merge olds news)) := by
  induction path generalizing current w with
  | nil =>
    simp only [along?, Option.some.injEq] at ho hn
    subst ho hn
    simp [along?, override_object]
  | cons key path ih =>
    cases current with
    | object os =>
      cases w with
      | object ns =>
        simp only [along?, Value.get?, Option.bind_eq_some_iff] at ho hn
        obtain ⟨c, hc, ho⟩ := ho
        obtain ⟨x, hx, hn⟩ := hn
        rw [override_object]
        simp [along?, Value.get?, get?_merge hw.distinct, hc, hx, laidOn, ih (hw.member hx) ho hn]
      | _ => simp [along?, Value.get?] at hn
    | _ => simp [along?, Value.get?] at ho

/-! ### Merging again -/

/-- Overrides change nothing that they find under their keys as they would make it. -/
theorem merge_eq_left (ho : (olds.map (·.1)).Nodup) (hn : (news.map (·.1)).Nodup)
    (hk : ∀ key ∈ news.map (·.1), key ∈ olds.map (·.1))
    (h : ∀ key v c, Members.get? news key = some v → Members.get? olds key = some c → c.override v = c) :
    merge olds news = olds := by
  apply Members.ext_of_keys ho
  · rw [keys_merge hn, List.filter_eq_nil_iff.mpr, List.append_nil]
    intro key hkey
    simpa using hk key hkey
  · intro key hkey
    rw [get?_merge hn]
    cases hv : Members.get? news key with
    | none => rfl
    | some v =>
      obtain ⟨c, hc⟩ := Members.exists_get? hkey
      simp [hc, laidOn, h key v c hv hc]

/-- Overrides that say of everything what it becomes are what comes of it. -/
theorem merge_eq_right (hn : (news.map (·.1)).Nodup)
    (hk : news.map (·.1) = olds.map (·.1) ++ (news.map (·.1)).filter fun key => key ∉ olds.map (·.1))
    (h : ∀ key v, Members.get? news key = some v → v.laidOn (Members.get? olds key) = v) :
    merge olds news = news := by
  apply Members.ext_of_keys hn
  · rw [keys_merge hn, ← hk]
  · intro key hkey
    obtain ⟨v, hv⟩ := Members.exists_get? hkey
    rw [get?_merge hn, hv, Option.map_some, h key v hv, Option.some_or]

theorem override_self (h : Keyed v) : v.override v = v := by
  induction h with
  | leaf h => exact override_leaf h _
  | @object ms distinct h ih =>
    have hms : merge ms ms = ms := by
      apply merge_eq_left distinct distinct (fun _ hkey => hkey)
      intro key v c hv hc
      obtain rfl : v = c := by simpa [hv] using hc
      exact ih _ (Members.mem_of_get? hv)
    rw [override_object, hms]

/-- Overrides that have been merged have nothing more to change. -/
theorem override_again (hw : Keyed w) {current : Value} (hc : Keyed current) :
    (current.override w).override w = current.override w := by
  induction hw generalizing current with
  | leaf h => simp [override_leaf h]
  | @object news distinct h ih =>
    cases current with
    | object olds =>
      have hkeys : ∀ key ∈ news.map (·.1), key ∈ (merge olds news).map (·.1) := by
        intro key hkey
        rw [keys_merge distinct, List.mem_append, List.mem_filter]
        by_cases hold : key ∈ olds.map (·.1)
        · exact .inl hold
        · exact .inr ⟨hkey, by simpa using hold⟩
      rw [override_object, override_object]
      congr 1
      apply merge_eq_left (nodup_keys_merge hc.distinct distinct) distinct hkeys
      intro key v c hv hm
      have hmem := Members.mem_of_get? hv
      rw [get?_merge distinct, hv, Option.map_some, Option.some_or, Option.some.injEq] at hm
      subst hm
      cases hold : Members.get? olds key with
      | none => exact override_self (h _ hmem)
      | some c => exact ih _ hmem (hc.member hold)
    | _ => exact override_self (.object distinct h)

/-- What comes of overrides is what it makes of what was there before. -/
theorem override_merged (hw : Keyed w) {current : Value} (hc : Keyed current) :
    current.override (current.override w) = current.override w := by
  induction hw generalizing current with
  | leaf h => simp [override_leaf h]
  | @object news distinct h ih =>
    cases current with
    | object olds =>
      have hmerged := nodup_keys_merge hc.distinct distinct
      rw [override_object, override_object]
      congr 1
      apply merge_eq_right hmerged
      · have hnone : (olds.map (·.1)).filter (fun key => decide (key ∉ olds.map (·.1))) = [] := by simp
        rw [keys_merge distinct, List.filter_append, hnone, List.filter_filter]
        simp
      · intro key v hv
        rw [get?_merge distinct] at hv
        cases hold : Members.get? olds key with
        | none => rfl
        | some c =>
          cases hnew : Members.get? news key with
          | none =>
            obtain rfl : c = v := by simpa [hold, hnew] using hv
            exact override_self (hc.member hold)
          | some x =>
            obtain rfl : c.override x = v := by simpa [hold, hnew, laidOn] using hv
            exact ih _ (Members.mem_of_get? hnew) (hc.member hold)
    | _ => rfl

theorem Keyed.along? (h : Keyed v) (hv : v.along? path = some w) : Keyed w := by
  induction path generalizing v with
  | nil =>
    simp only [Value.along?, Option.some.injEq] at hv
    exact hv ▸ h
  | cons key path ih =>
    cases v with
    | object ms =>
      obtain ⟨x, hx, hv⟩ := Option.bind_eq_some_iff.mp hv
      exact ih (h.member hx) hv
    | _ => simp [Value.along?, Value.get?] at hv

/-- Keys lead from an object to a value that is none. -/
def HasLeaf (ms : List (String × Value)) (path : List String) (v : Value) : Prop :=
  (Value.object ms).along? path = some v ∧ v.isLeaf

end Value

theorem Settings.mergeInto_object (olds news : List (String × Value)) :
    mergeInto (.object olds) (.object news) = .ok (.object (Value.merge olds news)) := by
  cases news with
  | nil =>
    rw [Value.merge]
    rfl
  | cons n news => rfl

open Value Settings in
/-- An object with overrides merged in has the leaves of the overrides, and of its own those to which the
overrides do not lead because a key is missing from them on the way; it has no other ones. Where both are
objects, the keys stay in their order and the new ones follow in theirs. Merging the overrides once more, or
what has come of them into what was there before, gives the same again. -/
theorem merge_leaves {olds news : List (String × Value)} (ho : Keyed (.object olds)) (hn : Keyed (.object news)) :
    ∃ ms, mergeInto (.object olds) (.object news) = .ok (.object ms) ∧
      (∀ path v, HasLeaf ms path v ↔
        HasLeaf news path v ∨ HasLeaf olds path v ∧ (Value.object news).lacks path) ∧
      (∀ path os ns, (Value.object olds).along? path = some (.object os) →
        (Value.object news).along? path = some (.object ns) →
        ∃ xs, (Value.object ms).along? path = some (.object xs) ∧
          xs.map (·.1) = os.map (·.1) ++ (ns.map (·.1)).filter fun key => key ∉ os.map (·.1)) ∧
      mergeInto (.object ms) (.object news) = .ok (.object ms) ∧
      mergeInto (.object olds) (.object ms) = .ok (.object ms) := by
  refine ⟨merge olds news, mergeInto_object olds news, ?_, ?_, ?_, ?_⟩
  · intro path v
    constructor
    · rintro ⟨hm, hv⟩
      rw [← override_object, along?_override hn hv] at hm
      exact hm.imp (fun h => ⟨h, hv⟩) fun h => ⟨⟨h.1, hv⟩, h.2⟩
    · rintro (⟨h, hv⟩ | ⟨⟨h, hv⟩, hlacks⟩)
      · exact ⟨(along?_override hn hv (.object olds)).mpr (.inl h), hv⟩
      · exact ⟨(along?_override hn hv (.object olds)).mpr (.inr ⟨h, hlacks⟩), hv⟩
  · intro path os ns hos hns
    have hkeys := keys_merge (hn.along? hns).distinct os
    refine ⟨merge os ns, ?_, hkeys⟩
    simpa only [override_object] using along?_override_object hn hos hns
  · have h := override_again hn ho
    rw [override_object, override_object] at h
    rw [mergeInto_object, h]
  · have h := override_merged hn ho
    rw [override_object, override_object] at h
    rw [mergeInto_object, h]

/-- A call with its settings, and a list. -/
def callDefaults : List (String × Value) :=
  [("rpc", .object [("method", .text "getState"), ("timeout", .int 5000)]), ("ticks", .list [.int 1, .int 2])]

/-- Overrides that set a member of an object, put an object in the place of a list and add an empty one. -/
def callOverrides : List (String × Value) :=
  [("rpc", .object [("method", .text "readTemp")]), ("ticks", .object [("at", .null)]), ("more", .object [])]

open Value Settings in
/-- It is so for objects that meet objects, lists and nothing. -/
theorem merge_leaves_call : Keyed (.object callDefaults) ∧ Keyed (.object callOverrides) ∧
    ∃ ms, mergeInto (.object callDefaults) (.object callOverrides) = .ok (.object ms) ∧
      HasLeaf ms ["rpc", "method"] (.text "readTemp") ∧ HasLeaf ms ["rpc", "timeout"] (.int 5000) ∧
      HasLeaf ms ["ticks", "at"] .null ∧ ms.map (·.1) = ["rpc", "ticks", "more"] := by
  have ho : Keyed (.object callDefaults) := by
    apply Keyed.object (by decide)
    simp only [callDefaults, List.forall_mem_cons]
    refine ⟨.object (by decide) ?_, .leaf rfl, by simp⟩
    simp only [List.forall_mem_cons]
    exact ⟨.leaf rfl, .leaf rfl, by simp⟩
  have hn : Keyed (.object callOverrides) := by
    apply Keyed.object (by decide)
    simp only [callOverrides, List.forall_mem_cons]
    refine ⟨.object (by decide) ?_, .object (by decide) ?_, .object (by decide) (by simp), by simp⟩
    all_goals
      simp only [List.forall_mem_cons]
      exact ⟨.leaf rfl, by simp⟩
  obtain ⟨ms, hm, hleaf, hkeys, -, -⟩ := merge_leaves ho hn
  obtain ⟨xs, hxs, hkeys⟩ := hkeys [] callDefaults callOverrides rfl rfl
  obtain rfl : ms = xs := by simpa [along?] using hxs
  refine ⟨ho, hn, ms, hm, ?_, ?_, ?_, by simpa [callDefaults, callOverrides] using hkeys⟩
  · exact (hleaf _ _).mpr (.inl ⟨rfl, rfl⟩)
  · exact (hleaf _ _).mpr (.inr ⟨⟨rfl, rfl⟩, rfl⟩)
  · exact (hleaf _ _).mpr (.inl ⟨rfl, rfl⟩)

end LiveSvg
