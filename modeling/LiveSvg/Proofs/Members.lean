import LiveSvg.Value.Basic
/-!
Members of objects: what is found under a key, under which keys anything is found, and what setting one
changes. Objects with the same keys in the same order are told apart by what is found in them.
-/

namespace LiveSvg.Value.Members

variable {α : Type} {ms ns : List (String × α)} {key : String} {a : α}

theorem get?_eq_none_iff : get? ms key = none ↔ key ∉ ms.map (·.1) := by
  induction ms with
  | nil => simp [get?]
  | cons m ms ih =>
    obtain ⟨k, b⟩ := m
    by_cases hk : k = key
    · simp [get?, hk]
    · simp [get?, hk, ih, Ne.symm hk]

theorem exists_get? (h : key ∈ ms.map (·.1)) : ∃ a, get? ms key = some a := by
  cases hget : get? ms key with
  | some a => exact ⟨a, rfl⟩
  | none => exact absurd h (get?_eq_none_iff.mp hget)

theorem mem_of_get? (h : get? ms key = some a) : (key, a) ∈ ms := by
  induction ms with
  | nil => simp [get?] at h
  | cons m ms ih =>
    obtain ⟨k, b⟩ := m
    by_cases hk : k = key
    · have hb : b = a := by simpa [get?, hk] using h
      simp [hk, hb]
    · have hrest : get? ms key = some a := by simpa [get?, hk] using h
      exact List.mem_cons_of_mem _ (ih hrest)

theorem get?_of_mem (distinct : (ms.map (·.1)).Nodup) (h : (key, a) ∈ ms) : get? ms key = some a := by
  induction ms with
  | nil => simp at h
  | cons m ms ih =>
    obtain ⟨k, b⟩ := m
    rw [List.map_cons, List.nodup_cons] at distinct
    rcases List.mem_cons.mp h with he | h
    · cases he
      simp [get?]
    · have hk : k ≠ key := by
        intro e
        apply distinct.1
        rw [e]
        exact List.mem_map_of_mem (f := (·.1)) h
      simp [get?, hk, ih distinct.2 h]

theorem get?_append (ms ns : List (String × α)) (key : String) :
    get? (ms ++ ns) key = (get? ms key).or (get? ns key) := by
  induction ms with
  | nil => rfl
  | cons m ms ih =>
    obtain ⟨k, b⟩ := m
    by_cases hk : k = key
    · simp [get?, hk]
    · simp [get?, hk, ih]

theorem get?_filter (p : String → Bool) (ms : List (String × α)) (key : String) :
    get? (ms.filter fun m => p m.1) key = if p key then get? ms key else none := by
  induction ms with
  | nil => simp [get?]
  | cons m ms ih =>
    obtain ⟨k, b⟩ := m
    by_cases hk : k = key
    · subst hk
      cases hp : p k <;> simp [get?, hp, ih]
    · cases hp : p k <;> simp [get?, hp, hk, ih]

/-! ### Setting a member -/

theorem get?_set (k : String) (a : α) :
    get? (set ms k a) key = if k = key then some a else get? ms key := by
  induction ms with
  | nil => simp [set, get?]
  | cons m ms ih =>
    obtain ⟨j, b⟩ := m
    by_cases hj : j = k
    · by_cases hk : k = key <;> simp [set, get?, hj, hk]
    · rw [set, if_neg hj, get?, get?, ih]
      by_cases hk : k = key
      · have hne : j ≠ key := by simpa [hk] using hj
        simp [hk, hne]
      · simp [hk]

theorem keys_set (key : String) (a : α) : (set ms key a).map (·.1) =
    if key ∈ ms.map (·.1) then ms.map (·.1) else ms.map (·.1) ++ [key] := by
  induction ms with
  | nil => simp [set]
  | cons m ms ih =>
    obtain ⟨k, b⟩ := m
    by_cases hk : k = key
    · simp [set, hk]
    · by_cases hmem : key ∈ ms.map (·.1)
      · simp only [set, hk, if_false, List.map_cons, ih, if_pos hmem]
        rw [if_pos (List.mem_cons_of_mem _ hmem)]
      · have hnew : key ∉ k :: ms.map (·.1) := by
          simpa [Ne.symm hk] using hmem
        simp only [set, hk, if_false, List.map_cons, ih, if_neg hmem]
        rw [if_neg hnew]
        rfl

/-- What is set twice is what is set last. -/
theorem set_set (ms : List (String × α)) (key : String) (a b : α) : set (set ms key a) key b = set ms key b := by
  induction ms with
  | nil => simp [set]
  | cons m ms ih =>
    obtain ⟨k, c⟩ := m
    by_cases h : k = key
    · simp [set, h]
    · simp [set, h, ih]

theorem set_of_not_mem (h : key ∉ ms.map (·.1)) (a : α) : set ms key a = ms ++ [(key, a)] := by
  induction ms with
  | nil => rfl
  | cons m ms ih =>
    obtain ⟨k, b⟩ := m
    have hk : k ≠ key ∧ key ∉ ms.map (·.1) := by
      rw [List.map_cons, List.mem_cons, not_or] at h
      exact ⟨Ne.symm h.1, h.2⟩
    simp [set, hk.1, ih hk.2]

theorem mem_set {m : String × α} (h : m ∈ set ms key a) : m ∈ ms ∨ m.2 = a := by
  induction ms with
  | nil =>
    have hm : m = (key, a) := by simpa [set] using h
    simp [hm]
  | cons e ms ih =>
    obtain ⟨k, b⟩ := e
    by_cases hk : k = key
    · have hm : m = (k, a) ∨ m ∈ ms := by simpa [set, hk] using h
      rcases hm with rfl | hm
      · exact .inr rfl
      · exact .inl (List.mem_cons_of_mem _ hm)
    · have hm : m = (k, b) ∨ m ∈ set ms key a := by simpa [set, hk] using h
      rcases hm with rfl | hm
      · exact .inl List.mem_cons_self
      · exact (ih hm).imp_left (List.mem_cons_of_mem _)

/-! ### Equality -/

/-- Objects that have the same keys, each once and in the same order, are equal if the same is found in both. -/
theorem ext_of_keys (distinct : (ms.map (·.1)).Nodup) (keys : ns.map (·.1) = ms.map (·.1))
    (h : ∀ key ∈ ms.map (·.1), get? ns key = get? ms key) : ns = ms := by
  induction ms generalizing ns with
  | nil => simpa using keys
  | cons m ms ih =>
    obtain ⟨k, a⟩ := m
    cases ns with
    | nil => simp at keys
    | cons n ns =>
      obtain ⟨j, b⟩ := n
      rw [List.map_cons, List.map_cons, List.cons.injEq] at keys
      rw [List.map_cons, List.nodup_cons] at distinct
      obtain ⟨rfl, keys⟩ : j = k ∧ ns.map (·.1) = ms.map (·.1) := keys
      have hhead : b = a := by simpa [get?] using h j (by simp)
      have htail : ns = ms := by
        apply ih distinct.2 keys
        intro key hkey
        have hne : j ≠ key := by
          rintro rfl
          exact distinct.1 hkey
        simpa [get?, hne] using h key (by simp [hkey])
      rw [hhead, htail]

end LiveSvg.Value.Members
