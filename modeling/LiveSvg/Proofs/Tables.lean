import LiveSvg.Proofs.Names
import LiveSvg.Script.Datum
import LiveSvg.Settings.Resolve
import Mathlib.Tactic.Tauto
/-!
Tables and objects whose keys are texts: what is found in them after something has been set.
-/

namespace LiveSvg

variable {α : Type}

namespace Descriptor

theorem sameName_text {s : String} {x : Value} (h : sameName (.text s) x = true) : x = .text s := by
  cases x <;> simp [sameName, Value.same] at h
  rw [h]

@[simp] theorem sameName_text_self (s : String) : sameName (.text s) (.text s) = true := by
  simp [sameName, Value.same]

end Descriptor

namespace Settings.Table

open Descriptor

/-- Setting a name sets what is found under every name that is the same, and no other. -/
theorem get?_set (t : Table α) {k : Value} (hk : isName k) (a : α) (n : Value) :
    (t.set k a).get? n = if sameName k n then some a else t.get? n := by
  induction t with
  | nil => rfl
  | cons e t ih =>
    obtain ⟨j, b⟩ := e
    by_cases hj : sameName j k
    · rw [set, if_pos hj, get?, get?, sameName_congr hk hj]
      split <;> rfl
    · rw [set, if_neg hj, get?, get?, ih]
      by_cases hn : sameName k n
      · have hp : isName n := (isName_eq hn).symm.trans hk
        have hne : sameName j n = false := Bool.eq_false_iff.mpr fun h =>
          hj (sameName_trans hp h (sameName_symm hp hn))
        simp [hn, hne]
      · simp [hn]

/-- Under names that are the same the same is found. -/
theorem get?_congr (t : Table α) {a b : Value} (ha : isName a) (h : sameName a b = true) :
    t.get? a = t.get? b := by
  have hb := (isName_eq h).symm.trans ha
  induction t with
  | nil => rfl
  | cons e t ih =>
    obtain ⟨j, c⟩ := e
    have hj : sameName j a = sameName j b := by
      rw [Bool.eq_iff_iff]
      exact ⟨fun k => sameName_trans ha k h, fun k => sameName_trans hb k (sameName_symm hb h)⟩
    rw [get?, get?, hj, ih]

theorem get?_set_self (t : Table α) (s : String) (a : α) : (t.set (.text s) a).get? (.text s) = some a := by
  rw [get?_set t rfl, if_pos (sameName_text_self s)]

theorem get?_set_of_ne (t : Table α) {s : String} {n : Value} (h : n ≠ .text s) (a : α) :
    (t.set (.text s) a).get? n = t.get? n := by
  rw [get?_set t rfl, if_neg fun k => h (sameName_text k)]

theorem mem_of_get? {t : Table α} {n : Value} {a : α} (h : t.get? n = some a) : ∃ k, (k, a) ∈ t := by
  induction t with
  | nil => cases h
  | cons e t ih =>
    obtain ⟨k, b⟩ := e
    rw [get?] at h
    split at h
    · cases h
      exact ⟨k, by simp⟩
    · obtain ⟨k', hk⟩ := ih h
      exact ⟨k', by simp [hk]⟩

theorem mem_set {t : Table α} {n : Value} {a : α} {e : Value × α} (h : e ∈ t.set n a) :
    e.2 = a ∨ e ∈ t := by
  induction t with
  | nil =>
    rw [List.mem_singleton.mp h]
    exact .inl rfl
  | cons f t ih =>
    obtain ⟨k, b⟩ := f
    rw [set] at h
    split at h
    · rcases List.mem_cons.mp h with rfl | h
      · exact .inl rfl
      · exact .inr (List.mem_cons_of_mem _ h)
    · rcases List.mem_cons.mp h with rfl | h
      · exact .inr (List.mem_cons_self ..)
      · exact (ih h).imp id (List.mem_cons_of_mem _)

end Settings.Table

namespace Script

theorem Datum.text_sameKey {s : String} {x : Datum} (h : x.sameKey (.text s) = true) : x = .text s := by
  cases x <;> simp [sameKey, numeric?] at h
  rw [h]

theorem Datum.sameKey_text {s : String} {x : Datum} : (Datum.text s).sameKey x = true ↔ x = .text s := by
  constructor
  · intro h
    cases x <;> simp [sameKey, numeric?] at h
    rw [h]
  · rintro rfl
    simp [sameKey]

@[simp] theorem Datum.sameKey_text_self (s : String) : (Datum.text s).sameKey (.text s) = true := by
  simp [sameKey]

namespace Members

theorem mem_of_get? {ms : List (Datum × α)} {key : Datum} {a : α} (h : get? ms key = some a) :
    ∃ k, (k, a) ∈ ms := by
  induction ms with
  | nil => cases h
  | cons e ms ih =>
    obtain ⟨k, b⟩ := e
    rw [get?] at h
    split at h
    · cases h
      exact ⟨k, List.mem_cons_self⟩
    · obtain ⟨k', hk⟩ := ih h
      exact ⟨k', List.mem_cons_of_mem _ hk⟩

theorem get?_of_mem {ms : List (Datum × α)} (h : (ms.map (·.1)).Nodup) {s : String} {a : α}
    (hm : (.text s, a) ∈ ms) : get? ms (.text s) = some a := by
  induction ms with
  | nil => cases hm
  | cons e ms ih =>
    obtain ⟨k, b⟩ := e
    rw [List.map_cons, List.nodup_cons] at h
    rcases List.mem_cons.mp hm with he | hr
    · cases he
      exact if_pos (Datum.sameKey_text_self s)
    · refine (if_neg fun hk => ?_).trans (ih h.2 hr)
      obtain rfl := Datum.text_sameKey hk
      exact h.1 (List.mem_map.mpr ⟨_, hr, rfl⟩)

/-- Setting a text sets what is found under it, whatever the other keys are. -/
theorem get?_set (ms : List (Datum × α)) (s : String) (a : α) (key : Datum) :
    get? (set ms (.text s) a) key = if (Datum.text s).sameKey key then some a else get? ms key := by
  induction ms with
  | nil => rfl
  | cons e ms ih =>
    obtain ⟨k, b⟩ := e
    by_cases hk : k.sameKey (.text s)
    · obtain rfl := Datum.text_sameKey hk
      rw [set, if_pos hk, get?, get?]
      split <;> rfl
    · rw [set, if_neg hk, get?, get?, ih]
      by_cases hkey : (Datum.text s).sameKey key
      · obtain rfl := Datum.sameKey_text.mp hkey
        rw [if_neg hk, if_pos hkey, if_pos hkey]
      · rw [if_neg hkey, if_neg hkey]

theorem get?_set_self (ms : List (Datum × α)) (s : String) (a : α) :
    get? (set ms (.text s) a) (.text s) = some a := by
  rw [get?_set, if_pos (Datum.sameKey_text_self s)]

theorem get?_set_of_ne (ms : List (Datum × α)) {s t : String} (h : t ≠ s) (a : α) :
    get? (set ms (.text s) a) (.text t) = get? ms (.text t) := by
  rw [get?_set, if_neg]
  simpa [Datum.sameKey] using Ne.symm h

theorem mem_keys_set (ms : List (Datum × α)) (s : String) (a : α) (k : Datum) :
    k ∈ (set ms (.text s) a).map (·.1) ↔ k = .text s ∨ k ∈ ms.map (·.1) := by
  induction ms with
  | nil => simp [set]
  | cons e ms ih =>
    obtain ⟨j, b⟩ := e
    by_cases hj : j.sameKey (.text s)
    · obtain rfl := Datum.text_sameKey hj
      simp [set]
    · rw [set, if_neg hj, List.map_cons, List.mem_cons, ih, List.map_cons, List.mem_cons]
      tauto

/-- Setting what is there leaves the keys as they are. -/
theorem keys_set {ms : List (Datum × α)} {s : String} (h : .text s ∈ ms.map (·.1)) (a : α) :
    (set ms (.text s) a).map (·.1) = ms.map (·.1) := by
  induction ms with
  | nil => cases h
  | cons e ms ih =>
    obtain ⟨j, b⟩ := e
    by_cases hj : j.sameKey (.text s)
    · rw [set, if_pos hj]
      rfl
    · have hs : .text s ∈ ms.map (·.1) := by
        refine (List.mem_cons.mp h).resolve_left fun k => hj ?_
        obtain rfl : j = .text s := k.symm
        exact Datum.sameKey_text_self s
      rw [set, if_neg hj, List.map_cons, List.map_cons, ih hs]

/-- Setting what is not there adds its key at the end. -/
theorem keys_set_new {ms : List (Datum × α)} {s : String} (h : .text s ∉ ms.map (·.1)) (a : α) :
    (set ms (.text s) a).map (·.1) = ms.map (·.1) ++ [.text s] := by
  induction ms with
  | nil => rfl
  | cons e ms ih =>
    obtain ⟨j, b⟩ := e
    rw [List.map_cons, List.mem_cons, not_or] at h
    by_cases hj : j.sameKey (.text s)
    · exact absurd (Datum.text_sameKey hj).symm h.1
    · rw [set, if_neg hj, List.map_cons, List.map_cons, ih h.2]
      rfl

theorem nodup_keys_set {ms : List (Datum × α)} (h : (ms.map (·.1)).Nodup) (s : String) (a : α) :
    ((set ms (.text s) a).map (·.1)).Nodup := by
  induction ms with
  | nil => simp [set]
  | cons e ms ih =>
    obtain ⟨j, b⟩ := e
    rw [List.map_cons, List.nodup_cons] at h
    by_cases hj : j.sameKey (.text s)
    · rw [set, if_pos hj, List.map_cons, List.nodup_cons]
      exact h
    · rw [set, if_neg hj, List.map_cons, List.nodup_cons, mem_keys_set]
      refine ⟨?_, ih h.2⟩
      rintro (k | k)
      · obtain rfl : j = .text s := k
        exact hj (Datum.sameKey_text_self s)
      · exact h.1 k

end Members

end Script

end LiveSvg
