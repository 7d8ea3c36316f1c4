import LiveSvg.Document
import Mathlib.Tactic.Common
/-!
Texts in JSON are read back from what is written for them, character by character, also where the ends
of sections in it are escaped.
-/

namespace LiveSvg.Json

open Number Text
open Document (sectionSafe)

variable {n : Nat} {c : Char} {fuel : Nat} {cs done rest : List Char}

/-! ### Characters -/

theorem hexDigit?_digitChar (h : n < 16) : hexDigit? n.digitChar = some n := by
  have hall : ∀ i : Fin 16, hexDigit? i.val.digitChar = some i.val := by decide
  exact hall ⟨n, h⟩

theorem hexChars_four (h : n < 0x10000) : hexChars 4 n =
    [(n / 4096).digitChar, (n / 256 % 16).digitChar, (n / 16 % 16).digitChar, (n % 16).digitChar] := by
  have hzero : Nat.digitChar 0 = '0' := rfl
  unfold hexChars
  by_cases h₁ : n < 16
  · rw [Nat.toDigits_of_lt_base h₁, show n / 4096 = 0 by omega, show n / 256 % 16 = 0 by omega,
      show n / 16 % 16 = 0 by omega, show n % 16 = n by omega, hzero]
    rfl
  rw [Nat.toDigits_of_base_le (by decide) (Nat.le_of_not_lt h₁)]
  by_cases h₂ : n / 16 < 16
  · rw [Nat.toDigits_of_lt_base h₂, show n / 4096 = 0 by omega, show n / 256 % 16 = 0 by omega,
      show n / 16 % 16 = n / 16 by omega, hzero]
    rfl
  rw [Nat.toDigits_of_base_le (by decide) (Nat.le_of_not_lt h₂)]
  by_cases h₃ : n / 16 / 16 < 16
  · rw [Nat.toDigits_of_lt_base h₃, show n / 4096 = 0 by omega, show n / 256 % 16 = n / 16 / 16 by omega, hzero]
    rfl
  rw [Nat.toDigits_of_base_le (by decide) (Nat.le_of_not_lt h₃), Nat.toDigits_of_lt_base (by omega),
    show n / 4096 = n / 16 / 16 / 16 by omega, show n / 256 % 16 = n / 16 / 16 % 16 by omega]
  rfl

theorem unit?_hexChars (h : n < 0x10000) : unit? (hexChars 4 n ++ rest) = some (n, rest) := by
  rw [hexChars_four h]
  simp only [List.cons_append, List.nil_append, unit?, hexDigit?_digitChar (show n / 4096 < 16 by omega),
    hexDigit?_digitChar (show n / 256 % 16 < 16 by omega), hexDigit?_digitChar (show n / 16 % 16 < 16 by omega),
    hexDigit?_digitChar (show n % 16 < 16 by omega), Option.bind_eq_bind, Option.bind_some]
  exact congrArg (fun m => some (m, rest)) (by omega)

theorem eq_of_toNat {d : Char} (h : c.toNat = d.toNat) : c = d := Char.ext (UInt32.toNat_inj.mp h)

theorem readText_unitEscape (h : n < 0x10000) (hs : n < 0xd800 ∨ 0xe000 ≤ n) :
    readText (fuel + 1) done (unitEscape n ++ rest) = readText fuel (Char.ofNat n :: done) rest := by
  unfold unitEscape
  rw [List.cons_append, List.cons_append, readText]
  simp only [unit?_hexChars h]
  rw [if_neg (by omega), if_neg (by omega)]

theorem readText_pair {high low : Nat} (hh : high < 0x400) (hl : low < 0x400) :
    readText (fuel + 1) done (unitEscape (0xd800 + high) ++ (unitEscape (0xdc00 + low) ++ rest)) =
      readText fuel (Char.ofNat (0x10000 + high * 0x400 + low) :: done) rest := by
  unfold unitEscape
  rw [List.cons_append, List.cons_append, readText]
  simp only [unit?_hexChars (show 0xd800 + high < 0x10000 by omega)]
  rw [if_pos (by omega), List.cons_append, List.cons_append]
  simp only [lowUnit?, unit?_hexChars (show 0xdc00 + low < 0x10000 by omega), Option.bind_eq_bind,
    Option.bind_some]
  rw [if_pos (by omega), Nat.add_sub_cancel_left]
  dsimp only
  rw [Nat.add_sub_cancel_left]

/-- What a character is written as in a text is read as that character. -/
theorem readText_escapeChar (c : Char) :
    readText (fuel + 1) done (escapeChar c ++ rest) = readText fuel (c :: done) rest := by
  unfold escapeChar
  split
  · next h => rcases h with rfl | rfl <;> rfl
  split
  · next h => subst h; rfl
  split
  · next h => subst h; rfl
  split
  · next h => subst h; rfl
  split
  · next h =>
    obtain rfl : c = '\x08' := eq_of_toNat h
    rfl
  split
  · next h =>
    obtain rfl : c = '\x0c' := eq_of_toNat h
    rfl
  rename_i hq _ _ _ _ _
  rw [not_or] at hq
  split
  · next h =>
    have hne : ¬ (c.toNat < 32 ∨ c = '\x5c') := by
      rintro (k | k)
      · omega
      · exact hq.2 k
    rw [List.singleton_append, readText]
    · exact if_neg hne
    · exact fun k => hq.1 k
    · exact fun _ k => absurd k hq.2
    · exact fun _ _ k => absurd k hq.2
  have hv := c.valid
  simp only [UInt32.isValidChar, Nat.isValidChar, show c.val.toNat = c.toNat from rfl] at hv
  have hc : Char.ofNat c.toNat = c := Char.ofNat_toNat c
  split
  · next h => rw [readText_unitEscape h (by omega), hc]
  · next h =>
    dsimp only
    rw [List.append_assoc, readText_pair (by omega) (by omega), show 0x10000 + (c.toNat - 0x10000) / 0x400 * 0x400 +
      (c.toNat - 0x10000) % 0x400 = c.toNat by omega, hc]

theorem escapeChar_shape (c : Char) : escapeChar c = [c] ∨ ∃ more, escapeChar c = '\x5c' :: more := by
  unfold escapeChar unitEscape
  repeat' split
  all_goals first | exact .inl rfl | exact .inr ⟨_, rfl⟩

theorem digitChar_ne_bracket (h : n < 16) : n.digitChar ≠ ']' := by
  have hall : ∀ i : Fin 16, i.val.digitChar ≠ ']' := by decide
  exact hall ⟨n, h⟩

theorem not_mem_unitEscape (h : n < 0x10000) : ']' ∉ unitEscape n := by
  unfold unitEscape
  rw [hexChars_four h]
  simp only [List.mem_cons, List.not_mem_nil, or_false, not_or]
  exact ⟨by decide, by decide, (digitChar_ne_bracket (by omega)).symm, (digitChar_ne_bracket (by omega)).symm,
    (digitChar_ne_bracket (by omega)).symm, (digitChar_ne_bracket (by omega)).symm⟩

theorem not_mem_escapeChar (h : c ≠ ']') : ']' ∉ escapeChar c := by
  have hv := c.valid
  simp only [UInt32.isValidChar, Nat.isValidChar, show c.val.toNat = c.toNat from rfl] at hv
  unfold escapeChar
  repeat' split
  all_goals try simp [h.symm]
  · exact not_mem_unitEscape ‹_›
  · exact ⟨not_mem_unitEscape (by omega), not_mem_unitEscape (by omega)⟩

/-- A character that is written as itself stands at the front of what is written for a text only if
it stands at the front of the text. -/
theorem eq_cons_of_escaped {s t : List Char} (hc : c ≠ '\x5c') (h : s.flatMap escapeChar = c :: t) :
    ∃ more, s = c :: more ∧ t = more.flatMap escapeChar := by
  cases s with
  | nil => cases h
  | cons d s =>
    rw [List.flatMap_cons] at h
    rcases escapeChar_shape d with hd | ⟨more, hd⟩
    · rw [hd] at h
      obtain ⟨rfl, rfl⟩ := List.cons.inj h
      exact ⟨s, rfl, rfl⟩
    · rw [hd] at h
      exact absurd (List.cons.inj h).1.symm hc

/-! ### Ends of sections -/

theorem sectionSafe_cons (h : ∀ more, c = ']' → cs = ']' :: '>' :: more → False) :
    sectionSafe (c :: cs) = c :: sectionSafe cs := by
  rw [sectionSafe]
  exact h

theorem sectionSafe_append_of_not_mem {as : List Char} (h : ']' ∉ as) :
    sectionSafe (as ++ cs) = as ++ sectionSafe cs := by
  induction as with
  | nil => rfl
  | cons a as ih =>
    rw [List.mem_cons, not_or] at h
    rw [List.cons_append, sectionSafe_cons fun _ k => absurd k.symm h.1, ih h.2]
    rfl

/-- No end of a section reaches into what neither goes on with one nor ends it. -/
theorem sectionSafe_append {as : List Char} (h : cs.head? ≠ some ']') (h' : cs.head? ≠ some '>') :
    sectionSafe (as ++ cs) = sectionSafe as ++ sectionSafe cs := by
  fun_induction sectionSafe as with
  | case1 as ih =>
    rw [List.cons_append, List.cons_append, List.cons_append, sectionSafe, ih, List.append_assoc]
  | case2 a as hne ih =>
    rw [List.cons_append, sectionSafe_cons, ih]
    · rfl
    · intro more ha has
      cases as with
      | nil => exact h (by rw [show cs = _ from has]; rfl)
      | cons b as =>
        obtain ⟨rfl, htail⟩ := List.cons.inj has
        cases as with
        | nil => exact h' (by rw [show cs = _ from htail]; rfl)
        | cons d as => exact hne as ha (by rw [(List.cons.inj htail).1])
  | case3 => rfl

theorem sectionSafe_append_cons {as : List Char} (h : c ≠ ']') (h' : c ≠ '>') :
    sectionSafe (as ++ c :: cs) = sectionSafe as ++ sectionSafe (c :: cs) :=
  sectionSafe_append (fun k => h (Option.some.inj k)) fun k => h' (Option.some.inj k)

theorem length_le_sectionSafe (cs : List Char) : cs.length ≤ (sectionSafe cs).length := by
  fun_induction sectionSafe cs with
  | case1 cs ih =>
    simp only [List.length_cons, List.length_append]
    omega
  | case2 c cs hne ih => exact Nat.succ_le_succ ih
  | case3 => exact Nat.le_refl _

/-- What is written for a text is read as that text, also with the ends of sections escaped. -/
theorem readText_escaped (s : List Char) (hf : s.length < fuel) :
    readText fuel done (sectionSafe (s.flatMap escapeChar) ++ '\x22' :: rest) =
      .ok (String.ofList (done.reverse ++ s), rest) := by
  fun_induction sectionSafe s generalizing done fuel with
  | case1 s ih =>
    obtain ⟨k, rfl⟩ : ∃ k, fuel = k + 1 + 1 + 1 := ⟨fuel - 3, by simp only [List.length_cons] at hf; omega⟩
    have hb : escapeChar ']' = [']'] := rfl
    have hg : escapeChar '>' = ['>'] := rfl
    simp only [List.flatMap_cons, hb, hg, List.singleton_append, sectionSafe]
    have hk : s.length < k := by
      simp only [List.length_cons] at hf
      omega
    change readText (k + 1 + 1 + 1) done (escapeChar ']' ++ (escapeChar ']' ++ (unitEscape 0x3e ++
      (sectionSafe (s.flatMap escapeChar) ++ '\x22' :: rest)))) = _
    rw [readText_escapeChar, readText_escapeChar, readText_unitEscape (by decide) (by decide), ih hk]
    simp
  | case2 c s hne ih =>
    obtain ⟨k, rfl⟩ : ∃ k, fuel = k + 1 := ⟨fuel - 1, by omega⟩
    have hs : sectionSafe (escapeChar c ++ s.flatMap escapeChar) =
        escapeChar c ++ sectionSafe (s.flatMap escapeChar) := by
      by_cases hc : c = ']'
      · subst hc
        refine sectionSafe_cons fun more _ k => ?_
        obtain ⟨s', rfl, hs'⟩ := eq_cons_of_escaped (by decide) k
        obtain ⟨s'', rfl, -⟩ := eq_cons_of_escaped (by decide) hs'.symm
        exact hne s'' rfl rfl
      · exact sectionSafe_append_of_not_mem (not_mem_escapeChar hc)
    rw [List.flatMap_cons, hs, List.append_assoc, readText_escapeChar, ih (Nat.lt_of_succ_lt_succ hf)]
    simp
  | case3 =>
    obtain ⟨k, rfl⟩ : ∃ k, fuel = k + 1 := ⟨fuel - 1, by omega⟩
    simp [sectionSafe, readText]

end LiveSvg.Json
