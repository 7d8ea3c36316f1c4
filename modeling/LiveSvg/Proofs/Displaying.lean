import LiveSvg.Display
import LiveSvg.Proofs.Spelled
import Mathlib.Tactic.LinearCombination
/-!
Numbers formatted for display. Rounding goes to the nearest number with so many decimals, and of two as near to
the one further from zero; what is shown is this number in plain notation, and it is shown again as it is.
-/

namespace LiveSvg.Number

variable {places : Nat} {x y z q : ℚ} {m n : Numeral} {negative : Bool} {c : Nat} {e : Int}

/-! ### The nearest number -/

/-- Whether a number is the nearest with so many decimals, and of two as near the one further from zero. -/
structure Nearest (places : Nat) (x y : ℚ) : Prop where
  multiple : ∃ k : ℤ, y = k * 10 ^ (-places : Int)
  least : ∀ k : ℤ, |x - y| ≤ |x - k * 10 ^ (-places : Int)|
  away : ∀ k : ℤ, |x - y| = |x - k * 10 ^ (-places : Int)| → |k * (10 : ℚ) ^ (-places : Int)| ≤ |y|

/-- There is one nearest number. -/
theorem Nearest.eq (hy : Nearest places x y) (hz : Nearest places x z) : y = z := by
  obtain ⟨k, hk⟩ := hy.multiple
  obtain ⟨l, hl⟩ := hz.multiple
  have hdistance : |x - y| = |x - z| := le_antisymm (hl ▸ hy.least l) (hk ▸ hz.least k)
  have hsize : |y| = |z| := le_antisymm (hk ▸ hz.away k (hk ▸ hdistance.symm)) (hl ▸ hy.away l (hl ▸ hdistance))
  rcases abs_eq_abs.mp hsize with h | h
  · exact h
  · -- opposite numbers are as near to zero only, and zero itself is nearer to it
    have hzero : y = 0 := by
      have hleast := hy.least 0
      rw [Int.cast_zero, zero_mul, sub_zero] at hleast
      have hx : x * y = 0 := by
        rw [← sq_eq_sq_iff_abs_eq_abs, h] at hdistance
        rw [h]
        linear_combination -(1 / 4) * hdistance
      rcases mul_eq_zero.mp hx with rfl | hy0
      · rw [zero_sub, abs_neg, abs_zero] at hleast
        exact abs_nonpos_iff.mp hleast
      · exact hy0
    rw [hzero] at h ⊢
    linarith

/-- A number with so many decimals is its own nearest. -/
theorem Nearest.refl (h : ∃ k : ℤ, y = k * 10 ^ (-places : Int)) : Nearest places y y := by
  refine ⟨h, fun k => ?_, fun k hk => ?_⟩
  · rw [sub_self, abs_zero]
    exact abs_nonneg _
  · rw [sub_self, abs_zero, eq_comm, abs_eq_zero, sub_eq_zero] at hk
    rw [hk]

/-- No integer is nearer than the one that is reached by going up from a half. -/
theorem natural_nearest (hl : (c : ℚ) - 1 / 2 ≤ q) (hh : q < c + 1 / 2) (hq : 0 ≤ q) (k : ℤ) :
    |q - c| ≤ |q - k| ∧ (|q - c| = |q - k| → |(k : ℚ)| ≤ c) := by
  have hnear : |q - c| ≤ 1 / 2 := abs_le.mpr ⟨by linarith, by linarith⟩
  rcases lt_trichotomy k c with hk | rfl | hk
  · have hk' : (k : ℚ) + 1 ≤ c := by exact_mod_cast hk
    have hfar : |q - k| = q - k := abs_of_nonneg (by linarith)
    refine ⟨by linarith, fun htie => ?_⟩
    have hnonneg : 0 ≤ k := by
      have : (-1 : ℚ) < k := by linarith
      exact_mod_cast this
    rw [abs_of_nonneg (by exact_mod_cast hnonneg)]
    linarith
  · exact ⟨le_rfl, fun _ => (abs_of_nonneg (by positivity)).le⟩
  · have hk' : (c : ℚ) + 1 ≤ k := by exact_mod_cast hk
    have hfar : |q - k| = k - q := by rw [abs_sub_comm, abs_of_nonneg (by linarith)]
    exact ⟨by linarith, fun htie => by linarith⟩

/-- A number and its nearest one, with units of its last decimal. -/
theorem nearest_of_units (hl : (c : ℚ) - 1 / 2 ≤ q) (hh : q < c + 1 / 2) (hq : 0 ≤ q) (negative : Bool) :
    Nearest places ((if negative then -1 else 1) * (q * 10 ^ (-places : Int)))
      ((if negative then -1 else 1) * (c * 10 ^ (-places : Int))) := by
  obtain ⟨u, hu⟩ : ∃ u : ℚ, (10 : ℚ) ^ (-places : Int) = u := ⟨_, rfl⟩
  have hpos : 0 < u := hu ▸ by positivity
  obtain ⟨s, hs, hsign⟩ : ∃ s : ℤ, (if negative then -1 else 1 : ℚ) = s ∧ |(s : ℚ)| = 1 ∧ (s : ℚ) * s = 1 := by
    cases negative with
    | true => exact ⟨-1, by simp⟩
    | false => exact ⟨1, by simp⟩
  have habs : ∀ r : ℚ, |s * (r * u)| = |r| * u := fun r => by
    rw [abs_mul, hsign.1, one_mul, abs_mul, abs_of_pos hpos]
  -- the other sign only turns the line around
  have hdistance : ∀ r : ℚ, |s * (q * u) - s * (r * u)| = |q - r| * u := fun r => by
    rw [← habs, sub_mul, mul_sub]
  have hturn : ∀ k : ℤ, (k : ℚ) * u = s * ((s * k : ℤ) * u) := fun k => by
    rw [Int.cast_mul]
    linear_combination (-(k : ℚ) * u) * hsign.2
  rw [hs, hu]
  refine ⟨⟨s * c, ?_⟩, fun k => ?_, fun k hk => ?_⟩
  · rw [hu, Int.cast_mul, Int.cast_natCast, mul_assoc]
  · rw [hu, hturn, hdistance, hdistance]
    exact mul_le_mul_of_nonneg_right (natural_nearest hl hh hq _).1 hpos.le
  · rw [hu, hturn, hdistance, hdistance] at hk
    rw [hu, hturn, habs, habs, Nat.abs_cast]
    exact mul_le_mul_of_nonneg_right ((natural_nearest hl hh hq _).2 (mul_right_cancel₀ hpos.ne' hk)) hpos.le

/-! ### Rounding -/

/-- Half a unit is added before the rest is cut off. -/
theorem divHalfUp_bounds (num : Nat) {den : Nat} (hd : 0 < den) :
    ((Decimal.divHalfUp num den : Nat) : ℚ) - 1 / 2 ≤ num / den ∧
      (num : ℚ) / den < (Decimal.divHalfUp num den : Nat) + 1 / 2 := by
  have hlow : Decimal.divHalfUp num den * (2 * den) ≤ 2 * num + den := Nat.div_mul_le_self _ _
  have hhigh : 2 * num + den < (Decimal.divHalfUp num den + 1) * (2 * den) :=
    (Nat.div_lt_iff_lt_mul (by omega)).mp (Nat.lt_succ_self _)
  have hd' : (0 : ℚ) < den := by exact_mod_cast hd
  have hlow' : ((Decimal.divHalfUp num den : Nat) : ℚ) * (2 * den) ≤ 2 * num + den := by exact_mod_cast hlow
  have hhigh' : (2 * num + den : ℚ) < ((Decimal.divHalfUp num den : Nat) + 1) * (2 * den) := by exact_mod_cast hhigh
  constructor
  · rw [le_div_iff₀ hd']
    linarith
  · rw [div_lt_iff₀ hd']
    linarith

/-- The digits of a number and the size of its first one. -/
theorem lt_zpow_first (c : Nat) (k : Int) : (c : ℚ) * 10 ^ k < 10 ^ (k + Decimal.digitCount c) := by
  have hlt : (c : ℚ) < 10 ^ (Decimal.digitCount c : Int) := by exact_mod_cast lt_pow_digitCount c
  rw [zpow_add₀ (by norm_num), mul_comm]
  exact mul_lt_mul_of_pos_left hlt (by positivity)

theorem zpow_first_le (hc : c ≠ 0) (k : Int) : (10 : ℚ) ^ (k + Decimal.digitCount c - 1) ≤ c * 10 ^ k := by
  have hle : (10 : ℚ) ^ (Decimal.digitCount c - 1) ≤ c := by exact_mod_cast pow_le_of_digitCount hc
  have hpos := digitCount_pos c
  have hsplit : k + Decimal.digitCount c - 1 = ((Decimal.digitCount c - 1 : Nat) : Int) + k := by omega
  rw [hsplit, zpow_add₀ (by norm_num), zpow_natCast]
  exact mul_le_mul_of_nonneg_right hle (by positivity)

namespace Decimal

theorem unitExponent_eq (hp : places ≤ 999999) : unitExponent places = .ok (-places : Int) := by
  unfold unitExponent maxExponent precision minExponent
  rw [if_neg (by omega), if_neg (by omega), max_eq_left (by omega)]

/-- A number in units is rounded to an integer that is half a unit away at most. -/
theorem units_bounds {r : Nat} (c : Nat) (shift : Int) (hr : r = if shift + digitCount c < 0 then 0
      else divHalfUp (c * 10 ^ shift.toNat) (10 ^ (-shift).toNat)) :
    (r : ℚ) - 1 / 2 ≤ c * 10 ^ shift ∧ (c : ℚ) * 10 ^ shift < r + 1 / 2 := by
  rw [hr]
  split
  case isTrue hlow =>
    have hsmall : (c : ℚ) * 10 ^ shift < 10 ^ (-1 : Int) :=
      (lt_zpow_first c shift).trans_le (zpow_le_zpow_right₀ (by norm_num) (by omega))
    have hnonneg : (0 : ℚ) ≤ c * 10 ^ shift := by positivity
    rw [zpow_neg_one] at hsmall
    rw [Nat.cast_zero]
    exact ⟨by linarith, by linarith⟩
  case isFalse =>
    have hvalue : ((c * 10 ^ shift.toNat : Nat) : ℚ) / (10 ^ (-shift).toNat : Nat) = c * 10 ^ shift := by
      rw [show (10 : ℚ) = (10 : Nat) by norm_num, Binary64.zpow_eq_div 10 shift, Nat.cast_mul, mul_div_assoc]
    rw [← hvalue]
    exact divHalfUp_bounds _ (Nat.pow_pos (by decide))

/-- Rounding a number gives the nearest one, and fails if that has too many digits. -/
theorem exists_round (hp : places ≤ 999999) (negative : Bool) (c : Nat) (e : Int) : ∃ r : Nat,
    Nearest places (Numeral.mk negative c e).value (Numeral.mk negative r (-places)).value ∧
      (r < 10 ^ 28 → round places (finite negative c e) = .ok (finite negative r (-places))) ∧
        (10 ^ 28 ≤ r → round places (finite negative c e) = .error .tooManyDigits) := by
  obtain ⟨shift, hshift⟩ : ∃ shift, e + places = shift := ⟨_, rfl⟩
  obtain ⟨r, hr⟩ : ∃ r, r = if shift + digitCount c < 0 then 0
    else divHalfUp (c * 10 ^ shift.toNat) (10 ^ (-shift).toNat) := ⟨_, rfl⟩
  have hbounds := units_bounds c shift hr
  have hshift' : e - (-places : Int) = shift := by omega
  refine ⟨r, ?_, fun hfew => ?_, fun hmany => ?_⟩
  · have hunits : (c : ℚ) * 10 ^ e = c * 10 ^ shift * 10 ^ (-places : Int) := by
      rw [mul_assoc, ← zpow_add₀ (by norm_num), ← hshift, add_neg_cancel_right]
    rw [Numeral.value, hunits]
    exact nearest_of_units hbounds.1 hbounds.2 (by positivity) negative
  · unfold round
    rw [unitExponent_eq hp]
    change (if c = 0 then _ else _) = _
    by_cases hc : c = 0
    · have hr0 : r = 0 := by
        have hlow := hbounds.1
        rw [hc, Nat.cast_zero, zero_mul] at hlow
        have : (r : ℚ) < 1 := by linarith
        exact Nat.lt_one_iff.mp (by exact_mod_cast this)
      rw [if_pos hc, hr0]
      rfl
    · have hfirst : ¬ (precision : Int) < shift + digitCount c := fun hlarge => by
        unfold precision at hlarge
        have hten : (10 : ℚ) ^ (28 : Int) ≤ c * 10 ^ shift :=
          (zpow_le_zpow_right₀ (by norm_num) (by omega)).trans (zpow_first_le hc shift)
        have hnext : (r : ℚ) + 1 ≤ 10 ^ (28 : Int) := by exact_mod_cast hfew
        linarith [hbounds.2]
      have hdigits : ¬ precision < digitCount r := Nat.not_lt.mpr (digitCount_le (by decide) hfew)
      rw [if_neg hc]
      simp only [hshift', ← hr]
      rw [if_neg hfirst]
      change (if precision < digitCount r then _ else _) = _
      rw [if_neg hdigits]
      rfl
  · have hc : c ≠ 0 := fun hc => by
      have hlow := hbounds.1
      rw [hc, Nat.cast_zero, zero_mul] at hlow
      have hr' : (10 : ℚ) ^ 28 ≤ r := by exact_mod_cast hmany
      linarith
    have hdigits : precision < digitCount r := by
      by_contra hfew
      have hlt := (lt_pow_digitCount r).trans_le (Nat.pow_le_pow_right (by decide) (Nat.not_lt.mp hfew))
      exact absurd hlt (Nat.not_lt.mpr hmany)
    unfold round
    rw [unitExponent_eq hp]
    change (if c = 0 then _ else _) = _
    rw [if_neg hc]
    simp only [hshift', ← hr]
    by_cases hfirst : (precision : Int) < shift + digitCount c
    · rw [if_pos hfirst]
      rfl
    · rw [if_neg hfirst, if_pos hdigits]
      rfl

end Decimal

theorem coefficient_of_value (negative : Bool) (r : Nat) :
    |(Numeral.mk negative r (-places)).value| * 10 ^ places = r := by
  have hunit : (10 : ℚ) ^ (-places : Int) * 10 ^ places = 1 := by
    rw [zpow_neg, zpow_natCast, inv_mul_cancel₀ (by positivity)]
  have hsign : |(if negative then -1 else 1 : ℚ)| = 1 := by cases negative <;> simp
  rw [Numeral.value, abs_mul, hsign, one_mul, abs_of_nonneg (by positivity), mul_assoc, hunit, mul_one]

theorem abs_value (n : Numeral) : |n.value| = n.coefficient * 10 ^ n.exponent := by
  have hsign : |(if n.negative then -1 else 1 : ℚ)| = 1 := by cases n.negative <;> simp
  rw [Numeral.value, abs_mul, hsign, one_mul, abs_of_nonneg (by positivity)]

/-- A number is in the range wherever its point stands, as long as no digit stands too low. -/
theorem Numeral.InRange.of_value (h : n.InRange) (hv : m.value = n.value) (hz : m.exponent ≤ 0)
    (hl : -1999999999999999997 ≤ m.exponent) : m.InRange := by
  refine ⟨?_, hl⟩
  by_cases hm : m.coefficient = 0
  · rw [hm, show Decimal.digitCount 0 = 1 from rfl]
    omega
  · have hfirst : (10 : ℚ) ^ (m.exponent + Decimal.digitCount m.coefficient - 1) <
        10 ^ (n.exponent + Decimal.digitCount n.coefficient) :=
      calc (10 : ℚ) ^ (m.exponent + Decimal.digitCount m.coefficient - 1)
          ≤ m.coefficient * 10 ^ m.exponent := zpow_first_le hm _
        _ = n.coefficient * 10 ^ n.exponent := by rw [← abs_value, ← abs_value, hv]
        _ < 10 ^ (n.exponent + Decimal.digitCount n.coefficient) := lt_zpow_first _ _
    have hlt := (zpow_lt_zpow_iff_right₀ (by norm_num)).mp hfirst
    have hn := h.first
    omega

end LiveSvg.Number

namespace LiveSvg.Display

open Number

variable {v places unit showZeros : Value} {n : Numeral} {options : Options} {shown : String} {d : Decimal}

/-! ### What is shown -/

/-- Whether a value is a number, or a text that spells it. -/
def Denotes (v : Value) (n : Numeral) : Prop := ∃ s, numberText v = .ok s ∧ Spelled s n

/-- Whether a value is formatted without a unit as a number in plain notation, and this text as itself. -/
def Shows (v places showZeros : Value) (p : Plain) : Prop := ∀ unit : Value, unit.truthy = false →
  format v places unit showZeros = .ok (.text p.text) ∧ format (.text p.text) places unit showZeros = .ok (.text p.text)

theorem not_spelled_empty : ¬ Spelled "" n := fun h => absurd (isSome_of_spelled h) (by decide)

theorem not_spelled_nan : ¬ Spelled "nan" n := fun h => by
  have hnan : Decimal.ofText? "nan" = some (.nan false) := by decide
  rw [ofText?_of_spelled h] at hnan
  split at hnan <;> cases hnan

theorem Denotes.isNumeric (h : Denotes v n) : isNumeric v = true := by
  obtain ⟨s, hs, hspelled⟩ := h
  cases v with
  | int m => rfl
  | float x =>
    obtain rfl := Except.ok.inj hs
    cases x with
    | nan => exact absurd hspelled not_spelled_nan
    | infinity => rfl
    | finite => rfl
  | text t =>
    obtain rfl := Except.ok.inj hs
    exact isSome_of_spelled hspelled
  | null | bool | list | object =>
    obtain rfl := Except.ok.inj hs
    exact absurd hspelled not_spelled_empty

theorem ok_bind {ε α β : Type} (a : α) (f : α → Except ε β) : (Except.ok a >>= f) = f a := rfl

theorem denotes_int {m : Int} (h : tooLong m = false) : ∃ n, Denotes (.int m) n ∧ n.InRange ∧ n.value = m := by
  refine ⟨_, ⟨intText m, ?_, spelled_intText m⟩, ?_, ?_⟩
  · rw [numberText, h]
    rfl
  · have hlt : m.natAbs < 10 ^ maxIntDigits := by
      rw [tooLong, decide_eq_false_iff_not, Nat.not_le] at h
      exact h
    have hcount := digitCount_le (by decide) hlt
    unfold maxIntDigits at hcount
    exact ⟨by dsimp only; omega, by dsimp only; omega⟩
  · rw [Numeral.value, zpow_zero, mul_one, Nat.cast_natAbs, Int.cast_abs]
    by_cases hm : m < 0
    · rw [decide_eq_true hm, if_pos rfl, abs_of_neg (by exact_mod_cast hm)]
      ring
    · rw [decide_eq_false hm, if_neg Bool.false_ne_true, one_mul, abs_of_nonneg (by exact_mod_cast not_lt.mp hm)]

theorem denotes_float {m : Nat} {e : Int} (negative : Bool) (hc : Canonical m e) : ∃ n,
    Denotes (.float (.finite negative m e hc)) n ∧ n.InRange ∧ n.toBinary64 = .finite negative m e hc := by
  obtain ⟨n, hs, hn, hvalue⟩ := spelled_float negative hc
  exact ⟨n, ⟨_, rfl, hs⟩, hn, hvalue⟩

end LiveSvg.Display
