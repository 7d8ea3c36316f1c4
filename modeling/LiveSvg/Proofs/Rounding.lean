import LiveSvg.Number.Shortest
import Mathlib.Algebra.Order.Field.Power
import Mathlib.Tactic.FieldSimp
import Mathlib.Tactic.Linarith
import Mathlib.Tactic.NormNum
import Mathlib.Tactic.Positivity
import Mathlib.Tactic.Ring
import Mathlib.Tactic.Qify
/-!
Rounding to floating-point numbers: which fractions a number is the nearest one to, of those that the
format has.
-/

namespace LiveSvg.Number.Binary64

variable {n d num den m : Nat} {e : Int} {q : ℚ}

/-! ### Powers with positive and negative exponents -/

theorem zpow_eq_div (b : Nat) (k : Int) :
    (b : ℚ) ^ k = ((b ^ k.toNat : Nat) : ℚ) / ((b ^ (-k).toNat : Nat) : ℚ) := by
  obtain ⟨n, rfl | rfl⟩ := k.eq_nat_or_neg
  · simp
  · simp

theorem two_zpow_pos (e : Int) : (0 : ℚ) < 2 ^ e := zpow_pos (by norm_num) e

theorem two_zpow_add (a b : Int) : (2 : ℚ) ^ (a + b) = 2 ^ a * 2 ^ b := zpow_add₀ (by norm_num) a b

theorem two_zpow_le {a b : Int} (h : a ≤ b) : (2 : ℚ) ^ a ≤ 2 ^ b := zpow_le_zpow_right₀ (by norm_num) h

theorem scaleFraction_div (num den : Nat) (e : Int) :
    ((scaleFraction num den e).1 : ℚ) / (scaleFraction num den e).2 = num / den * 2 ^ e := by
  have h := zpow_eq_div 2 e
  rw [Nat.cast_ofNat] at h
  rw [h, div_mul_div_comm, scaleFraction, Nat.cast_mul, Nat.cast_mul]

theorem scaleFraction_pos (hd : 0 < den) (num : Nat) (e : Int) : 0 < (scaleFraction num den e).2 :=
  Nat.mul_pos hd (Nat.pow_pos (by decide))

/-! ### Rounding to integers -/

/-- A quotient is rounded to the integer within a half of it, and to the even one of two. -/
theorem divToEven_eq (hd : 0 < d) (hlow : 2 * m * d ≤ 2 * n + d) (hhigh : 2 * n ≤ (2 * m + 1) * d)
    (hodd : m % 2 = 1 → 2 * m * d < 2 * n + d ∧ 2 * n < (2 * m + 1) * d) : divToEven n d = m := by
  have hn : d * (n / d) + n % d = n := Nat.div_add_mod n d
  have hr : n % d < d := Nat.mod_lt n hd
  unfold divToEven
  generalize n / d = q at hn ⊢
  generalize n % d = r at hn hr ⊢
  subst hn
  have hq : q ≤ m := by
    by_contra k
    have h : (m + 1) * d ≤ q * d := Nat.mul_le_mul_right d (by omega)
    nlinarith
  have hm : m ≤ q + 1 := by
    by_contra k
    have h : (q + 2) * d ≤ m * d := Nat.mul_le_mul_right d (by omega)
    nlinarith
  obtain rfl | rfl : m = q ∨ m = q + 1 := by omega
  · have hhalf : 2 * r ≤ d := by linarith
    have htie : 2 * r = d → m % 2 = 0 := fun k => by
      by_contra h
      have := (hodd (by omega)).2
      linarith
    dsimp only
    split_ifs with h₁ h₂ <;> omega
  · have hhalf : d ≤ 2 * r := by linarith
    have htie : 2 * r = d → (q + 1) % 2 = 0 := fun k => by
      by_contra h
      have := (hodd (by omega)).1
      linarith
    dsimp only
    split_ifs with h₁ h₂ <;> omega

theorem divToEven_eq_of_div (hd : 0 < d) (hlow : (m : ℚ) - 1 / 2 ≤ n / d) (hhigh : (n : ℚ) / d ≤ m + 1 / 2)
    (hodd : m % 2 = 1 → (m : ℚ) - 1 / 2 < n / d ∧ (n : ℚ) / d < m + 1 / 2) : divToEven n d = m := by
  have hd' : (0 : ℚ) < d := Nat.cast_pos.mpr hd
  rw [le_div_iff₀ hd'] at hlow
  rw [div_le_iff₀ hd'] at hhigh
  refine divToEven_eq hd ?_ ?_ fun hm => ?_
  · qify
    linarith
  · qify
    linarith
  · obtain ⟨hl, hh⟩ := hodd hm
    rw [lt_div_iff₀ hd'] at hl
    rw [div_lt_iff₀ hd'] at hh
    constructor
    · qify
      linarith
    · qify
      linarith

/-! ### The exponent of a fraction -/

theorem div_bounds (hn : 0 < num) (hd : 0 < den) :
    (2 : ℚ) ^ ((num.log2 : Int) - den.log2 - 1) < num / den ∧
      (num : ℚ) / den < 2 ^ ((num.log2 : Int) - den.log2 + 1) := by
  have hd' : (0 : ℚ) < den := Nat.cast_pos.mpr hd
  have hlog : ∀ {n : Nat}, 0 < n → (2 : ℚ) ^ (n.log2 : Int) ≤ n ∧ (n : ℚ) < 2 ^ ((n.log2 : Int) + 1) := by
    intro n hn
    have hlow : 2 ^ n.log2 ≤ n := Nat.log2_self_le (by omega)
    have hhigh : n < 2 ^ (n.log2 + 1) := Nat.lt_log2_self
    exact ⟨by exact_mod_cast hlow, by exact_mod_cast hhigh⟩
  obtain ⟨hnl, hnh⟩ := hlog hn
  obtain ⟨hdl, hdh⟩ := hlog hd
  rw [lt_div_iff₀ hd', div_lt_iff₀ hd']
  constructor
  · calc (2 : ℚ) ^ ((num.log2 : Int) - den.log2 - 1) * den
        < 2 ^ ((num.log2 : Int) - den.log2 - 1) * 2 ^ ((den.log2 : Int) + 1) :=
          mul_lt_mul_of_pos_left hdh (two_zpow_pos _)
      _ = 2 ^ (num.log2 : Int) := by rw [← two_zpow_add]; congr 1; ring
      _ ≤ num := hnl
  · calc (num : ℚ) < 2 ^ ((num.log2 : Int) + 1) := hnh
      _ = 2 ^ ((num.log2 : Int) - den.log2 + 1) * 2 ^ (den.log2 : Int) := by
          rw [← two_zpow_add]; congr 1; ring
      _ ≤ 2 ^ ((num.log2 : Int) - den.log2 + 1) * den := mul_le_mul_of_nonneg_left hdl (two_zpow_pos _).le

/-- The mantissa of a fraction has 53 bits at its exponent, or fewer at the least one. -/
theorem exponentOf_spec (hn : 0 < num) (hd : 0 < den) :
    -1074 ≤ exponentOf num den ∧ (num : ℚ) / den < 2 ^ (exponentOf num den + 53) ∧
      (exponentOf num den = -1074 ∨ (2 : ℚ) ^ (exponentOf num den + 52) ≤ num / den) := by
  obtain ⟨hlow, hhigh⟩ := div_bounds hn hd
  unfold exponentOf
  dsimp only
  generalize hg : (num.log2 : Int) - den.log2 - 52 = g
  rw [show (num.log2 : Int) - den.log2 - 1 = g + 51 by omega] at hlow
  rw [show (num.log2 : Int) - den.log2 + 1 = g + 53 by omega] at hhigh
  have htest : (scaleFraction num den (-g)).1 < 2 ^ (52 : Nat) * (scaleFraction num den (-g)).2 ↔
      (num : ℚ) / den < 2 ^ (g + 52) := by
    have hpos : (0 : ℚ) < (scaleFraction num den (-g)).2 := Nat.cast_pos.mpr (scaleFraction_pos hd _ _)
    have hscale := scaleFraction_div num den (-g)
    have hstep : (num : ℚ) / den < 2 ^ (g + 52) ↔ (num : ℚ) / den * 2 ^ (-g) < 2 ^ (52 : Int) := by
      rw [zpow_neg, ← div_eq_mul_inv, div_lt_iff₀ (two_zpow_pos g), ← two_zpow_add, add_comm g]
    rw [hstep, ← hscale, div_lt_iff₀ hpos]
    norm_cast
  obtain ⟨e, he, hel, heh⟩ : ∃ e, (if (scaleFraction num den (-g)).1 <
      2 ^ (52 : Nat) * (scaleFraction num den (-g)).2 then g - 1 else g) = e ∧
      (2 : ℚ) ^ (e + 52) ≤ num / den ∧ (num : ℚ) / den < 2 ^ (e + 53) := by
    split_ifs with k
    · refine ⟨_, rfl, ?_, ?_⟩
      · rw [show g - 1 + 52 = g + 51 by ring]
        exact hlow.le
      · rw [show g - 1 + 53 = g + 52 by ring]
        exact htest.mp k
    · exact ⟨_, rfl, not_lt.mp (htest.not.mp k), hhigh⟩
  rw [he]
  refine ⟨le_max_right _ _, heh.trans_le (two_zpow_le (by omega)), ?_⟩
  rcases le_total e (-1074) with h | h
  · exact .inl (max_eq_right h)
  · rw [max_eq_left h]
    exact .inr hel

/-! ### Fractions that a number is nearest to -/

/-- Whether a fraction lies in an interval with the unit `2 ^ e`. -/
structure Interval.Covers (i : Interval) (e : Int) (q : ℚ) : Prop where
  above : (i.low : ℚ) * 2 ^ e ≤ q
  below : q ≤ i.high * 2 ^ e
  inside : i.closed = false → (i.low : ℚ) * 2 ^ e < q ∧ q < i.high * 2 ^ e

theorem low_bounds (hm : m ≠ 0) (e : Int) : (4 * m - 2 : ℚ) ≤ (interval m e).low ∧
    ((interval m e).low : ℚ) ≤ 4 * m - 1 ∧
    (m = 2 ^ (52 : Nat) → e ≠ -1074 → ((interval m e).low : ℚ) = 4 * m - 1) := by
  have hpos : 1 ≤ m := Nat.one_le_iff_ne_zero.mpr hm
  have hthree : ((4 * m - 1 : Nat) : ℚ) = 4 * m - 1 := by
    rw [Nat.cast_sub (by omega)]
    norm_num
  have htwo : ((4 * m - 2 : Nat) : ℚ) = 4 * m - 2 := by
    rw [Nat.cast_sub (by omega)]
    norm_num
  unfold interval
  dsimp only
  split_ifs with k
  · exact ⟨by linarith, hthree.le, fun _ _ => hthree⟩
  · exact ⟨htwo.ge, by linarith, fun hm he => absurd ⟨hm, he⟩ k⟩

theorem cast_high (m : Nat) (e : Int) : ((interval m e).high : ℚ) = 4 * m + 2 := by
  unfold interval
  push_cast
  ring

theorem closed_interval (m : Nat) (e : Int) : (interval m e).closed = false ↔ m % 2 = 1 := by
  unfold interval
  simp

/-- A fraction in the interval of a number, in units of its last place. -/
theorem Interval.Covers.scaled (hm : m ≠ 0) (h : (interval m e).Covers (e - 2) q) :
    (m : ℚ) - 1 / 2 ≤ q * 2 ^ (-e) ∧ q * 2 ^ (-e) ≤ m + 1 / 2 ∧
      (m % 2 = 1 → (m : ℚ) - 1 / 2 < q * 2 ^ (-e) ∧ q * 2 ^ (-e) < m + 1 / 2) ∧
      (m = 2 ^ (52 : Nat) → e ≠ -1074 → (m : ℚ) - 1 / 4 ≤ q * 2 ^ (-e)) := by
  obtain ⟨hlow, -, hspecial⟩ := low_bounds hm e
  have hhigh := cast_high m e
  have hunit : (2 : ℚ) ^ (e - 2) * 2 ^ (-e) = 1 / 4 := by
    rw [← two_zpow_add, show e - 2 + -e = -2 by ring]
    norm_num
  have hp := two_zpow_pos (-e)
  have habove := mul_le_mul_of_nonneg_right h.above hp.le
  have hbelow := mul_le_mul_of_nonneg_right h.below hp.le
  rw [mul_assoc, hunit] at habove hbelow
  rw [hhigh] at hbelow
  refine ⟨by linarith, by linarith, fun hodd => ?_, fun hm' he => ?_⟩
  · obtain ⟨ha, hb⟩ := h.inside ((closed_interval m e).mpr hodd)
    have ha := mul_lt_mul_of_pos_right ha hp
    have hb := mul_lt_mul_of_pos_right hb hp
    rw [mul_assoc, hunit] at ha hb
    rw [hhigh] at hb
    exact ⟨by linarith, by linarith⟩
  · rw [hspecial hm' he] at habove
    linarith

/-- The exponent of a fraction in the interval of a number is the number's, or it is the one before if the
fraction is just below a power of two. -/
theorem exponentOf_of_covers (hc : Canonical m e) (hm : m ≠ 0) (hn : 0 < num) (hd : 0 < den)
    (h : (interval m e).Covers (e - 2) (num / den)) : exponentOf num den = e ∨
      (exponentOf num den = e - 1 ∧ m = 2 ^ (52 : Nat) ∧ e ≠ -1074 ∧ (num : ℚ) / den * 2 ^ (-e) < 2 ^ (52 : Int)) := by
  obtain ⟨hleast, hhigh, hlow⟩ := exponentOf_spec hn hd
  obtain ⟨habove, hbelow, -, -⟩ := h.scaled hm
  have hscale : ∀ a : Int, (2 : ℚ) ^ a * 2 ^ (-e) = 2 ^ (a - e) := fun a => by rw [← two_zpow_add, sub_eq_add_neg]
  have hv : (num : ℚ) / den * 2 ^ (-e) < 2 ^ (exponentOf num den + 53 - e) := by
    rw [← hscale]
    exact mul_lt_mul_of_pos_right hhigh (two_zpow_pos _)
  have hv' : exponentOf num den ≠ -1074 →
      (2 : ℚ) ^ (exponentOf num den + 52 - e) ≤ num / den * 2 ^ (-e) := fun k => by
    rw [← hscale]
    exact mul_le_mul_of_nonneg_right (hlow.resolve_left k) (two_zpow_pos _).le
  generalize (num : ℚ) / den * 2 ^ (-e) = v at *
  generalize exponentOf num den = e' at *
  have hm53 : (m : ℚ) + 1 ≤ 2 ^ (53 : Int) := by
    have : m + 1 ≤ 2 ^ (53 : Nat) := by rcases hc with hc | hc <;> omega
    exact_mod_cast this
  have hle : e' ≤ e := by
    by_contra k
    have h53 : (2 : ℚ) ^ (53 : Int) ≤ 2 ^ (e' + 52 - e) := two_zpow_le (by omega)
    have := hv' (by rcases hc with hc | hc <;> omega)
    linarith
  rcases hle.eq_or_lt with rfl | hlt
  · exact .inl rfl
  · have hm52 : 2 ^ (52 : Nat) ≤ m := by rcases hc with hc | hc <;> omega
    have hm52' : (2 : ℚ) ^ (52 : Int) ≤ m := by exact_mod_cast hm52
    have hnext : e' = e - 1 := by
      by_contra k
      have h51 : (2 : ℚ) ^ (e' + 53 - e) ≤ 2 ^ (51 : Int) := two_zpow_le (by omega)
      have : (2 : ℚ) ^ (51 : Int) + 1 / 2 < 2 ^ (52 : Int) := by norm_num
      linarith
    have hv52 : v < 2 ^ (52 : Int) := by
      rwa [hnext, show e - 1 + 53 - e = 52 by ring] at hv
    refine .inr ⟨hnext, ?_, by omega, hv52⟩
    by_contra k
    have : (2 : ℚ) ^ (52 : Int) + 1 ≤ m := by
      have : 2 ^ (52 : Nat) + 1 ≤ m := by omega
      exact_mod_cast this
    linarith

/-- The number nearest to a fraction is the one in whose interval the fraction lies. -/
theorem ofRatio_eq (negative : Bool) (hc : Canonical m e) (hm : m ≠ 0) (hn : 0 < num) (hd : 0 < den)
    (h : (interval m e).Covers (e - 2) (num / den)) : ofRatio negative num den = .finite negative m e hc := by
  obtain ⟨hlow, hhigh, hodd, hspecial⟩ := h.scaled hm
  have hpos := scaleFraction_pos hd num (-exponentOf num den)
  have hscale := scaleFraction_div num den (-exponentOf num den)
  unfold ofRatio
  rw [if_neg (by omega)]
  dsimp only
  rcases exponentOf_of_covers hc hm hn hd h with he | ⟨he, rfl, hleast, hbelow⟩
  · rw [he] at hpos hscale ⊢
    rw [← hscale] at hlow hhigh hodd
    rw [divToEven_eq_of_div hpos hlow hhigh hodd, if_neg (by rcases hc with hc | hc <;> omega)]
    exact dif_pos hc
  · -- the mantissa is rounded up to a power of two
    have hlow := hspecial rfl hleast
    have hdouble : (num : ℚ) / den * 2 ^ (-(e - 1)) = 2 * (num / den * 2 ^ (-e)) := by
      rw [show -(e - 1) = 1 + -e by ring, two_zpow_add, zpow_one]
      ring
    rw [he] at hpos hscale ⊢
    rw [hdouble] at hscale
    have h53 : divToEven (scaleFraction num den (-(e - 1))).1 (scaleFraction num den (-(e - 1))).2 =
        2 ^ (53 : Nat) := by
      rw [show (2 : ℚ) ^ (52 : Int) = 4503599627370496 by norm_num] at hbelow
      push_cast at hlow
      refine divToEven_eq_of_div hpos ?_ ?_ fun k => absurd k (by decide)
      · rw [hscale]
        push_cast
        linarith
      · rw [hscale]
        push_cast
        linarith
    rw [h53, if_pos rfl, sub_add_cancel]
    exact dif_pos hc

/-! ### Decimal fractions -/

/-- Powers of ten and of two compared by their exponents, the logarithm of two being close to three tenths
from above and to 28 out of 93 from below. -/
theorem ten_zpow_le {k l : Int} (h : 10 * k ≤ 3 * l) (h' : 93 * k ≤ 28 * l) : (10 : ℚ) ^ k ≤ 2 ^ l := by
  rcases le_total 0 k with hk | hk
  · refine (pow_le_pow_iff_left₀ (by positivity) (by positivity) (show 3 ≠ 0 by decide)).mp ?_
    calc ((10 : ℚ) ^ k) ^ 3 = (10 ^ 3) ^ k := by rw [← zpow_natCast, zpow_comm, zpow_natCast]
      _ ≤ (2 ^ 10) ^ k := zpow_le_zpow_left₀ hk (by norm_num) (by norm_num)
      _ = 2 ^ (10 * k) := by rw [zpow_mul]; norm_cast
      _ ≤ 2 ^ (l * 3) := two_zpow_le (by omega)
      _ = (2 ^ l) ^ 3 := by rw [zpow_mul]; norm_cast
  · refine (pow_le_pow_iff_left₀ (by positivity) (by positivity) (show 28 ≠ 0 by decide)).mp ?_
    have hinv : ((10 : ℚ) ^ 28) ^ k ≤ (2 ^ 93) ^ k := by
      rw [← inv_le_inv₀ (by positivity) (by positivity), ← zpow_neg, ← zpow_neg]
      exact zpow_le_zpow_left₀ (by omega) (by norm_num) (by norm_num)
    calc ((10 : ℚ) ^ k) ^ 28 = (10 ^ 28) ^ k := by rw [← zpow_natCast, zpow_comm, zpow_natCast]
      _ ≤ (2 ^ 93) ^ k := hinv
      _ = 2 ^ (93 * k) := by rw [zpow_mul]; norm_cast
      _ ≤ 2 ^ (l * 28) := two_zpow_le (by omega)
      _ = (2 ^ l) ^ 28 := by rw [zpow_mul]; norm_cast

theorem two_zpow_le_ten {k l : Int} (h : 3 * l ≤ 10 * k) (h' : 28 * l ≤ 93 * k) : (2 : ℚ) ^ l ≤ 10 ^ k := by
  have hinv : (10 : ℚ) ^ (-k) ≤ 2 ^ (-l) := ten_zpow_le (by omega) (by omega)
  rwa [zpow_neg, zpow_neg, inv_le_inv₀ (by positivity) (by positivity)] at hinv

/-- The fractions that a number is nearest to are neither huge nor tiny. -/
theorem Interval.Covers.bounds (hc : Canonical m e) (hm : m ≠ 0) (h : (interval m e).Covers (e - 2) q) :
    (2 : ℚ) ^ (-1075 : Int) ≤ q ∧ q ≤ 2 ^ (1025 : Int) := by
  obtain ⟨hlow, hhigh, -, -⟩ := h.scaled hm
  have hp := two_zpow_pos e
  have hq : q * 2 ^ (-e) * 2 ^ e = q := by
    rw [mul_assoc, ← two_zpow_add, neg_add_cancel, zpow_zero, mul_one]
  have hm1 : (1 : ℚ) ≤ m := by exact_mod_cast Nat.one_le_iff_ne_zero.mpr hm
  have hm53 : (m : ℚ) + 1 ≤ 2 ^ (53 : Int) := by
    have : m + 1 ≤ 2 ^ (53 : Nat) := by rcases hc with hc | hc <;> omega
    exact_mod_cast this
  constructor
  · calc (2 : ℚ) ^ (-1075 : Int) ≤ 2 ^ (-1 + e) := two_zpow_le (by rcases hc with hc | hc <;> omega)
      _ = 1 / 2 * 2 ^ e := by rw [two_zpow_add]; norm_num
      _ ≤ q * 2 ^ (-e) * 2 ^ e := mul_le_mul_of_nonneg_right (by linarith) hp.le
      _ = q := hq
  · calc q = q * 2 ^ (-e) * 2 ^ e := hq.symm
      _ ≤ 2 ^ (53 : Int) * 2 ^ e := mul_le_mul_of_nonneg_right (by linarith) hp.le
      _ = 2 ^ (53 + e) := (two_zpow_add _ _).symm
      _ ≤ 2 ^ (1025 : Int) := two_zpow_le (by rcases hc with hc | hc <;> omega)

/-- The number nearest to a decimal fraction is the one in whose interval the fraction lies. -/
theorem ofDecimal_eq (negative : Bool) {digits : Nat} {k : Int} (hc : Canonical m e) (hm : m ≠ 0)
    (hd : digits < 2 ^ 200) (h : (interval m e).Covers (e - 2) (digits * 10 ^ k)) :
    ofDecimal negative digits k = .finite negative m e hc := by
  obtain ⟨hlow, hhigh⟩ := h.bounds hc hm
  have hpos : 0 < digits := by
    rcases Nat.eq_zero_or_pos digits with rfl | hpos
    · have := two_zpow_pos (-1075)
      rw [Nat.cast_zero, zero_mul] at hlow
      exact absurd hlow (not_le.mpr this)
    · exact hpos
  have hten : (0 : ℚ) < 10 ^ k := by positivity
  have hlog : (2 : ℚ) ^ (digits.log2 : Int) ≤ digits ∧ (digits : ℚ) ≤ 2 ^ ((digits.log2 : Int) + 1) := by
    have hl : 2 ^ digits.log2 ≤ digits := Nat.log2_self_le (by omega)
    have hh : digits ≤ 2 ^ (digits.log2 + 1) := Nat.lt_log2_self.le
    exact ⟨by exact_mod_cast hl, by exact_mod_cast hh⟩
  have hbits : digits.log2 < 200 := (Nat.log2_lt (by omega)).mpr hd
  have hvalue : ((digits * 10 ^ k.toNat : Nat) : ℚ) / (10 ^ (-k).toNat : Nat) = digits * 10 ^ k := by
    rw [show (10 : ℚ) = (10 : Nat) by norm_num, zpow_eq_div 10 k, Nat.cast_mul, mul_div_assoc]
  unfold ofDecimal
  rw [if_neg (by omega)]
  dsimp only
  generalize digits.log2 = D at *
  obtain ⟨t, ht⟩ : ∃ t : Int, (D : Int) * 30103 / 100000 = t := ⟨_, rfl⟩
  rw [ht]
  have htop : ¬ 400 < k + t := fun hk => by
    have hbig : (2 : ℚ) ^ (1030 : Int) ≤ 2 ^ (1029 : Int) :=
      calc (2 : ℚ) ^ (1030 : Int) ≤ 10 ^ (401 : Int) := two_zpow_le_ten (by decide) (by decide)
        _ ≤ 10 ^ (k + t) := zpow_le_zpow_right₀ (by norm_num) hk
        _ = 10 ^ k * 10 ^ t := zpow_add₀ (by norm_num) _ _
        _ ≤ 10 ^ k * 2 ^ (D + 4 : Int) := mul_le_mul_of_nonneg_left (ten_zpow_le (by omega) (by omega)) hten.le
        _ = 2 ^ (D : Int) * 10 ^ k * 2 ^ (4 : Int) := by rw [two_zpow_add]; ring
        _ ≤ digits * 10 ^ k * 2 ^ (4 : Int) := by gcongr; exact hlog.1
        _ ≤ 2 ^ (1025 : Int) * 2 ^ (4 : Int) := by gcongr
        _ = 2 ^ (1029 : Int) := (two_zpow_add _ _).symm
    exact absurd hbig (not_le.mpr (zpow_lt_zpow_right₀ (by norm_num) (by decide)))
  have hbottom : ¬ k + t < -400 := fun hk => by
    have hsmall : (2 : ℚ) ^ (-1075 : Int) ≤ 2 ^ (-1326 : Int) :=
      calc (2 : ℚ) ^ (-1075 : Int) ≤ digits * 10 ^ k := hlow
        _ ≤ 2 ^ (D + 1 : Int) * 10 ^ k := mul_le_mul_of_nonneg_right hlog.2 hten.le
        _ = 2 ^ (D - 1 : Int) * 10 ^ k * 2 ^ (2 : Int) := by
          rw [show (D + 1 : Int) = D - 1 + 2 by ring, two_zpow_add]; ring
        _ ≤ 10 ^ (t + 1) * 10 ^ k * 2 ^ (2 : Int) := by
          gcongr; exact two_zpow_le_ten (by omega) (by omega)
        _ = 10 ^ (t + 1 + k) * 2 ^ (2 : Int) := by rw [← zpow_add₀ (by norm_num)]
        _ ≤ 2 ^ (-1328 : Int) * 2 ^ (2 : Int) :=
          mul_le_mul_of_nonneg_right (ten_zpow_le (by omega) (by omega)) (two_zpow_pos 2).le
        _ = 2 ^ (-1326 : Int) := (two_zpow_add _ _).symm
    exact absurd hsmall (not_le.mpr (zpow_lt_zpow_right₀ (by norm_num) (by decide)))
  rw [if_neg htop, if_neg hbottom]
  refine ofRatio_eq negative hc hm (Nat.mul_pos hpos (Nat.pow_pos (by decide))) (Nat.pow_pos (by decide)) ?_
  rwa [hvalue]

end LiveSvg.Number.Binary64
