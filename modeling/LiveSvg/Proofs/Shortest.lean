import LiveSvg.Proofs.Rounding
/-!
The decimal fraction that a floating-point number is written as: it is one that the number is nearest to,
and it has few digits.
-/

namespace LiveSvg.Number.Binary64

variable {m : Nat} {e k : Int} {i : Interval} {x : Nat}

theorem decimalAtMost_iff {x y : Nat} {k e : Int} :
    decimalAtMost x k y e = true ↔ (x : ℚ) * 10 ^ k ≤ y * 2 ^ e := by
  have hten := zpow_eq_div 10 k
  have htwo := zpow_eq_div 2 e
  rw [Nat.cast_ofNat] at hten htwo
  have hpos : ∀ b n : Nat, 0 < b → (0 : ℚ) < (b ^ n : Nat) := fun b n hb => Nat.cast_pos.mpr (Nat.pow_pos hb)
  rw [hten, htwo, mul_div_assoc', mul_div_assoc', div_le_div_iff₀ (hpos _ _ (by decide)) (hpos _ _ (by decide)),
    decimalAtMost, decide_eq_true_eq]
  norm_cast

theorem decimal_eq_iff {x y : Nat} {k e : Int} :
    x * 10 ^ k.toNat * 2 ^ (-e).toNat = y * 2 ^ e.toNat * 10 ^ (-k).toNat ↔ (x : ℚ) * 10 ^ k = y * 2 ^ e := by
  have hten := zpow_eq_div 10 k
  have htwo := zpow_eq_div 2 e
  rw [Nat.cast_ofNat] at hten htwo
  have hpos : ∀ b n : Nat, 0 < b → ((b ^ n : Nat) : ℚ) ≠ 0 := fun b n hb =>
    (Nat.cast_pos.mpr (Nat.pow_pos hb)).ne'
  rw [hten, htwo, mul_div_assoc', mul_div_assoc', div_eq_div_iff (hpos _ _ (by decide)) (hpos _ _ (by decide))]
  norm_cast

/-- What counts as lying in an interval does. -/
theorem Interval.contains_iff : i.contains e x k = true ↔ i.Covers e (x * 10 ^ k) := by
  have habove : (!decimalAtMost x k i.low e) = true ↔ (i.low : ℚ) * 2 ^ e < x * 10 ^ k := by
    rw [Bool.not_eq_true', ← Bool.not_eq_true, decimalAtMost_iff, not_le]
  unfold contains
  dsimp only
  cases hc : i.closed with
  | true =>
    rw [if_pos rfl, Bool.and_eq_true, Bool.or_eq_true, habove, beq_iff_eq, decimal_eq_iff, decimalAtMost_iff,
      eq_comm, ← le_iff_lt_or_eq]
    exact ⟨fun h => ⟨h.1, h.2, fun k => absurd (hc.symm.trans k) (by decide)⟩, fun h => ⟨h.above, h.below⟩⟩
  | false =>
    rw [if_neg (by decide), Bool.and_eq_true, Bool.and_eq_true, habove, bne_iff_ne, Ne, decimal_eq_iff,
      decimalAtMost_iff, and_assoc, ← Ne, ← lt_iff_le_and_ne]
    exact ⟨fun h => ⟨h.1.le, h.2.le, fun _ => h⟩, fun h => h.inside hc⟩

/-! ### The neighbours of a number -/

theorem Interval.nearest?_covers {d : Nat} (h : i.nearest? e k = some d) : i.Covers e (d * 10 ^ k) := by
  rw [← contains_iff]
  unfold nearest? at h
  dsimp only at h
  split at h
  · next h₀ h₁ =>
    cases h
    split_ifs
    · exact h₀
    · exact h₁
  · next h₀ _ =>
    cases h
    exact h₀
  · next _ h₁ =>
    cases h
    exact h₁
  · cases h

/-- There is a neighbour in the interval if the unit is small enough. -/
theorem nearest?_isSome (hm : m ≠ 0) (hk : (10 : ℚ) ^ k ≤ 2 ^ (e - 2)) :
    ∃ d, (interval m e).nearest? (e - 2) k = some d := by
  have hnum : ((interval m e).middle : ℚ) = 4 * m := by exact_mod_cast rfl
  obtain ⟨below, hbelow⟩ : ∃ below, (interval m e).middle * 2 ^ (e - 2).toNat * 10 ^ (-k).toNat /
      (10 ^ k.toNat * 2 ^ (-(e - 2)).toNat) = below := ⟨_, rfl⟩
  have hden : 0 < 10 ^ k.toNat * 2 ^ (-(e - 2)).toNat := Nat.mul_pos (Nat.pow_pos (by decide)) (Nat.pow_pos (by decide))
  have hle : (below : ℚ) * 10 ^ k ≤ 4 * m * 2 ^ (e - 2) := by
    rw [← hnum, ← decimalAtMost_iff, decimalAtMost, decide_eq_true_eq, ← hbelow, Nat.mul_assoc]
    exact Nat.div_mul_le_self _ _
  have hlt : (4 * m : ℚ) * 2 ^ (e - 2) < (below + 1) * 10 ^ k := by
    rw [← hnum, ← not_le, ← Nat.cast_succ, ← decimalAtMost_iff, decimalAtMost, decide_eq_true_eq, ← hbelow, Nat.mul_assoc,
      Nat.not_le]
    exact Nat.lt_mul_of_div_lt (Nat.lt_succ_self _) hden
  have hp := two_zpow_pos (e - 2)
  have hlow : ((interval m e).low : ℚ) * 2 ^ (e - 2) < below * 10 ^ k := by
    have h := mul_le_mul_of_nonneg_right (low_bounds hm e).2.1 hp.le
    linarith
  have hhigh : below * 10 ^ k < ((interval m e).high : ℚ) * 2 ^ (e - 2) := by
    rw [cast_high]
    linarith
  have hcontains : (interval m e).contains (e - 2) below k = true :=
    Interval.contains_iff.mpr ⟨hlow.le, hhigh.le, fun _ => ⟨hlow, hhigh⟩⟩
  unfold Interval.nearest?
  dsimp only
  rw [hbelow, hcontains]
  cases (interval m e).contains (e - 2) (below + 1) k with
  | true => exact ⟨_, rfl⟩
  | false => exact ⟨_, rfl⟩

theorem shortestFrom_covers {place : Int} {count fuel j : Nat} (hj : j < fuel)
    (h : ∃ d, i.nearest? e (place - (count + j : Nat)) = some d) :
    ∃ d : Nat, ∃ c : Nat, shortestFrom i e place count fuel = (d, place - c) ∧ c ≤ count + j ∧
      i.Covers e (d * 10 ^ (place - c)) := by
  induction fuel generalizing count j with
  | zero => exact absurd hj (Nat.not_lt_zero j)
  | succ fuel ih =>
    unfold shortestFrom
    dsimp only
    split
    · next d hd => exact ⟨d, count, rfl, Nat.le_add_right _ _, Interval.nearest?_covers hd⟩
    · next hnone =>
      cases j with
      | zero =>
        obtain ⟨d, hd⟩ := h
        rw [Nat.add_zero, hnone] at hd
        cases hd
      | succ j =>
        rw [← Nat.add_assoc, Nat.add_right_comm] at h ⊢
        exact ih (Nat.lt_of_succ_lt_succ hj) h

/-! ### The place of the decimal point -/

/-- A number has its first digit about where it is looked for. -/
theorem decimalPlace_spec {y : Nat} (hy : y ≠ 0) (hl : -1100 ≤ (y.log2 : Int) + e) (hh : (y.log2 : Int) + e ≤ 1100) :
    (10 : ℚ) ^ (decimalPlace y e - 1) ≤ 2 * (y * 2 ^ e) ∧
      (y : ℚ) * 2 ^ e ≤ 2 ^ (5 : Int) * 10 ^ (decimalPlace y e + 1) := by
  have hlow : (2 : ℚ) ^ ((y.log2 : Int) + e) ≤ y * 2 ^ e := by
    have h : 2 ^ y.log2 ≤ y := Nat.log2_self_le hy
    rw [two_zpow_add]
    exact mul_le_mul_of_nonneg_right (by exact_mod_cast h) (two_zpow_pos e).le
  have hhigh : (y : ℚ) * 2 ^ e ≤ 2 ^ ((y.log2 : Int) + e + 1) := by
    have h : y ≤ 2 ^ (y.log2 + 1) := Nat.lt_log2_self.le
    rw [show (y.log2 : Int) + e + 1 = (y.log2 + 1 : Nat) + e by push_cast; ring, two_zpow_add]
    exact mul_le_mul_of_nonneg_right (by exact_mod_cast h) (two_zpow_pos e).le
  have hnot : ∀ {k : Int}, ¬ (!decimalAtMost 1 k y e) = true → (10 : ℚ) ^ k ≤ y * 2 ^ e := by
    intro k h
    rw [Bool.not_eq_true, Bool.not_eq_false', decimalAtMost_iff, Nat.cast_one, one_mul] at h
    exact h
  have hpos : (0 : ℚ) < y * 2 ^ e := (two_zpow_pos _).trans_le hlow
  unfold decimalPlace
  dsimp only
  generalize (y.log2 : Int) + e = l at *
  obtain ⟨guess, hg⟩ : ∃ guess : Int, l * 30103 / 100000 = guess := ⟨_, rfl⟩
  rw [hg]
  have hplace : ∀ place : Int, guess ≤ place → (y : ℚ) * 2 ^ e ≤ 2 ^ (5 : Int) * 10 ^ (place + 1) := fun place hp =>
    calc (y : ℚ) * 2 ^ e ≤ 2 ^ (l + 1) := hhigh
      _ = 2 ^ (5 : Int) * 2 ^ (l - 4) := by rw [← two_zpow_add]; congr 1; ring
      _ ≤ 2 ^ (5 : Int) * 10 ^ (place + 1) :=
        mul_le_mul_of_nonneg_left (two_zpow_le_ten (by omega) (by omega)) (two_zpow_pos 5).le
  split_ifs with h₀ h₁
  · refine ⟨?_, hplace _ (le_refl _)⟩
    calc (10 : ℚ) ^ (guess - 1) ≤ 2 ^ (l + 1) := ten_zpow_le (by omega) (by omega)
      _ = 2 * 2 ^ l := by rw [two_zpow_add, zpow_one, mul_comm]
      _ ≤ 2 * (y * 2 ^ e) := by linarith
  · refine ⟨?_, hplace _ (by omega)⟩
    rw [add_sub_cancel_right]
    linarith [hnot h₀]
  · refine ⟨?_, hplace _ (by omega)⟩
    rw [show guess + 2 - 1 = guess + 1 by ring]
    linarith [hnot h₁]

/-! ### The written fraction -/

/-- The decimal fraction that a number is written as is one that the number is nearest to, of few digits. -/
theorem shortest_spec (hc : Canonical m e) (hm : m ≠ 0) :
    (interval m e).Covers (e - 2) ((shortest m e).1 * 10 ^ (shortest m e).2) ∧ (shortest m e).1 ≠ 0 ∧
      (shortest m e).1 < 2 ^ 70 := by
  have hm1 : (1 : ℚ) ≤ m := by exact_mod_cast Nat.one_le_iff_ne_zero.mpr hm
  have hm53 : (m : ℚ) ≤ 2 ^ 53 := by
    have : m ≤ 2 ^ (53 : Nat) := by rcases hc with hc | hc <;> omega
    exact_mod_cast this
  have hlog : -1074 ≤ (((4 * m).log2 : Nat) : Int) + (e - 2) ∧ (((4 * m).log2 : Nat) : Int) + (e - 2) ≤ 1023 := by
    have hlow : 2 ≤ (4 * m).log2 := (Nat.le_log2 (by omega)).mpr (by omega)
    have hhigh : (4 * m).log2 < 55 := (Nat.log2_lt (by omega)).mpr (by rcases hc with hc | hc <;> omega)
    rcases hc with hc | hc <;> omega
  obtain ⟨hfirst, hplace⟩ := decimalPlace_spec (y := 4 * m) (e := e - 2) (by omega) (by omega) (by omega)
  have hp := two_zpow_pos (e - 2)
  push_cast at hfirst hplace
  unfold shortest
  dsimp only
  rw [show (interval m e).middle = 4 * m from rfl]
  generalize decimalPlace (4 * m) (e - 2) = place at *
  have hunit : (10 : ℚ) ^ (place - (1 + 17 : Nat)) ≤ 2 ^ (e - 2) :=
    calc (10 : ℚ) ^ (place - (1 + 17 : Nat)) = 10 ^ (place - 1) / 10 ^ 17 := by
          rw [show place - ((1 + 17 : Nat) : Int) = place - 1 - (17 : Nat) by push_cast; ring,
            zpow_sub₀ (by norm_num), zpow_natCast]
      _ ≤ 2 * (4 * m * 2 ^ (e - 2)) / 10 ^ 17 := by gcongr
      _ = 8 * m / 10 ^ 17 * 2 ^ (e - 2) := by ring
      _ ≤ 1 * 2 ^ (e - 2) := by
          refine mul_le_mul_of_nonneg_right ?_ hp.le
          rw [div_le_one (by norm_num)]
          linarith
      _ = 2 ^ (e - 2) := one_mul _
  obtain ⟨d, c, hd, hcount, hcovers⟩ := shortestFrom_covers (show 17 < 18 by decide) (nearest?_isSome hm hunit)
  rw [hd]
  refine ⟨hcovers, ?_, ?_⟩
  · rintro rfl
    have habove := hcovers.above
    have hpos : 0 < ((interval m e).low : ℚ) * 2 ^ (e - 2) :=
      mul_pos (by linarith [(low_bounds hm e).1]) hp
    rw [Nat.cast_zero, zero_mul] at habove
    exact absurd habove (not_le.mpr hpos)
  · have hten : (0 : ℚ) < 10 ^ (place - 18) := by positivity
    have hbound : (d : ℚ) * 10 ^ (place - 18) ≤ 2 ^ 6 * 10 ^ 19 * 10 ^ (place - 18) :=
      calc (d : ℚ) * 10 ^ (place - 18) ≤ d * 10 ^ (place - c) :=
            mul_le_mul_of_nonneg_left (zpow_le_zpow_right₀ (by norm_num) (by omega)) (Nat.cast_nonneg d)
        _ ≤ (4 * m + 2) * 2 ^ (e - 2) := cast_high m e ▸ hcovers.below
        _ ≤ 2 * (4 * m) * 2 ^ (e - 2) := mul_le_mul_of_nonneg_right (by linarith) hp.le
        _ ≤ 2 * (2 ^ (5 : Int) * 10 ^ (place + 1)) := by linarith
        _ = 2 ^ 6 * 10 ^ 19 * 10 ^ (place - 18) := by
            rw [show place + 1 = place - 18 + (19 : Nat) by push_cast; ring, zpow_add₀ (by norm_num), zpow_natCast]
            ring
    have hd : (d : ℚ) < 2 ^ 70 := (le_of_mul_le_mul_right hbound hten).trans_lt (by norm_num)
    exact_mod_cast hd

end LiveSvg.Number.Binary64
