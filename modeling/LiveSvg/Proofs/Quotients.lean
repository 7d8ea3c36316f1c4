import LiveSvg.Proofs.Rounding
/-!
Quotients of positive numbers: when they are positive numbers again, and what there is instead when they are too
large or too small for one.
-/

namespace LiveSvg.Number.Binary64

variable {n d num den m m' : Nat} {e e' : Int} {p q : Binary64}

/-! ### Rounding to integers -/

/-- A quotient is within a half of the integer that it is rounded to, and nearer if that is odd. -/
theorem divToEven_spec (n d : Nat) (hd : 0 < d) : 2 * divToEven n d * d ≤ 2 * n + d ∧
    2 * n ≤ (2 * divToEven n d + 1) * d ∧ (divToEven n d % 2 = 1 →
      2 * divToEven n d * d < 2 * n + d ∧ 2 * n < (2 * divToEven n d + 1) * d) := by
  have hn : d * (n / d) + n % d = n := Nat.div_add_mod n d
  have hr : n % d < d := Nat.mod_lt n hd
  unfold divToEven
  generalize n / d = q at *
  generalize n % d = r at *
  subst hn
  have hprod : ∀ k : Nat, 2 * (q + k) * d = 2 * (d * q) + 2 * (k * d) := fun k => by ring
  have hnext : ∀ k : Nat, (2 * (q + k) + 1) * d = 2 * (d * q) + 2 * (k * d) + d := fun k => by ring
  dsimp only
  split_ifs with hbelow habove
  · rw [← Nat.add_zero q, hprod, hnext, Nat.add_zero]
    omega
  · rw [hprod, hnext]
    omega
  · rw [hprod, hnext]
    rcases Nat.mod_two_eq_zero_or_one q with h | h
    · rw [h]
      omega
    · rw [h]
      omega

theorem divToEven_bounds (hd : 0 < d) (n : Nat) :
    (divToEven n d : ℚ) - 1 / 2 ≤ n / d ∧ (n : ℚ) / d ≤ divToEven n d + 1 / 2 ∧
      (divToEven n d % 2 = 1 → (divToEven n d : ℚ) - 1 / 2 < n / d ∧ (n : ℚ) / d < divToEven n d + 1 / 2) := by
  have hd' : (0 : ℚ) < d := Nat.cast_pos.mpr hd
  obtain ⟨hlow, hhigh, hodd⟩ := divToEven_spec n d hd
  generalize divToEven n d = m at *
  rw [le_div_iff₀ hd', div_le_iff₀ hd', lt_div_iff₀ hd', div_lt_iff₀ hd']
  refine ⟨?_, ?_, fun h => ?_⟩
  · qify at hlow
    linarith
  · qify at hhigh
    linarith
  · obtain ⟨hlow, hhigh⟩ := hodd h
    qify at hlow hhigh
    exact ⟨by linarith, by linarith⟩

/-! ### Fractions that are too large or too small -/

/-- Half the least positive number; nothing above it is rounded to zero. -/
def vanishing : ℚ := 2 ^ (-1075 : Int)

/-- Half a place above the greatest number; nothing below it is rounded to infinity. -/
def exceeding : ℚ := 2 ^ (1024 : Int) - 2 ^ (970 : Int)

/-- Neither zero nor infinite nor a NaN, and without a minus. -/
def isPositive : Binary64 → Bool
  | .finite false m _ _ => m != 0
  | _ => false

theorem isPositive_iff {x : Binary64} : x.isPositive = true ↔ ∃ m e hc, x = .finite false m e hc ∧ m ≠ 0 := by
  constructor
  · intro h
    unfold isPositive at h
    split at h
    · next m e hc => exact ⟨m, e, hc, rfl, bne_iff_ne.mp h⟩
    · cases h
  · rintro ⟨m, e, hc, rfl, hm⟩
    exact bne_iff_ne.mpr hm

theorem ofParts_canonical (negative : Bool) (hc : Canonical m e) : ofParts negative m e = .finite negative m e hc :=
  dif_pos hc

theorem ofParts_not (negative : Bool) (hc : ¬ Canonical m e) : ofParts negative m e = .infinity negative :=
  dif_neg hc

/-- What becomes of a fraction that is rounded. -/
inductive Rounded (q : ℚ) : Binary64 → Prop where
  | vanished : q ≤ vanishing → Rounded q (zero false)
  | positive {x : Binary64} : vanishing < q → q < exceeding → x.isPositive = true → Rounded q x
  | exceeded : exceeding ≤ q → Rounded q (.infinity false)

theorem two_zpow_mul_neg (q : ℚ) (e : Int) : q * 2 ^ (-e) * 2 ^ e = q := by
  rw [mul_assoc, ← two_zpow_add, neg_add_cancel, zpow_zero, mul_one]

theorem vanishing_lt_two_zpow {e : Int} (he : -1075 < e) : vanishing < 2 ^ e :=
  zpow_lt_zpow_right₀ (by norm_num) he

theorem two_zpow_lt_exceeding {e : Int} (he : e ≤ 1023) : (2 : ℚ) ^ e < exceeding := by
  have h : (2 : ℚ) ^ (1023 : Int) < exceeding := by
    have hsmall : (2 : ℚ) ^ (970 : Int) < 2 ^ (1023 : Int) := zpow_lt_zpow_right₀ (by norm_num) (by norm_num)
    have hdouble : (2 : ℚ) ^ (1024 : Int) = 2 ^ (1023 : Int) * 2 ^ (1 : Int) := two_zpow_add 1023 1
    unfold exceeding
    rw [hdouble, zpow_one, mul_two, add_sub_assoc]
    exact lt_add_of_pos_right _ (sub_pos.mpr hsmall)
  exact (two_zpow_le he).trans_lt h

theorem exceeding_eq : exceeding = (2 ^ (53 : Int) - 1 / 2) * 2 ^ (971 : Int) := by
  have hhalf : (2 : ℚ) ^ (971 : Int) = 2 ^ (970 : Int) * 2 ^ (1 : Int) := two_zpow_add 970 1
  rw [sub_mul, ← two_zpow_add, exceeding, show (53 : Int) + 971 = 1024 by rfl, hhalf, zpow_one]
  ring

theorem exceeding_lt : exceeding < 2 ^ (1024 : Int) := sub_lt_self _ (two_zpow_pos 970)

theorem vanishing_eq : vanishing = 1 / 2 * 2 ^ (-1074 : Int) := by
  rw [vanishing, show (-1075 : Int) = -1 + -1074 by norm_num, two_zpow_add, zpow_neg_one, one_div]

theorem isPositive_ofParts (hc : Canonical m e) (hm : m ≠ 0) : (ofParts false m e).isPositive = true := by
  rw [ofParts_canonical false hc]
  exact bne_iff_ne.mpr hm

/-- Parts that are nearest to a fraction make a positive number unless the fraction is too large or too small. -/
theorem ofParts_rounded {v : ℚ} (he : -1074 ≤ e) (hm : m < 2 ^ (53 : Nat)) (hlow : (m : ℚ) - 1 / 2 ≤ v)
    (hhigh : v ≤ m + 1 / 2) (hodd : m % 2 = 1 → (m : ℚ) - 1 / 2 < v ∧ v < m + 1 / 2)
    (hfull : e = -1074 ∨ 2 ^ (52 : Int) ≤ v) : Rounded (v * 2 ^ e) (ofParts false m e) := by
  have hp := two_zpow_pos e
  have hbits : e = -1074 ∨ 2 ^ (52 : Nat) ≤ m := hfull.imp_right fun h => by
    have hless : (2 ^ (52 : Nat) : ℚ) < m + 1 := by
      have hpow : (2 : ℚ) ^ (52 : Int) = 2 ^ (52 : Nat) := by norm_cast
      linarith
    exact Nat.lt_succ_iff.mp (by exact_mod_cast hless)
  rcases Nat.eq_zero_or_pos m with rfl | hpos
  · obtain rfl : e = -1074 := hbits.resolve_right (by decide)
    refine .vanished ?_
    rw [vanishing_eq]
    exact mul_le_mul_of_nonneg_right (by simpa using hhigh) hp.le
  have habove : vanishing < v * 2 ^ e := by
    have hv : 1 / 2 < v := by
      rcases Nat.mod_two_eq_zero_or_one m with h | h
      · have : (2 : ℚ) ≤ m := by exact_mod_cast (by omega : 2 ≤ m)
        linarith
      · have : (1 : ℚ) ≤ m := by exact_mod_cast hpos
        linarith [(hodd h).1]
    calc vanishing = 1 / 2 * 2 ^ (-1074 : Int) := vanishing_eq
      _ ≤ 1 / 2 * 2 ^ e := mul_le_mul_of_nonneg_left (two_zpow_le he) (by norm_num)
      _ < v * 2 ^ e := mul_lt_mul_of_pos_right hv hp
  by_cases hlarge : e ≤ 971
  · have hc : Canonical m e := by
      by_cases hb : 2 ^ (52 : Nat) ≤ m
      · exact .inl ⟨hb, hm, he, hlarge⟩
      · exact .inr ⟨Nat.lt_of_not_le hb, hbits.resolve_right hb⟩
    refine .positive habove ?_ (isPositive_ofParts hc hpos.ne')
    have hv : v < 2 ^ (53 : Int) - 1 / 2 := by
      have hpow : (2 : ℚ) ^ (53 : Int) = 2 ^ (53 : Nat) := by norm_cast
      rcases Nat.mod_two_eq_zero_or_one m with h | h
      · have : (m : ℚ) + 2 ≤ 2 ^ (53 : Nat) := by exact_mod_cast (by omega : m + 2 ≤ 2 ^ (53 : Nat))
        linarith
      · have : (m : ℚ) + 1 ≤ 2 ^ (53 : Nat) := by exact_mod_cast (by omega : m + 1 ≤ 2 ^ (53 : Nat))
        linarith [(hodd h).2]
    calc v * 2 ^ e < (2 ^ (53 : Int) - 1 / 2) * 2 ^ e := mul_lt_mul_of_pos_right hv hp
      _ ≤ (2 ^ (53 : Int) - 1 / 2) * 2 ^ (971 : Int) := mul_le_mul_of_nonneg_left (two_zpow_le hlarge) (by norm_num)
      _ = exceeding := exceeding_eq.symm
  · have hnot : ¬ Canonical m e := by
      rintro (h | h) <;> omega
    rw [ofParts_not false hnot]
    refine .exceeded ?_
    have hv := hfull.resolve_left (by omega)
    calc exceeding ≤ 2 ^ (1024 : Int) := exceeding_lt.le
      _ ≤ 2 ^ (52 + e) := two_zpow_le (by omega)
      _ = 2 ^ (52 : Int) * 2 ^ e := two_zpow_add 52 e
      _ ≤ v * 2 ^ e := mul_le_mul_of_nonneg_right hv hp.le

/-- A fraction is rounded to a positive number unless it is too large or too small for one. -/
theorem ofRatio_rounded (hn : 0 < num) (hd : 0 < den) : Rounded (num / den) (ofRatio false num den) := by
  obtain ⟨hleast, hhigh, hlow⟩ := exponentOf_spec hn hd
  have hpos := scaleFraction_pos hd num (-exponentOf num den)
  have hscale := scaleFraction_div num den (-exponentOf num den)
  obtain ⟨hm, hm', hodd⟩ := divToEven_bounds hpos (scaleFraction num den (-exponentOf num den)).1
  rw [hscale] at hm hm' hodd
  unfold ofRatio
  rw [if_neg (by omega)]
  dsimp only
  generalize divToEven _ _ = m at *
  generalize exponentOf num den = e at *
  have hq := two_zpow_mul_neg (num / den) e
  generalize (num : ℚ) / den = q at *
  generalize q * 2 ^ (-e) = v at *
  have hp := two_zpow_pos e
  subst hq
  have hv : v < 2 ^ (53 : Int) := by
    rw [add_comm, two_zpow_add] at hhigh
    exact lt_of_mul_lt_mul_right hhigh hp.le
  have hpow : (2 : ℚ) ^ (53 : Int) = (2 ^ (53 : Nat) : Nat) := by norm_cast
  split_ifs with hm53
  · -- the mantissa is rounded up to a power of two
    rw [hm53, ← hpow] at hm
    by_cases hlarge : e + 1 ≤ 971
    · refine .positive ?_ ?_ (isPositive_ofParts (.inl ⟨le_rfl, by decide, by omega, hlarge⟩) (by decide))
      · calc vanishing < 2 ^ e := vanishing_lt_two_zpow (by omega)
          _ = 1 * 2 ^ e := (one_mul _).symm
          _ ≤ v * 2 ^ e := mul_le_mul_of_nonneg_right (by linarith) hp.le
      · exact hhigh.trans (two_zpow_lt_exceeding (by omega))
    · have hnot : ¬ Canonical (2 ^ (52 : Nat)) (e + 1) := by
        rintro (h | h) <;> omega
      rw [ofParts_not false hnot]
      refine .exceeded ?_
      rw [exceeding_eq]
      exact mul_le_mul hm (two_zpow_le (by omega)) (two_zpow_pos _).le (le_trans (by norm_num) hm)
  · have hless : m < 2 ^ (53 : Nat) := by
      have : (m : ℚ) < (2 ^ (53 : Nat) : Nat) + 1 := by linarith
      have : m < 2 ^ (53 : Nat) + 1 := by exact_mod_cast this
      omega
    refine ofParts_rounded hleast hless hm hm' hodd (hlow.imp_right fun h => ?_)
    rw [add_comm, two_zpow_add] at h
    exact le_of_mul_le_mul_right h hp

/-! ### Sides and their quotients -/

/-- The exact value of a finite number. -/
def value : Binary64 → ℚ
  | .finite negative m e _ => (if negative then -1 else 1) * (m * 2 ^ e)
  | _ => 0

theorem value_pos (h : p.isPositive = true) : 0 < p.value := by
  obtain ⟨m, e, hc, rfl, hm⟩ := isPositive_iff.mp h
  rw [value, if_neg Bool.false_ne_true, one_mul]
  exact mul_pos (Nat.cast_pos.mpr (Nat.pos_of_ne_zero hm)) (two_zpow_pos e)

/-- What is not at most zero: a positive number, but infinity and a NaN as well. -/
inductive Side : Binary64 → Prop where
  | nan : Side .nan
  | infinity : Side (.infinity false)
  | positive {x : Binary64} : x.isPositive = true → Side x

/-- What becomes of a side that is divided by another one. -/
inductive Quotient : Binary64 → Binary64 → Binary64 → Prop where
  | nan {p q : Binary64} : p.isNaN = true ∨ q.isNaN = true → Quotient p q .nan
  | infinities : Quotient (.infinity false) (.infinity false) .nan
  | unbounded {q : Binary64} : q.isPositive = true → Quotient (.infinity false) q (.infinity false)
  | lost {p : Binary64} : p.isPositive = true → Quotient p (.infinity false) (zero false)
  | rounded {p q x : Binary64} : p.isPositive = true → q.isPositive = true → Rounded (p.value / q.value) x →
    Quotient p q x

theorem zero_eq : zero false = .finite false 0 (-1074) (by decide) := ofParts_canonical false (by decide)

/-- A number is compared to zero by its numerator. -/
theorem atMost_zero_of_place {n : Int} (h : p.place? = some (.point n d)) :
    p.atMost (.zero false) = decide (n ≤ 0) := by
  obtain ⟨t, ht, hzero⟩ : ∃ t : Nat, 0 < t ∧ (zero false).place? = some (.point 0 t) := by
    rw [zero_eq]
    exact ⟨_, Nat.pow_pos (by decide), rfl⟩
  have hcompare : p.compare? (zero false) = some (compare (n * t) (0 * d)) := by
    rw [compare?, h, hzero]
    rfl
  have hpos : (0 : Int) < t := Int.natCast_pos.mpr ht
  rw [atMost, less, hcompare, Int.zero_mul]
  rcases lt_trichotomy n 0 with hn | rfl | hn
  · rw [compare_lt_iff_lt.mpr (mul_neg_of_neg_of_pos hn hpos), decide_eq_true hn.le]
    rfl
  · rw [Int.zero_mul, decide_eq_true le_rfl]
    rfl
  · rw [compare_gt_iff_gt.mpr (mul_pos hn hpos), decide_eq_false (not_le.mpr hn)]
    rfl

/-- Exactly the sides are not at most zero. -/
theorem atMost_zero_iff : p.atMost (.zero false) = false ↔ Side p := by
  have hpos : ∀ {m : Nat} (e : Int), m ≠ 0 → (0 : Int) < m * 2 ^ e.toNat := fun e hm =>
    mul_pos (Int.natCast_pos.mpr (Nat.pos_of_ne_zero hm)) (pow_pos (by norm_num) _)
  constructor
  · intro h
    cases p with
    | nan => exact .nan
    | infinity negative =>
      cases negative with
      | false => exact .infinity
      | true =>
        rw [zero_eq] at h
        cases h
    | finite negative m e hc =>
      rw [atMost_zero_of_place rfl, decide_eq_false_iff_not] at h
      cases negative with
      | false => exact .positive (bne_iff_ne.mpr fun hm => h (by rw [hm]; simp))
      | true => exact absurd (by simp) h
  · rintro (_ | _ | h)
    · rfl
    · rw [zero_eq]
      rfl
    · obtain ⟨m, e, hc, rfl, hm⟩ := isPositive_iff.mp h
      rw [atMost_zero_of_place rfl]
      exact decide_eq_false (not_le.mpr (hpos e hm))

/-- A positive number is a fraction of positive naturals. -/
theorem ratio?_positive (hp : p.isPositive = true) : ∃ num den : Nat, p.ratio? = some ((num : Int), den) ∧
    0 < num ∧ 0 < den ∧ p.value = num / den := by
  obtain ⟨m, e, hc, rfl, hm⟩ := isPositive_iff.mp hp
  have htwo : ∀ k : Int, 0 < 2 ^ k.toNat := fun k => Nat.pow_pos (by decide)
  have hvalue := zpow_eq_div 2 e
  rw [Nat.cast_ofNat] at hvalue
  refine ⟨m * 2 ^ e.toNat, 2 ^ (-e).toNat, ?_, Nat.mul_pos (Nat.pos_of_ne_zero hm) (htwo e), htwo (-e), ?_⟩
  · rw [Nat.cast_mul, Nat.cast_pow]
    rfl
  · rw [value, if_neg Bool.false_ne_true, one_mul, hvalue, Nat.cast_mul, mul_div_assoc]

theorem div_positive (hp : p.isPositive = true) (hq : q.isPositive = true) : Rounded (p.value / q.value) (p.div q) := by
  obtain ⟨num, den, hratio, hnum, hden, hvalue⟩ := ratio?_positive hp
  obtain ⟨num', den', hratio', hnum', hden', hvalue'⟩ := ratio?_positive hq
  have hrounded := ofRatio_rounded (Nat.mul_pos hnum hden') (Nat.mul_pos hden hnum')
  have hquotient : ((num * den' : Nat) : ℚ) / (den * num' : Nat) = p.value / q.value := by
    rw [hvalue, hvalue', div_div_div_eq, Nat.cast_mul, Nat.cast_mul]
  have hdiv : p.div q = ofRatio false (num * den') (den * num') := by
    obtain ⟨m, e, hc, rfl, -⟩ := isPositive_iff.mp hp
    obtain ⟨m', e', hc', rfl, -⟩ := isPositive_iff.mp hq
    unfold div
    dsimp only
    rw [hratio, hratio']
    exact if_neg (Int.natCast_ne_zero.mpr hnum'.ne')
  rw [hdiv, ← hquotient]
  exact hrounded

theorem Side.div (hp : Side p) (hq : Side q) : Quotient p q (p.div q) := by
  cases hp with
  | nan => exact .nan (.inl rfl)
  | infinity =>
    cases hq with
    | nan => exact .nan (.inr rfl)
    | infinity => exact .infinities
    | positive h =>
      obtain ⟨m, e, hc, rfl, hm⟩ := isPositive_iff.mp h
      exact .unbounded h
  | positive h =>
    obtain ⟨m, e, hc, rfl, hm⟩ := isPositive_iff.mp h
    cases hq with
    | nan => exact .nan (.inr rfl)
    | infinity => exact .lost h
    | positive k => exact .rounded h k (div_positive h k)

theorem not_isPositive_zero : (zero false).isPositive = false := by
  rw [zero_eq]
  rfl

/-- A quotient is positive exactly if both sides are, and it is neither too large nor too small. -/
theorem Quotient.isPositive_iff {x : Binary64} (h : Quotient p q x) : x.isPositive = true ↔ p.isPositive = true ∧
    q.isPositive = true ∧ vanishing < p.value / q.value ∧ p.value / q.value < exceeding := by
  cases h with
  | nan h =>
    refine iff_of_false Bool.false_ne_true fun ⟨hp, hq, _⟩ => ?_
    obtain ⟨m, e, hc, rfl, -⟩ := Binary64.isPositive_iff.mp hp
    obtain ⟨m', e', hc', rfl, -⟩ := Binary64.isPositive_iff.mp hq
    exact h.elim Bool.false_ne_true Bool.false_ne_true
  | infinities => exact iff_of_false Bool.false_ne_true fun h => Bool.false_ne_true h.1
  | unbounded => exact iff_of_false Bool.false_ne_true fun h => Bool.false_ne_true h.1
  | lost => exact iff_of_false (Bool.eq_false_iff.mp not_isPositive_zero) fun h => Bool.false_ne_true h.2.1
  | rounded hp hq hx =>
    cases hx with
    | vanished h => exact iff_of_false (Bool.eq_false_iff.mp not_isPositive_zero) fun k => (h.trans_lt k.2.2.1).false
    | positive hlow hhigh hx => exact iff_of_true hx ⟨hp, hq, hlow, hhigh⟩
    | exceeded h => exact iff_of_false Bool.false_ne_true fun k => (h.trans_lt k.2.2.2).false

end LiveSvg.Number.Binary64
