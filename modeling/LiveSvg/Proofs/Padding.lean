import LiveSvg.Proofs.Showable
import Mathlib.Data.List.DropRight
/-!
Numbers shown with as many decimals as were asked for, and the same numbers without the zeros at their end. The
two texts differ by these zeros and the point before them, except that a number below zero which is rounded to
zero keeps its sign before the zeros.
-/

namespace LiveSvg

namespace Number

variable {s : String} {m n : Numeral} {places : Int} {negative : Bool} {c : Nat} {e : Int} {r : Decimal} {p : Plain}

/-- A text spells one number, if this is in the range. -/
theorem Spelled.eq (hm : Spelled s m) (hn : Spelled s n) (h : m.InRange) : n = m := by
  have hread := ofText?_of_spelled hn
  rw [ofText?_of_spelled hm, if_pos h] at hread
  split at hread
  · obtain ⟨hnegative, hcoefficient, hexponent⟩ := Decimal.finite.inj (Option.some.inj hread)
    cases m
    cases n
    simp_all
  · cases hread

namespace Decimal

theorem unitExponent_ok {unit : Int} (h : unitExponent places = .ok unit) :
    unit = max (-places) minExponent ∧ unit ≤ maxExponent := by
  unfold unitExponent at h
  split at h
  · cases h
  · split at h
    · cases h
    · obtain rfl := Except.ok.inj h
      exact ⟨rfl, max_le (by omega) (by decide)⟩

/-- Rounding keeps the sign, and gives zero for less than half a unit only. -/
theorem round_finite (h : round places (.finite negative c e) = .ok r) : ∃ k unit,
    unitExponent places = .ok unit ∧ r = .finite negative k unit ∧ digitCount k ≤ precision ∧
      (k = 0 ↔ 2 * |(Numeral.mk negative c e).value| < 10 ^ unit) := by
  unfold round at h
  cases hu : unitExponent places with
  | error g =>
    rw [hu] at h
    cases h
  | ok unit =>
    rw [hu] at h
    change (if c = 0 then _ else _) = _ at h
    rw [abs_value]
    split at h
    case isTrue hc =>
      subst hc
      refine ⟨0, unit, rfl, (Except.ok.inj h).symm, by decide, iff_of_true rfl ?_⟩
      rw [Nat.cast_zero, zero_mul, mul_zero]
      positivity
    case isFalse =>
      obtain ⟨shift, hshift⟩ : ∃ shift, e - unit = shift := ⟨_, rfl⟩
      obtain ⟨k, hk⟩ : ∃ k, k = if shift + digitCount c < 0 then 0
        else divHalfUp (c * 10 ^ shift.toNat) (10 ^ (-shift).toNat) := ⟨_, rfl⟩
      simp only [hshift, ← hk] at h
      have hbounds := units_bounds c shift hk
      have hunits : (c : ℚ) * 10 ^ e = c * 10 ^ shift * 10 ^ unit := by
        rw [mul_assoc, ← zpow_add₀ (by norm_num), ← hshift, sub_add_cancel]
      have hhalf : 2 * ((c : ℚ) * 10 ^ e) < 10 ^ unit ↔ (c : ℚ) * 10 ^ shift < 1 / 2 := by
        have hpos : (0 : ℚ) < 10 ^ unit := by positivity
        rw [hunits, ← mul_assoc, mul_lt_iff_lt_one_left hpos]
        constructor <;> intro _ <;> linarith
      split at h
      · cases h
      · change (if precision < digitCount k then _ else _) = _ at h
        split at h
        · cases h
        case isFalse hdigits =>
          refine ⟨k, unit, rfl, (Except.ok.inj h).symm, Nat.not_lt.mp hdigits, ?_⟩
          rw [hhalf]
          constructor
          · rintro rfl
            simpa using hbounds.2
          · intro hsmall
            have hone : (k : ℚ) < 1 := by linarith [hbounds.1]
            exact Nat.lt_one_iff.mp (by exact_mod_cast hone)

end Decimal

end Number

namespace Display

open Number

variable {v : Value} {dec : Int} {s t : String} {m n : Numeral} {p : Plain} {d : Decimal}

/-- A text without the zeros at the end of what stands after its point, and without the point if nothing does. -/
def withoutZeros (t : String) : String :=
  let whole := t.toList.takeWhile (· != '.')
  let fraction := ((t.toList.dropWhile (· != '.')).drop 1).rdropWhile (· == '0')
  String.ofList (if fraction.isEmpty then whole else whole ++ '.' :: fraction)

/-- Whether a text spells zero with a minus sign. -/
def NegativeZero (t : String) : Prop := ∃ n, Spelled t n ∧ n.negative = true ∧ n.coefficient = 0

/-- Plain notation loses the zeros at the end of its fraction. -/
theorem withoutZeros_text (h : p.Valid) : withoutZeros p.text = p.shortened.text := by
  obtain ⟨pre, hpre⟩ : ∃ pre, pre = (if p.negative then '-' :: p.whole else p.whole) := ⟨_, rfl⟩
  have hchars : ∀ ds, (⟨p.negative, p.whole, ds⟩ : Plain).chars = pre ++ if ds.isEmpty then [] else '.' :: ds := by
    intro ds
    rw [hpre, Plain.chars, Plain.body]
    cases p.negative <;> rfl
  have hpoint : ∀ c ∈ pre, (c != '.') = true := by
    have hwhole : ∀ c ∈ p.whole, (c != '.') = true := fun c hc =>
      bne_iff_ne.mpr fun k => h.point_notMem (k ▸ hc)
    rw [hpre]
    split
    · exact List.forall_mem_cons.mpr ⟨by decide, hwhole⟩
    · exact hwhole
  have hself : p.text.toList = pre ++ if p.fraction.isEmpty then [] else '.' :: p.fraction := by
    rw [Plain.text, String.toList_ofList]
    exact hchars p.fraction
  have hshort : p.shortened.text = String.ofList _ :=
    congrArg String.ofList (hchars (Binary64.dropZerosRight p.fraction))
  rw [withoutZeros, hself, hshort, List.takeWhile_append_of_pos hpoint, List.dropWhile_append_of_pos hpoint]
  cases hf : p.fraction with
  | nil => simp [Binary64.dropZerosRight]
  | cons d ds =>
    -- what stands after the point begins right behind it
    simp only [List.isEmpty_cons, Bool.false_eq_true, if_false]
    rw [List.takeWhile_cons_of_neg (by decide), List.dropWhile_cons_of_neg (by decide), List.append_nil]
    change String.ofList (if (Binary64.dropZerosRight (d :: ds)).isEmpty then _ else _) = _
    split
    · rw [List.append_nil]
    · rfl

/-- Zero has the sign of its notation when the superfluous zeros are gone, and none when it is tidy. -/
theorem zero_texts (h : p.Valid) (hz : p.value = 0) :
    p.shortened.text = (if p.negative then "-0" else "0") ∧ p.tidied.text = "0" := by
  obtain ⟨htidy, hvalue⟩ := h.tidied
  have heq : p.tidied = ⟨false, ['0'], []⟩ := htidy.eq_zero (hvalue.trans hz)
  have hparts : p.shortened.whole = ['0'] ∧ p.shortened.fraction = [] := by
    by_contra hne
    rw [Plain.tidied, Plain.unsigned, if_neg hne] at heq
    exact hne ⟨congrArg Plain.whole heq, congrArg Plain.fraction heq⟩
  constructor
  · have hshort : p.shortened = ⟨p.negative, ['0'], []⟩ := by
      rw [← hparts.1, ← hparts.2]
      rfl
    rw [hshort]
    cases p.negative <;> rfl
  · rw [heq]
    rfl

/-- Other numbers are tidy when the superfluous zeros are gone. -/
theorem tidied_of_ne_zero (hz : p.value ≠ 0) : p.tidied = p.shortened := by
  refine if_neg fun hparts => hz ?_
  rw [← p.value_shortened]
  refine Plain.value_eq_zero_iff.mpr ?_
  rw [Plain.digits, hparts.1, hparts.2]
  rfl

/-- Plain notation spells a negative zero if its number is zero and its sign is not. -/
theorem negativeZero_text (h : p.Valid) (hr : p.numeral.InRange) :
    NegativeZero p.text ↔ p.negative = true ∧ p.value = 0 := by
  constructor
  · rintro ⟨n, hn, hnegative, hcoefficient⟩
    obtain rfl := h.spelled.eq hn hr
    exact ⟨hnegative, Plain.value_eq_zero_iff.mpr hcoefficient⟩
  · rintro ⟨hnegative, hz⟩
    exact ⟨p.numeral, h.spelled, hnegative, Plain.value_eq_zero_iff.mp hz⟩

theorem not_spelled_of_nan {b : Bool} (h : Decimal.ofText? s = some (.nan b)) : ¬ Spelled s n := fun hn => by
  rw [ofText?_of_spelled hn] at h
  split at h <;> cases h

theorem error_bind {ε α β : Type} (g : ε) (f : α → Except ε β) : (Except.error g >>= f) = .error g := rfl

theorem isNumeric_of_ok {places unit showZeros : Value} (h : format v places unit showZeros = .ok (.text s))
    (hm : Spelled s m) : isNumeric v = true := by
  by_contra hv
  rw [format, if_neg hv] at h
  obtain rfl := Except.ok.inj h
  exact hv (isSome_of_spelled hm)

/-- A number that spells no exact decimal one is kept as it is. -/
theorem kept_of_ok {places unit showZeros : Value} (hv : isNumeric v = true) (hd : decimalOf? v = none)
    (h : format v places unit showZeros = .ok (.text s)) : v = .text s := by
  rw [format, if_pos hv] at h
  cases hs : numberText v with
  | error g =>
    rw [hs, error_bind] at h
    cases h
  | ok s₀ =>
    rw [decimalOf?_eq hs] at hd
    rw [hs, ok_bind, hd, Option.isNone_none, if_pos rfl] at h
    exact Except.ok.inj h

/-- The others are rounded, and what is shown is the rounded number with or without the zeros at its end. -/
theorem rounded_of_ok {zeros : Bool} (hv : isNumeric v = true) (hd : decimalOf? v = some d)
    (h : format v (.int dec) .null (.bool zeros) = .ok (.text s)) :
    ∃ r, d.round dec = .ok r ∧ s = String.ofList (if zeros then r.plain else r.stripped) := by
  have hoptions : optionsOf (.int dec) .null (.bool zeros) = .ok ⟨some dec, "", zeros⟩ := rfl
  rw [format, if_pos hv] at h
  cases hs : numberText v with
  | error g =>
    rw [hs, error_bind] at h
    cases h
  | ok s₀ =>
    rw [decimalOf?_eq hs] at hd
    rw [hs, ok_bind, hd, Option.isNone_some, if_neg Bool.false_ne_true, hoptions, ok_bind, formatText, hd] at h
    dsimp only at h
    rw [digits] at h
    dsimp only at h
    cases hr : d.round dec with
    | error g =>
      rw [hr] at h
      cases h
    | ok r =>
      rw [hr] at h
      exact ⟨r, rfl, (Value.text.inj (Except.ok.inj h)).symm⟩

/-- What is shown of a finite number that is rounded to so many decimals. -/
theorem texts_of_round {k : Numeral} {r : Decimal}
    (hr : Decimal.round dec (.finite k.negative k.coefficient k.exponent) = .ok r) :
    ∃ p : Plain, p.Valid ∧ p.numeral.InRange ∧ p.negative = k.negative ∧ String.ofList r.plain = p.text ∧
      String.ofList r.stripped = p.tidied.text ∧
      (p.value = 0 ↔ 2 * |k.value| < 10 ^ max (-dec) Decimal.minExponent) := by
  obtain ⟨c, unit, hu, rfl, hc, hzero⟩ := Decimal.round_finite hr
  obtain ⟨hunit, hlarge⟩ := Decimal.unitExponent_ok hu
  have hsmall : Decimal.minExponent ≤ unit := hunit ▸ le_max_right _ _
  obtain ⟨p, hp, hchars, hsign, hl, hd⟩ := Decimal.exists_plain k.negative c unit
  have hvalue := Decimal.value_of_plain hsign hl hd
  unfold Decimal.minExponent at hsmall
  unfold Decimal.maxExponent at hlarge
  unfold Decimal.precision at hc
  have hrange : (Numeral.mk k.negative c unit).InRange := ⟨by dsimp only; omega, by dsimp only; omega⟩
  refine ⟨p, hp, hrange.of_value hvalue ?_ ?_, hsign, congrArg String.ofList hchars,
    congrArg String.ofList (hp.stripped hchars), ?_⟩
  · exact Int.neg_nonpos_of_nonneg (Int.natCast_nonneg _)
  · change -1999999999999999997 ≤ -(p.fraction.length : Int)
    omega
  · rw [← hunit, ← hzero, hvalue, Numeral.value]
    have hten : (10 : ℚ) ^ unit ≠ 0 := by positivity
    have hsigned : (if k.negative then -1 else 1 : ℚ) ≠ 0 := by split <;> norm_num
    rw [mul_eq_zero, or_iff_right hsigned, mul_eq_zero, or_iff_left hten, Nat.cast_eq_zero]

/-- A number with all the decimals asked for loses the zeros at its end and is what is shown without them; neither
is a negative zero. The one exception is a negative number that is rounded to zero: with all the decimals it keeps
its sign. A text out of the range of exact decimals is kept as it is either way. -/
theorem padded_alike (hs : format v (.int dec) .null (.bool false) = .ok (.text s))
    (ht : format v (.int dec) .null (.bool true) = .ok (.text t)) (hm : Spelled s m) (hn : Spelled t n) :
    decimalOf? v = none ∧ v = .text s ∧ t = s ∨
      ∃ k : Numeral, decimalOf? v = some (.finite k.negative k.coefficient k.exponent) ∧ ¬ NegativeZero s ∧
        (NegativeZero t ↔ k.negative = true ∧ 2 * |k.value| < 10 ^ max (-dec) Decimal.minExponent) ∧
        (¬ NegativeZero t → withoutZeros t = s) ∧ (NegativeZero t → withoutZeros t = "-0" ∧ s = "0") := by
  have hv := isNumeric_of_ok hs hm
  cases hd : decimalOf? v with
  | none =>
    obtain rfl := kept_of_ok hv hd hs
    exact .inl ⟨rfl, rfl, (Value.text.inj (kept_of_ok hv hd ht)).symm⟩
  | some d =>
    obtain ⟨r, hr, rfl⟩ := rounded_of_ok hv hd hs
    obtain ⟨r', hr', rfl⟩ := rounded_of_ok hv hd ht
    obtain rfl : r = r' := Except.ok.inj (hr.symm.trans hr')
    cases d with
    | infinity => cases hr
    | nan negative =>
      -- what is no number is no text that spells one
      have hnan : r = .nan negative := by
        unfold Decimal.round at hr
        cases hu : Decimal.unitExponent dec with
        | error g =>
          rw [hu] at hr
          cases hr
        | ok unit =>
          rw [hu] at hr
          exact (Except.ok.inj hr).symm
      subst hnan
      refine absurd hn (not_spelled_of_nan (b := negative) ?_)
      cases negative <;> decide
    | finite negative c e =>
      refine .inr ⟨⟨negative, c, e⟩, rfl, ?_⟩
      obtain ⟨p, hp, hrange, hsign, hplain, hstripped, hzero⟩ := texts_of_round (k := ⟨negative, c, e⟩) hr
      obtain ⟨htidy, hvalue⟩ := hp.tidied
      have hwhole : p.tidied.numeral.exponent ≤ 0 := Int.neg_nonpos_of_nonneg (Int.natCast_nonneg _)
      have htrange : p.tidied.numeral.InRange := hrange.of_value hvalue hwhole <| by
        have hlast := hrange.last
        have hlength := p.length_fraction_tidied
        change -1999999999999999997 ≤ -(p.fraction.length : Int) at hlast
        change -1999999999999999997 ≤ -(p.tidied.fraction.length : Int)
        omega
      rw [if_neg Bool.false_ne_true, if_pos rfl, hplain, hstripped, negativeZero_text hp hrange,
        negativeZero_text htidy.toValid htrange, withoutZeros_text hp, hzero, hsign]
      refine ⟨fun h => ?_, Iff.rfl, fun h => ?_, fun h => ?_⟩
      · exact Bool.false_ne_true ((htidy.unsigned h.2).symm.trans h.1)
      · by_cases hz : p.value = 0
        · have hpositive : p.negative = false := Bool.eq_false_iff.mpr fun k => h ⟨hsign ▸ k, hzero.mp hz⟩
          rw [(zero_texts hp hz).1, (zero_texts hp hz).2, hpositive]
          rfl
        · rw [tidied_of_ne_zero hz]
      · obtain ⟨hshort, htidied⟩ := zero_texts hp (hzero.mpr h.2)
        rw [hshort, htidied, hsign, h.1]
        exact ⟨rfl, rfl⟩

/-- The text of a pressure below zero, with two decimals. -/
theorem padded_alike_pressure :
    format (.text "-2.504") (.int 2) .null (.bool true) = .ok (.text "-2.50") ∧ withoutZeros "-2.50" = "-2.5" ∧
      ¬ NegativeZero "-2.50" ∧ ¬ NegativeZero "-2.5" := by
  have hshort : Spelled "-2.5" ⟨true, 25, -1⟩ :=
    Plain.Valid.spelled (p := ⟨true, ['2'], ['5']⟩) ⟨⟨by decide, by decide⟩, List.all_eq_true.mp rfl⟩
  have hlong : Spelled "-2.50" ⟨true, 250, -2⟩ :=
    Plain.Valid.spelled (p := ⟨true, ['2'], ['5', '0']⟩) ⟨⟨by decide, by decide⟩, List.all_eq_true.mp rfl⟩
  have hstripped : format (.text "-2.504") (.int 2) .null (.bool false) = .ok (.text "-2.5") := rfl
  have hpadded : format (.text "-2.504") (.int 2) .null (.bool true) = .ok (.text "-2.50") := rfl
  have hdecimal : decimalOf? (.text "-2.504") = some (.finite true 2504 (-3)) := by decide
  rcases padded_alike hstripped hpadded hshort hlong with ⟨hnone, -⟩ | ⟨⟨negative, c, e⟩, hk, hs, ht, hsame, -⟩
  · rw [hdecimal] at hnone
    cases hnone
  · rw [hdecimal] at hk
    obtain ⟨rfl, rfl, rfl⟩ := Decimal.finite.inj (Option.some.inj hk)
    have hlarge : ¬ NegativeZero "-2.50" := by
      rw [ht, not_and]
      norm_num [Numeral.value, Decimal.minExponent, abs_of_neg]
    exact ⟨hpadded, hsame hlarge, hlarge, hs⟩

/-- A thousandth below zero is rounded to nothing, but with two decimals it is shown with its sign. -/
theorem negative_zero_padded : ¬ ∀ (v : Value) (dec : Int) (s t : String) (m n : Numeral), 1 ≤ dec →
    format v (.int dec) .null (.bool false) = .ok (.text s) →
    format v (.int dec) .null (.bool true) = .ok (.text t) → Spelled s m → Spelled t n →
    withoutZeros t = s ∧ ¬ NegativeZero s ∧ ¬ NegativeZero t := by
  intro h
  have hstripped : format (.float (Binary64.ofRatio true 1 1000)) (.int 2) .null (.bool false) = .ok (.text "0") := rfl
  have hpadded : format (.float (Binary64.ofRatio true 1 1000)) (.int 2) .null (.bool true) = .ok (.text "-0.00") := rfl
  have hshort : Spelled "0" ⟨false, 0, 0⟩ :=
    Plain.Valid.spelled (p := ⟨false, ['0'], []⟩) ⟨⟨by decide, by decide⟩, List.all_eq_true.mp rfl⟩
  have hlong : Spelled "-0.00" ⟨true, 0, -2⟩ :=
    Plain.Valid.spelled (p := ⟨true, ['0'], ['0', '0']⟩) ⟨⟨by decide, by decide⟩, List.all_eq_true.mp rfl⟩
  obtain ⟨-, -, hsigned⟩ := h _ 2 _ _ _ _ (by decide) hstripped hpadded hshort hlong
  exact hsigned ⟨_, hlong, rfl, rfl⟩

end Display

end LiveSvg
