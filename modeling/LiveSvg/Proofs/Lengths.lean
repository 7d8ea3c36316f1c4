import LiveSvg.Proofs.Declarations
import LiveSvg.Proofs.Displaying
import LiveSvg.Proofs.Quotients
import Mathlib.Data.Nat.Cast.Field
/-!
Numbers as lengths: which positive numbers are read back from the text that attributes show for them. Lengths have no
exponents, with which small numbers are written.
-/

namespace LiveSvg

open Number Text Json

/-! ### Where the first digit of a number stands -/

namespace Number.Binary64

variable {m : Nat} {e : Int} {i : Interval} {p q r : ℚ} {x : Binary64}

theorem Interval.Covers.between (hp : i.Covers e p) (hr : i.Covers e r) (h : p ≤ q) (h' : q ≤ r) : i.Covers e q :=
  ⟨hp.above.trans h, h'.trans hr.below, fun hc => ⟨(hp.inside hc).1.trans_le h, h'.trans_lt (hr.inside hc).2⟩⟩

/-- A number lies inside its own interval. -/
theorem covers_self (hm : m ≠ 0) (e : Int) : (interval m e).Covers (e - 2) (m * 2 ^ e) := by
  have hunit : (m : ℚ) * 2 ^ e = 4 * m * 2 ^ (e - 2) := by
    have hfour : (2 : ℚ) ^ e = 2 ^ (2 : Int) * 2 ^ (e - 2) := by rw [← two_zpow_add, add_sub_cancel]
    rw [hfour]
    ring
  have hp := two_zpow_pos (e - 2)
  have hlow : ((interval m e).low : ℚ) * 2 ^ (e - 2) < m * 2 ^ e := by
    rw [hunit]
    exact mul_lt_mul_of_pos_right (by linarith [(low_bounds hm e).2.1]) hp
  have hhigh : (m : ℚ) * 2 ^ e < (interval m e).high * 2 ^ (e - 2) := by
    rw [hunit, cast_high]
    exact mul_lt_mul_of_pos_right (by linarith) hp
  exact ⟨hlow.le, hhigh.le, fun _ => ⟨hlow, hhigh⟩⟩

/-- The number that is nearest to the ten-thousandth is a little above it. -/
theorem ofDecimal_tenThousandth : ofDecimal false 1 (-4) = .finite false 7378697629483821 (-66) (by decide) := by
  decide +kernel

theorem shortest_tenThousandth : shortest 7378697629483821 (-66) = (1, -4) := by decide +kernel

/-- The digits of a number start so far behind the point exactly below the ten-thousandth. -/
theorem point_le_iff (hc : Canonical m e) (hm : m ≠ 0) :
    (digitsOf (shortest m e).1).length + (shortest m e).2 ≤ -4 ↔ (m : ℚ) * 2 ^ e < 1 / 10000 := by
  obtain ⟨hcovers, hne, -⟩ := shortest_spec hc hm
  have hten : (1 / 10000 : ℚ) = 10 ^ (-4 : Int) := by norm_num
  have hself := covers_self hm e
  have hfirst := zpow_first_le hne (shortest m e).2
  have hlast := lt_zpow_first (shortest m e).1 (shortest m e).2
  have hplace : (digitsOf (shortest m e).1).length + (shortest m e).2 ≤ -4 ↔
      ((shortest m e).1 : ℚ) * 10 ^ (shortest m e).2 < 10 ^ (-4 : Int) := by
    refine ⟨fun h => hlast.trans_le (zpow_le_zpow_right₀ (by norm_num) ?_), fun h => ?_⟩
    · rw [add_comm]
      exact h
    · have hless := (zpow_lt_zpow_iff_right₀ (by norm_num)).mp (hfirst.trans_lt h)
      unfold Decimal.digitCount at hless
      omega
  rw [hplace, hten]
  by_cases hbetween : (interval m e).Covers (e - 2) ((1 : Nat) * 10 ^ (-4 : Int))
  · have hx := (ofDecimal_eq false hc hm (by decide) hbetween).symm.trans ofDecimal_tenThousandth
    injection hx with _ hm' he'
    subst hm' he'
    rw [shortest_tenThousandth]
    refine iff_of_false (by norm_num) ?_
    norm_num
  · rw [Nat.cast_one, one_mul] at hbetween
    exact ⟨fun h => lt_of_not_ge fun k => hbetween (hcovers.between hself h.le k),
      fun h => lt_of_not_ge fun k => hbetween (hself.between hcovers h.le k)⟩

/-- A number with a fraction is not written with an exponent for being large. -/
theorem point_le_sixteen (hc : Canonical m e) (hm : m ≠ 0) (he : e < 0) :
    (digitsOf (shortest m e).1).length + (shortest m e).2 ≤ 16 := by
  obtain ⟨hcovers, hne, -⟩ := shortest_spec hc hm
  have hfirst := zpow_first_le hne (shortest m e).2
  have hm53 : (m : ℚ) ≤ 2 ^ (53 : Int) := by
    have : m ≤ 2 ^ (53 : Nat) := by rcases hc with hc | hc <;> omega
    exact_mod_cast this
  have hbelow : (10 : ℚ) ^ ((shortest m e).2 + Decimal.digitCount (shortest m e).1 - 1) < 10 ^ (16 : Int) :=
    calc (10 : ℚ) ^ ((shortest m e).2 + Decimal.digitCount (shortest m e).1 - 1)
        ≤ (interval m e).high * 2 ^ (e - 2) := hfirst.trans hcovers.below
      _ ≤ (4 * 2 ^ (53 : Int) + 2) * 2 ^ (-3 : Int) := by
        rw [cast_high]
        exact mul_le_mul (by linarith) (two_zpow_le (by omega)) (two_zpow_pos _).le (by positivity)
      _ < 10 ^ (16 : Int) := by norm_num
  have hless := (zpow_lt_zpow_iff_right₀ (by norm_num)).mp hbelow
  unfold Decimal.digitCount at hless
  omega

theorem isInteger_iff {negative : Bool} (hc : Canonical m e) :
    (finite negative m e hc).isInteger = true ↔ m % 2 ^ (-e).toNat = 0 := beq_iff_eq

/-- A number without a fraction is the integer that it is cut to. -/
theorem cast_truncated (h : m % 2 ^ (-e).toNat = 0) :
    ((m * 2 ^ e.toNat / 2 ^ (-e).toNat : Nat) : ℚ) = m * 2 ^ e := by
  have hpos : ((2 ^ (-e).toNat : Nat) : ℚ) ≠ 0 := Nat.cast_ne_zero.mpr (Nat.two_pow_pos _).ne'
  have hpow := zpow_eq_div 2 e
  rw [Nat.cast_ofNat] at hpow
  rw [Nat.cast_div ((Nat.dvd_of_mod_eq_zero h).mul_right _) hpos, hpow, Nat.cast_mul, mul_div_assoc]

/-- The number nearest to an integer that is one is this one. -/
theorem ofDecimal_integer (hc : Canonical m e) (hm : m ≠ 0) {n : Nat} (hn : (n : ℚ) = m * 2 ^ e) :
    ofDecimal false n 0 = .finite false m e hc := by
  have hpos : 0 < n := by
    have hq : (0 : ℚ) < n := hn ▸ mul_pos (Nat.cast_pos.mpr (Nat.pos_of_ne_zero hm)) (two_zpow_pos e)
    exact_mod_cast hq
  have hbits : n.log2 < 1024 := by
    have hless : (n : ℚ) < 2 ^ (1024 : Int) := by
      have hm53 : (m : ℚ) < 2 ^ (53 : Int) := by
        have : m < 2 ^ (53 : Nat) := by rcases hc with hc | hc <;> omega
        exact_mod_cast this
      calc (n : ℚ) = m * 2 ^ e := hn
        _ < 2 ^ (53 : Int) * 2 ^ e := mul_lt_mul_of_pos_right hm53 (two_zpow_pos e)
        _ = 2 ^ (53 + e) := (two_zpow_add _ _).symm
        _ ≤ 2 ^ (1024 : Int) := two_zpow_le (by rcases hc with hc | hc <;> omega)
    exact (Nat.log2_lt hpos.ne').mpr (by exact_mod_cast hless)
  have hcovers : (interval m e).Covers (e - 2) (((n * 10 ^ (0 : Nat) : Nat) : ℚ) / (10 ^ (0 : Nat) : Nat)) := by
    rw [pow_zero, mul_one, Nat.cast_one, div_one, hn]
    exact covers_self hm e
  unfold ofDecimal
  rw [if_neg hpos.ne']
  dsimp only
  rw [if_neg (by omega), if_neg (by omega)]
  exact ofRatio_eq false hc hm (Nat.mul_pos hpos Nat.one_pos) Nat.one_pos hcovers

end Number.Binary64

/-! ### Lengths in positional notation -/

namespace Drawing

variable {cs : List Char} {p : Parts} {x : Binary64}

theorem plainDigits_numeral (h : ∀ c ∈ cs, isNumeral c = true) : plainDigits cs = cs := by
  refine (List.map_congr_left fun c hc => ?_).trans (List.map_id cs)
  by_cases hd : isAsciiDigit c = true
  · obtain ⟨hsome, hchar⟩ := digit?_of_isAsciiDigit hd
    rw [hsome]
    exact hchar
  · have hother : c = '-' ∨ c = '+' ∨ c = '.' ∨ c = 'e' := by simpa [isNumeral, hd] using h c hc
    rcases hother with rfl | rfl | rfl | rfl <;> rfl

theorem trim_numeral (h : ∀ c ∈ cs, isNumeral c = true) : trim cs = cs := by
  have hblank := (StandsFor.refl h).no_blank
  exact trim_of_unpadded ⟨fun c hc => hblank c (List.mem_of_head? hc), fun c hc => hblank c (List.mem_of_getLast? hc)⟩

/-- The digits of a number and its fraction are taken for a length, but no exponent. -/
theorem takeLength_parts (hw : ∀ c ∈ p.whole, isAsciiDigit c = true) (hf : ∀ c ∈ p.fraction, isAsciiDigit c = true)
    (hne : p.whole ≠ []) : takeLength p.chars =
      some (⟨false, natOfDigits (p.whole ++ p.fraction), -(p.fraction.length : Int)⟩, p.mark) := by
  obtain ⟨whole, fraction, exponent⟩ := p
  obtain ⟨mark, hmark⟩ : ∃ mark, Parts.mark ⟨whole, fraction, exponent⟩ = mark := ⟨_, rfl⟩
  have hfirst : ∀ c, mark.head? = some c → c = 'e' := by
    intro c hc
    rw [← hmark] at hc
    cases exponent with
    | none => cases hc
    | some n =>
      cases hc
      rfl
  have hend : ∀ c, mark.head? = some c → isAsciiDigit c = false := fun c hc => by rw [hfirst c hc]; decide
  have hchars : Parts.chars ⟨whole, fraction, exponent⟩ =
      whole ++ ((if fraction.isEmpty then [] else '.' :: fraction) ++ mark) := by
    rw [← hmark]
    rfl
  obtain ⟨d, ds, rfl⟩ := List.exists_cons_of_ne_nil hne
  have hminus : d ≠ '-' := ne_of_isAsciiDigit (hw d List.mem_cons_self) (by decide)
  rw [hmark, hchars]
  unfold takeLength
  rw [List.cons_append]
  split
  next negative cs hsign =>
  split at hsign
  · next h => exact absurd (List.cons.inj h).1 hminus
  cases hsign
  cases fraction with
  | nil =>
    have htake : takeDigits (d :: (ds ++ ((if ([] : List Char).isEmpty then [] else ['.']) ++ mark))) =
        (d :: ds, mark) := takeDigits_append hw hend
    rw [htake, List.append_nil]
    cases mark with
    | nil => rfl
    | cons c rest =>
      obtain rfl := hfirst c rfl
      rfl
  | cons f fs =>
    have htake : takeDigits (d :: (ds ++ ((if (f :: fs).isEmpty then [] else '.' :: f :: fs) ++ mark))) =
        (d :: ds, '.' :: (f :: fs ++ mark)) := takeDigits_append hw (by rintro c ⟨⟩; rfl)
    have hrest : takeDigits (f :: fs ++ mark) = (f :: fs, mark) := takeDigits_append hf hend
    rw [htake]
    simp only [hrest]

theorem length?_parts (hw : ∀ c ∈ p.whole, isAsciiDigit c = true) (hf : ∀ c ∈ p.fraction, isAsciiDigit c = true)
    (hne : p.whole ≠ []) : length? (String.ofList p.chars) =
      if p.exponent.isSome then none else some (p.numeral false).toBinary64 := by
  have hchars := Parts.isNumeral_chars hw hf
  unfold length?
  rw [String.toList_ofList, trim_numeral hchars, plainDigits_numeral hchars, takeLength_parts hw hf hne]
  change (if trim p.mark = [] ∨ trim p.mark = ['p', 'x'] then _ else _) = _
  rw [trim_numeral p.isNumeral_mark]
  unfold Parts.mark Parts.numeral
  cases p.exponent with
  | none =>
    rw [if_pos (.inl rfl), Option.getD_none, zero_sub]
    rfl
  | some n =>
    refine (if_neg ?_).trans (if_pos rfl).symm
    rintro (h | h) <;> cases h

/-- Of the texts that attributes show for numbers, exactly those of numbers below the ten-thousandth are no lengths. -/
theorem length?_plainText (hx : x.isPositive = true) :
    length? x.plainText = if 1 / 10000 ≤ x.value then some x else none := by
  obtain ⟨m, e, hc, rfl, hm⟩ := Binary64.isPositive_iff.mp hx
  have hvalue : (Binary64.finite false m e hc).value = m * 2 ^ e := by
    rw [Binary64.value, if_neg Bool.false_ne_true, one_mul]
  rw [hvalue]
  unfold Binary64.plainText
  by_cases hi : m % 2 ^ (-e).toNat = 0
  · obtain ⟨n, hn⟩ : ∃ n, m * 2 ^ e.toNat / 2 ^ (-e).toNat = n := ⟨_, rfl⟩
    have hcast : (n : ℚ) = m * 2 ^ e := hn ▸ Binary64.cast_truncated hi
    have hone : (1 : ℚ) ≤ n := by
      have hpos := Binary64.value_pos hx
      rw [hvalue, ← hcast] at hpos
      exact_mod_cast hpos
    have htruncate : (Binary64.finite false m e hc).truncate? = some (n : Int) := by rw [← hn]; rfl
    have htext : intText n = String.ofList (Parts.chars ⟨digitsOf n, [], none⟩) := by
      rw [intText, if_neg (Int.natCast_nonneg n).not_gt, Int.natAbs_natCast]
      exact congrArg String.ofList (List.append_nil _).symm
    have hlong : 1 / 10000 ≤ (m : ℚ) * 2 ^ e := by
      rw [← hcast]
      linarith
    rw [if_pos ((Binary64.isInteger_iff hc).mpr hi), htruncate, Option.getD_some, htext,
      length?_parts (digits_digitsOf n) (fun _ h => absurd h List.not_mem_nil) (digitsOf_ne_nil n), if_pos hlong]
    refine congrArg some ?_
    change Binary64.ofDecimal false (natOfDigits (digitsOf n ++ [])) 0 = _
    rw [List.append_nil, natOfDigits_digitsOf]
    exact Binary64.ofDecimal_integer hc hm hcast
  · have he : e < 0 := by
      by_contra h
      have hone : 2 ^ (-e).toNat = 1 := by rw [Int.toNat_of_nonpos (by omega), pow_zero]
      exact hi (by rw [hone, Nat.mod_one])
    obtain ⟨p, hp, hchars, hnumber, -, hexponent⟩ := exists_shortest hc hm
    have htext : (Binary64.finite false m e hc).text = String.ofList p.chars := by
      refine congrArg String.ofList ?_
      rw [if_neg Bool.false_ne_true, if_neg hm]
      exact hchars
    have hshort : p.exponent.isSome = true ↔ (m : ℚ) * 2 ^ e < 1 / 10000 := by
      rw [hexponent, Binary64.point_le_iff hc hm]
      exact or_iff_left (not_lt.mpr (Binary64.point_le_sixteen hc hm he))
    rw [if_neg (mt (Binary64.isInteger_iff hc).mp hi), htext, length?_parts hp.whole hp.fraction hp.nonempty, hnumber]
    by_cases hless : (m : ℚ) * 2 ^ e < 1 / 10000
    · rw [if_pos (hshort.mpr hless), if_neg (not_le.mpr hless)]
    · rw [if_neg (mt hshort.mp hless), if_pos (not_lt.mp hless)]

end Drawing

end LiveSvg
