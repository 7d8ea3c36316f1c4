import LiveSvg.Number.Decimal
import LiveSvg.Proofs.Floats
/-!
Decimal numbers in plain notation: a sign, the digits before the point and those after it, without an
exponent. The numbers are written in it with their value; a number has one such text of a given number of
decimals, and one without superfluous zeros.
-/

namespace LiveSvg.Number

open Text Json

variable {c : Char} {xs ys ds : List Char} {n : Nat}

/-! ### Digits by their number -/

theorem natOfDigits_append_one (ds : List Char) (c : Char) :
    natOfDigits (ds ++ [c]) = natOfDigits ds * 10 + (c.toNat - 48) := by
  simp [natOfDigits]

theorem toNat_of_isAsciiDigit (h : isAsciiDigit c = true) : 48 ≤ c.toNat ∧ c.toNat ≤ 57 := by
  simp only [isAsciiDigit, Bool.and_eq_true, decide_eq_true_eq] at h
  exact h

theorem eq_of_toNat_sub_eq {d : Char} (hc : isAsciiDigit c = true) (hd : isAsciiDigit d = true)
    (h : c.toNat - 48 = d.toNat - 48) : c = d := by
  have hc := toNat_of_isAsciiDigit hc
  have hd := toNat_of_isAsciiDigit hd
  exact Char.toNat_inj.mp (by omega)

/-- Digits that are as many and have the same number are the same. -/
theorem eq_of_natOfDigits_eq (hx : ∀ c ∈ xs, isAsciiDigit c = true) (hy : ∀ c ∈ ys, isAsciiDigit c = true)
    (hl : xs.length = ys.length) (h : natOfDigits xs = natOfDigits ys) : xs = ys := by
  induction xs using List.reverseRecOn generalizing ys with
  | nil => exact (List.length_eq_zero_iff.mp hl.symm).symm
  | append_singleton xs c ih =>
    cases ys using List.reverseRecOn with
    | nil => simp at hl
    | append_singleton ys d =>
      rw [List.forall_mem_append, List.forall_mem_singleton] at hx hy
      have hc := toNat_of_isAsciiDigit hx.2
      have hd := toNat_of_isAsciiDigit hy.2
      rw [natOfDigits_append_one, natOfDigits_append_one] at h
      have hrest : xs = ys := ih hx.1 hy.1 (by simpa using hl) (by omega)
      have hlast : c = d := eq_of_toNat_sub_eq hx.2 hy.2 (by omega)
      rw [hrest, hlast]

theorem natOfDigits_lt (h : ∀ c ∈ ds, isAsciiDigit c = true) : natOfDigits ds < 10 ^ ds.length := by
  induction ds using List.reverseRecOn with
  | nil => decide
  | append_singleton ds c ih =>
    rw [List.forall_mem_append, List.forall_mem_singleton] at h
    have hc := toNat_of_isAsciiDigit h.2
    have hrest := ih h.1
    rw [natOfDigits_append_one, List.length_append, List.length_singleton, Nat.pow_succ]
    omega

/-- Digits of the number zero are zeros. -/
theorem eq_zeros_of_natOfDigits (h : ∀ c ∈ ds, isAsciiDigit c = true) (hz : natOfDigits ds = 0) :
    ds = List.replicate ds.length '0' :=
  eq_of_natOfDigits_eq h Parts.isAsciiDigit_zeros (List.length_replicate).symm
    (hz.trans (natOfDigits_zeros _).symm)

/-- Whether digits do not begin with a superfluous zero. -/
def Leading (ds : List Char) : Prop := ds ≠ [] ∧ (ds.head? = some '0' → ds = ['0'])

/-- Digits without a superfluous zero in front are given by their number. -/
theorem Leading.eq (hx : Leading xs) (hy : Leading ys) (hdx : ∀ c ∈ xs, isAsciiDigit c = true)
    (hdy : ∀ c ∈ ys, isAsciiDigit c = true) (h : natOfDigits xs = natOfDigits ys) : xs = ys := by
  wlog hl : xs.length ≤ ys.length generalizing xs ys
  · exact (this hy hx hdy hdx h.symm (Nat.le_of_not_le hl)).symm
  obtain ⟨k, hk⟩ := Nat.exists_eq_add_of_le hl
  have hpadded : List.replicate k '0' ++ xs = ys := by
    refine eq_of_natOfDigits_eq ?_ hdy ?_ ((natOfDigits_zeros_append k xs).trans h)
    · exact List.forall_mem_append.mpr ⟨Parts.isAsciiDigit_zeros, hdx⟩
    · rw [List.length_append, List.length_replicate, hk, Nat.add_comm]
  cases k with
  | zero => exact hpadded
  | succ k =>
    have hsingle : ys = ['0'] := hy.2 (by rw [← hpadded]; rfl)
    have hpos : 0 < xs.length := List.length_pos_iff.mpr hx.1
    rw [hsingle, List.length_singleton] at hk
    omega

theorem digits_digitsOf (n : Nat) : ∀ c ∈ digitsOf n, isAsciiDigit c = true :=
  fun _ => isAsciiDigit_of_mem_digitsOf

theorem digitCount_pos (n : Nat) : 0 < Decimal.digitCount n := List.length_pos_iff.mpr (digitsOf_ne_nil n)

theorem lt_pow_digitCount (n : Nat) : n < 10 ^ Decimal.digitCount n := by
  have h := natOfDigits_lt (digits_digitsOf n)
  rwa [natOfDigits_digitsOf] at h

theorem digitCount_le {k : Nat} (hk : 0 < k) (h : n < 10 ^ k) : Decimal.digitCount n ≤ k := by
  unfold Decimal.digitCount digitsOf
  exact (Nat.length_toDigits_le_iff (by decide) hk).mpr h

theorem pow_le_of_digitCount (hn : n ≠ 0) : 10 ^ (Decimal.digitCount n - 1) ≤ n := by
  by_contra h
  have hpos := digitCount_pos n
  by_cases hone : Decimal.digitCount n = 1
  · rw [hone] at h
    omega
  · have := digitCount_le (by omega) (Nat.lt_of_not_le h)
    omega

/-! ### Plain notation -/

/-- The number that a numeral stands for. -/
def Numeral.value (n : Numeral) : ℚ := (if n.negative then -1 else 1) * (n.coefficient * 10 ^ n.exponent)

/-- A number in plain notation. -/
structure Plain where
  negative : Bool
  whole : List Char
  fraction : List Char

namespace Plain

variable {p q : Plain}

def digits (p : Plain) : List Char := p.whole ++ p.fraction

/-- The characters without the sign: the point stands before a fraction only. -/
def body (p : Plain) : List Char := p.whole ++ if p.fraction.isEmpty then [] else '.' :: p.fraction

def chars (p : Plain) : List Char := if p.negative then '-' :: p.body else p.body

def text (p : Plain) : String := String.ofList p.chars

def numeral (p : Plain) : Numeral := ⟨p.negative, natOfDigits p.digits, -p.fraction.length⟩

def value (p : Plain) : ℚ := p.numeral.value

/-- Whether the parts are digits, without a superfluous zero in front. -/
structure Valid (p : Plain) : Prop where
  leading : Leading p.whole
  digits : ∀ c ∈ p.digits, isAsciiDigit c = true

/-- Whether there is no zero at the end of a fraction either, and no sign before zero. -/
structure Tidy (p : Plain) : Prop extends p.Valid where
  last : p.fraction.getLast? ≠ some '0'
  unsigned : p.value = 0 → p.negative = false

theorem Valid.whole (h : p.Valid) : ∀ c ∈ p.whole, isAsciiDigit c = true :=
  fun c hc => h.digits c (List.mem_append_left _ hc)

theorem Valid.fraction (h : p.Valid) : ∀ c ∈ p.fraction, isAsciiDigit c = true :=
  fun c hc => h.digits c (List.mem_append_right _ hc)

/-- A number has one notation with a given number of decimals. -/
theorem Valid.eq (hp : p.Valid) (hq : q.Valid) (hs : p.negative = q.negative)
    (hl : p.fraction.length = q.fraction.length) (hd : natOfDigits p.digits = natOfDigits q.digits) : p = q := by
  obtain ⟨pn, pw, pf⟩ := p
  obtain ⟨qn, qw, qf⟩ := q
  have hpf := natOfDigits_lt hp.fraction
  have hqf := natOfDigits_lt hq.fraction
  simp only [Plain.digits, natOfDigits_append] at hs hl hd hpf hqf
  rw [hl] at hd hpf
  have hpos : 0 < 10 ^ qf.length := Nat.pow_pos (by decide)
  have quotient : ∀ {a b : Nat}, b < 10 ^ qf.length → (a * 10 ^ qf.length + b) / 10 ^ qf.length = a := by
    intro a b h
    rw [Nat.mul_comm, Nat.mul_add_div hpos, Nat.div_eq_of_lt h, Nat.add_zero]
  have hwhole : natOfDigits pw = natOfDigits qw := (quotient hpf).symm.trans (hd ▸ quotient hqf)
  have hfraction : natOfDigits pf = natOfDigits qf := by
    rw [hwhole] at hd
    exact Nat.add_left_cancel hd
  obtain rfl : pw = qw := hp.leading.eq hq.leading hp.whole hq.whole hwhole
  obtain rfl : pf = qf := eq_of_natOfDigits_eq hp.fraction hq.fraction hl hfraction
  rw [hs]

theorem value_eq (p : Plain) :
    p.value = (if p.negative then -1 else 1) * (natOfDigits p.digits * 10 ^ (-p.fraction.length : Int)) := rfl

theorem value_eq_zero_iff : p.value = 0 ↔ natOfDigits p.digits = 0 := by
  rw [value_eq]
  constructor
  · intro h
    have hsign : (if p.negative then -1 else 1 : ℚ) ≠ 0 := by split <;> norm_num
    have hten : (10 : ℚ) ^ (-p.fraction.length : Int) ≠ 0 := by positivity
    have hdigits := (mul_eq_zero.mp h).resolve_left hsign
    exact_mod_cast (mul_eq_zero.mp hdigits).resolve_right hten
  · intro h
    rw [h, Nat.cast_zero, zero_mul, mul_zero]

/-- The sign of a number other than zero is that of its notation. -/
theorem value_neg_iff (h : p.value ≠ 0) : p.value < 0 ↔ p.negative = true := by
  have hpos : (0 : ℚ) < natOfDigits p.digits * 10 ^ (-p.fraction.length : Int) := by
    have : 0 < natOfDigits p.digits := Nat.pos_of_ne_zero (mt value_eq_zero_iff.mpr h)
    positivity
  rw [value_eq]
  cases p.negative with
  | true => simpa using hpos
  | false => simp

/-- Digits that end otherwise than in a zero have a number that ten does not divide. -/
theorem not_dvd_of_last {ds : List Char} (hd : ∀ c ∈ ds, isAsciiDigit c = true) (hne : ds ≠ [])
    (hl : ds.getLast? ≠ some '0') : ¬ 10 ∣ natOfDigits ds := by
  induction ds using List.reverseRecOn with
  | nil => exact absurd rfl hne
  | append_singleton ds c _ =>
    have hc : isAsciiDigit c = true := hd c (by simp)
    have hbounds := toNat_of_isAsciiDigit hc
    have hzero : c.toNat - 48 ≠ 0 := by
      intro h
      apply hl
      rw [List.getLast?_append_of_ne_nil _ (List.cons_ne_nil _ _), eq_of_toNat_sub_eq hc (rfl : isAsciiDigit '0' = true) h]
      rfl
    rw [natOfDigits_append_one]
    omega

/-- A number has one notation without superfluous zeros. -/
theorem Tidy.eq (hp : p.Tidy) (hq : q.Tidy) (h : p.value = q.value) : p = q := by
  wlog hl : p.fraction.length ≤ q.fraction.length generalizing p q
  · exact (this hq hp h.symm (Nat.le_of_not_le hl)).symm
  have hs : p.negative = q.negative := by
    by_cases hz : p.value = 0
    · rw [hp.unsigned hz, hq.unsigned (h ▸ hz)]
    · rw [Bool.eq_iff_iff, ← value_neg_iff hz, ← value_neg_iff (h ▸ hz), h]
  obtain ⟨k, hk⟩ := Nat.exists_eq_add_of_le hl
  have hscaled : natOfDigits q.digits = natOfDigits p.digits * 10 ^ k := by
    rw [value_eq, value_eq, hs] at h
    have hsign : (if q.negative then -1 else 1 : ℚ) ≠ 0 := by split <;> norm_num
    have hvalues := mul_left_cancel₀ hsign h
    have hten : (10 : ℚ) ^ (-(p.fraction.length : Int)) = 10 ^ (-(q.fraction.length : Int)) * 10 ^ k := by
      rw [← zpow_natCast, ← zpow_add₀ (by norm_num), hk]
      congr 1
      push_cast
      ring
    rw [hten, mul_comm ((10 : ℚ) ^ _) (10 ^ k), ← mul_assoc] at hvalues
    exact_mod_cast (mul_right_cancel₀ (zpow_ne_zero _ (by norm_num)) hvalues).symm
  cases k with
  | zero => exact hp.toValid.eq hq.toValid hs hk.symm (by rw [hscaled, Nat.pow_zero, Nat.mul_one])
  | succ k =>
    have hne : q.fraction ≠ [] := List.length_pos_iff.mp (by omega)
    have hdvd : 10 ∣ natOfDigits q.digits := by
      rw [hscaled, Nat.pow_succ, ← Nat.mul_assoc]
      exact Nat.dvd_mul_left _ _
    refine absurd hdvd (not_dvd_of_last hq.digits (List.append_ne_nil_of_right_ne_nil _ hne) ?_)
    rw [digits, List.getLast?_append_of_ne_nil _ hne]
    exact hq.last

theorem Tidy.eq_zero (h : p.Tidy) (hz : p.value = 0) : p = ⟨false, ['0'], []⟩ := by
  have hzero : Tidy ⟨false, ['0'], []⟩ :=
    ⟨⟨⟨by decide, by decide⟩, List.all_eq_true.mp rfl⟩, by decide, fun _ => rfl⟩
  exact h.eq hzero (hz.trans (value_eq_zero_iff.mpr rfl).symm)

end Plain

/-! ### Numbers written -/

namespace Decimal

open Plain

variable {negative : Bool} {c : Nat} {e : Int}

/-- A number is written in plain notation, with a decimal for each unit of a negative exponent. -/
theorem exists_plain (negative : Bool) (c : Nat) (e : Int) : ∃ p : Plain, p.Valid ∧
    (finite negative c e).plain = p.chars ∧ p.negative = negative ∧ p.fraction.length = (-e).toNat ∧
    natOfDigits p.digits = c * 10 ^ e.toNat := by
  have hdc := digits_digitsOf c
  have hall : ∀ p : Plain, p.negative = negative → plainChars c e = p.body →
      (finite negative c e).plain = p.chars := by
    intro p hn hb
    rw [plain, Plain.chars, hn, hb]
  by_cases he : 0 ≤ e
  · have hnone : (-e).toNat = 0 := by omega
    by_cases hc : c = 0
    · subst hc
      refine ⟨⟨negative, ['0'], []⟩, ⟨⟨List.cons_ne_nil _ _, fun _ => rfl⟩, List.forall_mem_singleton.mpr rfl⟩,
        hall _ rfl ?_, rfl, hnone.symm, ?_⟩
      · rw [plainChars, if_pos ⟨rfl, he⟩]
        rfl
      · rw [Nat.zero_mul]
        rfl
    · refine ⟨⟨negative, digitsOf c ++ List.replicate e.toNat '0', []⟩, ⟨⟨?_, ?_⟩, ?_⟩, hall _ rfl ?_, rfl, hnone.symm, ?_⟩
      · exact List.append_ne_nil_of_left_ne_nil (digitsOf_ne_nil c) _
      · intro h
        rw [List.head?_append_of_ne_nil _ (digitsOf_ne_nil c)] at h
        have hz := natOfDigits_digitsOf c
        rw [digitsOf_head h] at hz
        exact absurd hz.symm hc
      · simp only [digits, List.append_nil]
        exact List.forall_mem_append.mpr ⟨hdc, Parts.isAsciiDigit_zeros⟩
      · rw [plainChars, if_neg (fun h => hc h.1), if_pos he]
        exact (List.append_nil _).symm
      · rw [digits, List.append_nil, natOfDigits_append_zeros, natOfDigits_digitsOf]
  · have hone : e.toNat = 0 := by omega
    have hplaces : 0 < (-e).toNat := by omega
    rw [hone, Nat.pow_zero, Nat.mul_one]
    by_cases hl : (digitsOf c).length ≤ (-e).toNat
    · refine ⟨⟨negative, ['0'], List.replicate ((-e).toNat - (digitsOf c).length) '0' ++ digitsOf c⟩,
        ⟨⟨List.cons_ne_nil _ _, fun _ => rfl⟩, ?_⟩, hall _ rfl ?_, rfl, ?_, ?_⟩
      · exact List.forall_mem_append.mpr ⟨List.forall_mem_singleton.mpr rfl,
          List.forall_mem_append.mpr ⟨Parts.isAsciiDigit_zeros, hdc⟩⟩
      · simp only [plainChars, he, and_false, if_false, if_pos hl, body]
        rw [if_neg (by simp [digitsOf_ne_nil])]
        rfl
      · rw [List.length_append, List.length_replicate]
        omega
      · exact (natOfDigits_zeros_append 1 _).trans ((natOfDigits_zeros_append _ _).trans (natOfDigits_digitsOf c))
    · have hwhole : (digitsOf c).take ((digitsOf c).length - (-e).toNat) ≠ [] := by
        rw [← List.length_pos_iff, List.length_take]
        omega
      have hfraction : ((digitsOf c).drop ((digitsOf c).length - (-e).toNat)).length = (-e).toNat := by
        rw [List.length_drop]
        omega
      refine ⟨⟨negative, (digitsOf c).take ((digitsOf c).length - (-e).toNat),
        (digitsOf c).drop ((digitsOf c).length - (-e).toNat)⟩, ⟨⟨hwhole, ?_⟩, ?_⟩, hall _ rfl ?_, rfl, hfraction, ?_⟩
      · intro h
        rw [List.head?_take, if_neg (by omega)] at h
        have := congrArg List.length (digitsOf_head h)
        rw [List.length_singleton] at this
        omega
      · rw [digits, List.take_append_drop]
        exact hdc
      · simp only [plainChars, he, and_false, if_false, if_neg hl, body]
        rw [if_neg]
        intro h
        rw [List.isEmpty_iff.mp h, List.length_nil] at hfraction
        omega
      · rw [digits, List.take_append_drop, natOfDigits_digitsOf]

end Decimal

namespace Plain

variable {p : Plain}

/-- The notation without the zeros at the end of the fraction. -/
def shortened (p : Plain) : Plain := ⟨p.negative, p.whole, Binary64.dropZerosRight p.fraction⟩

/-- The notation without a sign before zero. -/
def unsigned (p : Plain) : Plain := if p.whole = ['0'] ∧ p.fraction = [] then ⟨false, ['0'], []⟩ else p

def tidied (p : Plain) : Plain := p.shortened.unsigned

/-- Zeros are dropped up to the point at most. -/
theorem dropZerosRight_point (xs ds : List Char) :
    Binary64.dropZerosRight (xs ++ '.' :: ds) = xs ++ '.' :: Binary64.dropZerosRight ds := by
  unfold Binary64.dropZerosRight
  rw [List.reverse_append, List.reverse_cons, List.append_assoc, List.dropWhile_append]
  split
  case isTrue h =>
    rw [List.isEmpty_iff.mp h]
    simp
  case isFalse h => simp

theorem getLast?_dropZerosRight (ds : List Char) : (Binary64.dropZerosRight ds).getLast? ≠ some '0' := by
  unfold Binary64.dropZerosRight
  rw [List.getLast?_reverse]
  intro h
  have := List.head?_dropWhile_not (· == '0') ds.reverse
  rw [h] at this
  exact absurd this (by decide)

/-- The sign and the digits before the point have no point. -/
theorem Valid.point_notMem (h : p.Valid) : '.' ∉ p.whole := fun hm => absurd (h.whole _ hm) (by decide)

theorem Valid.shortened (h : p.Valid) : p.shortened.Valid := by
  refine ⟨h.leading, fun c hc => h.digits c ?_⟩
  rcases List.mem_append.mp hc with hc | hc
  · exact List.mem_append_left _ hc
  · refine List.mem_append_right _ ?_
    rw [← Binary64.dropZerosRight_append p.fraction]
    exact List.mem_append_left _ hc

theorem value_shortened (p : Plain) : p.shortened.value = p.value := by
  have hsplit := Binary64.dropZerosRight_append p.fraction
  obtain ⟨k, hk⟩ : ∃ k, p.fraction.length - (Binary64.dropZerosRight p.fraction).length = k := ⟨_, rfl⟩
  rw [hk] at hsplit
  have hl : p.fraction.length = (Binary64.dropZerosRight p.fraction).length + k := by
    rw [← hsplit, List.length_append, List.length_replicate, hsplit]
  have hd : natOfDigits p.digits = natOfDigits p.shortened.digits * 10 ^ k := by
    rw [← natOfDigits_append_zeros]
    exact congrArg natOfDigits (by rw [digits, ← hsplit]; exact (List.append_assoc _ _ _).symm)
  rw [value_eq, value_eq, hd, hl]
  congr 1
  rw [Nat.cast_mul, mul_assoc, Nat.cast_pow, Nat.cast_ofNat, ← zpow_natCast, ← zpow_add₀ (by norm_num)]
  congr 2
  change -((Binary64.dropZerosRight p.fraction).length : Int) = _
  push_cast
  ring

theorem length_fraction_tidied (p : Plain) : p.tidied.fraction.length ≤ p.fraction.length := by
  have hl : p.shortened.fraction.length ≤ p.fraction.length := by
    have hsplit := congrArg List.length (Binary64.dropZerosRight_append p.fraction)
    rw [List.length_append] at hsplit
    change (Binary64.dropZerosRight p.fraction).length ≤ _
    omega
  unfold tidied unsigned
  split
  · exact Nat.zero_le _
  · exact hl

/-- Dropping superfluous zeros, and the sign before zero, keeps the number. -/
theorem Valid.tidied (h : p.Valid) : p.tidied.Tidy ∧ p.tidied.value = p.value := by
  have hshort := h.shortened
  have hvalue := p.value_shortened
  have hlast : p.shortened.fraction.getLast? ≠ some '0' := getLast?_dropZerosRight p.fraction
  unfold Plain.tidied
  generalize p.shortened = q at *
  unfold unsigned
  split
  case isTrue hz =>
    have hzero : q.value = 0 := value_eq_zero_iff.mpr (by rw [Plain.digits, hz.1, hz.2]; rfl)
    refine ⟨⟨⟨⟨List.cons_ne_nil _ _, fun _ => rfl⟩, List.forall_mem_singleton.mpr rfl⟩, by decide, fun _ => rfl⟩, ?_⟩
    rw [← hvalue, hzero]
    exact value_eq_zero_iff.mpr rfl
  case isFalse hz =>
    refine ⟨⟨hshort, hlast, fun h0 => absurd ?_ hz⟩, hvalue⟩
    have hzeros := eq_zeros_of_natOfDigits hshort.digits (value_eq_zero_iff.mp h0)
    have hall : ∀ c ∈ q.digits, c = '0' := fun c hc => List.eq_of_mem_replicate (hzeros ▸ hc)
    constructor
    · obtain ⟨d, rest, hw⟩ := List.exists_cons_of_ne_nil hshort.leading.1
      apply hshort.leading.2
      rw [hw, List.head?_cons, hall d (List.mem_append_left _ (hw ▸ List.mem_cons_self))]
    · by_contra hne
      apply hlast
      rw [List.getLast?_eq_some_getLast hne]
      exact congrArg some (hall _ (List.mem_append_right _ (List.getLast_mem hne)))

theorem contains_point (h : p.Valid) : p.chars.contains '.' = !p.fraction.isEmpty := by
  have hw := h.point_notMem
  rw [Bool.eq_iff_iff, List.contains_iff_mem, chars, body]
  cases hf : p.fraction with
  | nil => cases p.negative <;> simp [hw]
  | cons d rest => cases p.negative <;> simp

/-- Nothing but a minus sign and a zero is shown without the sign. -/
theorem Valid.chars_unsigned (h : p.Valid) :
    (if p.chars = ['-', '0'] ∨ p.chars = [] then ['0'] else p.chars) = p.unsigned.chars := by
  obtain ⟨d, rest, hw⟩ := List.exists_cons_of_ne_nil h.leading.1
  have hd : d ≠ '-' := ne_of_isAsciiDigit (h.whole d (hw ▸ List.mem_cons_self)) rfl
  have hbody : p.body = ['0'] ↔ p.whole = ['0'] ∧ p.fraction = [] := by
    rw [body]
    cases hf : p.fraction with
    | nil => simp
    | cons c more => simp [hw]
  have hne : p.body ≠ [] := List.append_ne_nil_of_left_ne_nil h.leading.1 _
  have hfirst : ∀ cs, p.body ≠ '-' :: cs := by
    intro cs k
    rw [body, hw] at k
    exact hd (List.cons.inj k).1
  unfold unsigned
  by_cases hz : p.whole = ['0'] ∧ p.fraction = []
  · have hzero := hbody.mpr hz
    rw [if_pos hz, Plain.chars, hzero]
    cases p.negative <;> rfl
  · have hother := mt hbody.mp hz
    rw [if_neg hz, if_neg]
    rw [Plain.chars]
    cases p.negative with
    | true => simp [hother]
    | false => simp [hne, hfirst]

/-- A number is stripped by making its notation tidy. -/
theorem Valid.stripped {d : Decimal} (h : p.Valid) (hd : d.plain = p.chars) :
    d.stripped = p.tidied.chars := by
  obtain ⟨pre, hpre⟩ : ∃ pre, pre = (if p.negative then '-' :: p.whole else p.whole) := ⟨_, rfl⟩
  have hchars : ∀ ds, (⟨p.negative, p.whole, ds⟩ : Plain).chars = pre ++ if ds.isEmpty then [] else '.' :: ds := by
    intro ds
    rw [hpre, Plain.chars, body]
    cases p.negative <;> rfl
  have hself : p.chars = pre ++ if p.fraction.isEmpty then [] else '.' :: p.fraction := hchars p.fraction
  rw [Plain.tidied, ← h.shortened.chars_unsigned, Decimal.stripped, hd, contains_point h]
  have hshort : p.shortened.chars = _ := hchars (Binary64.dropZerosRight p.fraction)
  rw [hshort, hself]
  dsimp only
  cases hf : p.fraction.isEmpty with
  | true =>
    rw [List.isEmpty_iff.mp hf]
    rfl
  | false =>
    have hdigits := h.shortened.fraction
    simp only [Bool.not_false, Bool.false_eq_true, if_true, if_false, dropZerosRight_point]
    change ∀ c ∈ Binary64.dropZerosRight p.fraction, _ at hdigits
    generalize Binary64.dropZerosRight p.fraction = ds at *
    cases ds using List.reverseRecOn with
    | nil => simp
    | append_singleton ds d =>
      have hpoint : d ≠ '.' := ne_of_isAsciiDigit (hdigits d (by simp)) rfl
      have hreverse : (pre ++ '.' :: (ds ++ [d])).reverse = d :: (pre ++ '.' :: ds).reverse := by simp
      rw [hreverse]
      split
      case h_1 k => exact absurd (List.cons.inj k).1 hpoint
      case h_2 => simp

end Plain

namespace Decimal

/-- The notation of a number has its value. -/
theorem value_of_plain {p : Plain} {negative : Bool} {c : Nat} {e : Int} (hn : p.negative = negative)
    (hl : p.fraction.length = (-e).toNat) (hd : natOfDigits p.digits = c * 10 ^ e.toNat) :
    p.value = (Numeral.mk negative c e).value := by
  rw [Plain.value_eq, Numeral.value, hn, hl, hd, Nat.cast_mul, mul_assoc, Nat.cast_pow, Nat.cast_ofNat,
    ← zpow_natCast, ← zpow_add₀ (by norm_num)]
  have hexponent : (e.toNat : Int) + -((-e).toNat : Int) = e := by omega
  rw [hexponent]

end Decimal

end LiveSvg.Number
