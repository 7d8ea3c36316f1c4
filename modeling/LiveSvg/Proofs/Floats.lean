import LiveSvg.Proofs.Numerals
import LiveSvg.Proofs.Shortest
import Mathlib.Data.List.TakeWhile
/-!
Floating-point numbers in JSON text: what is written for one, by its digits before and after the point and
its exponent, and that it is read back as the same number.
-/

namespace LiveSvg.Number

variable {ds : List Char} {n : Nat}

/-! ### Digits -/

theorem natOfDigits_append (xs ys : List Char) :
    natOfDigits (xs ++ ys) = natOfDigits xs * 10 ^ ys.length + natOfDigits ys := by
  induction ys using List.reverseRecOn with
  | nil => simp [natOfDigits]
  | append_singleton ys c ih =>
    have hsnoc : ∀ cs : List Char, natOfDigits (cs ++ [c]) = natOfDigits cs * 10 + (c.toNat - 48) := fun cs => by
      simp [natOfDigits]
    rw [← List.append_assoc, hsnoc, hsnoc, ih, List.length_append, List.length_singleton, Nat.pow_succ]
    ring

theorem natOfDigits_zeros (n : Nat) : natOfDigits (List.replicate n '0') = 0 := by
  induction n with
  | zero => rfl
  | succ n ih => rw [List.replicate_succ', natOfDigits_append, ih]; rfl

theorem natOfDigits_zeros_append (n : Nat) (ds : List Char) :
    natOfDigits (List.replicate n '0' ++ ds) = natOfDigits ds := by
  rw [natOfDigits_append, natOfDigits_zeros, Nat.zero_mul, Nat.zero_add]

theorem natOfDigits_append_zeros (ds : List Char) (n : Nat) :
    natOfDigits (ds ++ List.replicate n '0') = natOfDigits ds * 10 ^ n := by
  rw [natOfDigits_append, natOfDigits_zeros, Nat.add_zero, List.length_replicate]

namespace Binary64

/-- What is left of digits once the zeros at their end are gone. -/
theorem dropZerosRight_append (ds : List Char) : dropZerosRight ds ++
    List.replicate (ds.length - (dropZerosRight ds).length) '0' = ds := by
  obtain ⟨zeros, hz⟩ : ∃ zeros, ds.reverse.takeWhile (· == '0') = zeros := ⟨_, rfl⟩
  have hsplit : dropZerosRight ds ++ zeros.reverse = ds := by
    rw [dropZerosRight, ← List.reverse_append, ← hz, List.takeWhile_append_dropWhile, List.reverse_reverse]
  have hzeros : zeros.reverse = List.replicate zeros.length '0' := by
    refine List.eq_replicate_iff.mpr ⟨List.length_reverse, fun c hc => ?_⟩
    rw [List.mem_reverse, ← hz] at hc
    exact beq_iff_eq.mp (List.mem_takeWhile_imp (p := (· == '0')) hc)
  have hlength : ds.length - (dropZerosRight ds).length = zeros.length := by
    have := congrArg List.length hsplit
    rw [List.length_append, List.length_reverse] at this
    omega
  rw [hlength, ← hzeros, hsplit]

end Binary64

end LiveSvg.Number

namespace LiveSvg.Json

open Number Text

/-! ### The parts of a number -/

/-- The parts of a number: the digits before the point, those after it, and an exponent. -/
structure Parts where
  whole : List Char
  fraction : List Char
  exponent : Option Int

namespace Parts

def chars (p : Parts) : List Char :=
  p.whole ++ ((if p.fraction.isEmpty then [] else '.' :: p.fraction) ++
    (p.exponent.map fun n => 'e' :: Binary64.exponentText n).getD [])

/-- Whether these are the parts of a number that is read as a floating-point number. -/
structure Valid (p : Parts) : Prop where
  whole : ∀ c ∈ p.whole, isAsciiDigit c = true
  fraction : ∀ c ∈ p.fraction, isAsciiDigit c = true
  nonempty : p.whole ≠ []
  zero : p.whole.head? = some '0' → p.whole = ['0']
  float : p.fraction.isEmpty = true → p.exponent.isNone = false

/-- The number with these parts. -/
def numeral (p : Parts) (negative : Bool) : Numeral :=
  ⟨negative, natOfDigits (p.whole ++ p.fraction), p.exponent.getD 0 - p.fraction.length⟩

/-- Whether the number has few digits and a small exponent. -/
structure IsSmall (p : Parts) : Prop where
  digits : natOfDigits (p.whole ++ p.fraction) < 2 ^ 200
  exponent : (p.exponent.getD 0 - p.fraction.length).natAbs ≤ 1000

variable {p : Parts} {rest : List Char}

theorem isAsciiDigit_exponentText {n : Int} : ∀ c ∈ (Binary64.exponentText n).tail, isAsciiDigit c = true := by
  have hd : ∀ c ∈ digitsOf n.natAbs, isAsciiDigit c = true := fun c => isAsciiDigit_of_mem_digitsOf
  unfold Binary64.exponentText
  dsimp only
  rw [List.tail_cons]
  split
  · exact List.forall_mem_cons.mpr ⟨rfl, hd⟩
  · exact hd

theorem exponentText_eq (n : Int) :
    Binary64.exponentText n = (if n < 0 then '-' else '+') :: (Binary64.exponentText n).tail := rfl

theorem natOfDigits_exponentText (n : Int) : natOfDigits (Binary64.exponentText n).tail = n.natAbs := by
  unfold Binary64.exponentText
  dsimp only
  rw [List.tail_cons]
  split
  · exact (natOfDigits_zeros_append 1 _).trans (natOfDigits_digitsOf _)
  · exact natOfDigits_digitsOf _

theorem tail_exponentText_ne_nil (n : Int) : (Binary64.exponentText n).tail ≠ [] := by
  unfold Binary64.exponentText
  dsimp only
  rw [List.tail_cons]
  split
  · exact List.cons_ne_nil _ _
  · exact digitsOf_ne_nil _

theorem takeExponent_exponentText (n : Int) (hr : ∀ c, rest.head? = some c → isAsciiDigit c = false) :
    takeExponent ('e' :: (Binary64.exponentText n ++ rest)) = (some n, rest) := by
  have hd := isAsciiDigit_exponentText (n := n)
  have hvalue := natOfDigits_exponentText n
  have hne := tail_exponentText_ne_nil n
  have hcons := exponentText_eq n
  rw [hcons, List.cons_append]
  generalize (Binary64.exponentText n).tail = ds at *
  obtain ⟨d, ds, rfl⟩ := List.exists_cons_of_ne_nil hne
  by_cases hn : n < 0
  · rw [if_pos hn, takeExponent, if_pos (Or.inl rfl), takeSign]
    dsimp only
    rw [takeDigits_append hd hr]
    dsimp only
    rw [hvalue, if_pos rfl, Int.ofNat_natAbs_of_nonpos hn.le, neg_neg]
  · rw [if_neg hn, takeExponent, if_pos (Or.inl rfl), takeSign]
    dsimp only
    rw [takeDigits_append hd hr]
    dsimp only
    rw [hvalue, if_neg Bool.false_ne_true, Int.natAbs_of_nonneg (not_lt.mp hn)]

theorem takeFraction_append {ds after : List Char} (hd : ∀ c ∈ ds, isAsciiDigit c = true)
    (hr : ∀ c, after.head? = some c → isAsciiDigit c = false ∧ c ≠ '.') :
    takeFraction ((if ds.isEmpty then [] else '.' :: ds) ++ after) = (ds, after) := by
  cases ds with
  | nil =>
    rw [List.isEmpty_nil, if_pos rfl, List.nil_append]
    unfold takeFraction
    split
    · exact absurd rfl (hr '.' rfl).2
    · rfl
  | cons d ds =>
    rw [List.isEmpty_cons, if_neg Bool.false_ne_true, List.cons_append, takeFraction,
      takeDigits_append hd fun c hc => (hr c hc).1]

/-- A number is read by its parts. -/
theorem Valid.readNumber (h : p.Valid) (negative : Bool) (hr : Ends rest) :
    readNumber ((if negative then '-' :: p.chars else p.chars) ++ rest) =
      .ok (.float (p.numeral negative).toBinary64, rest) := by
  obtain ⟨after, hafter⟩ : ∃ after, (p.exponent.map fun n => 'e' :: Binary64.exponentText n).getD [] ++ rest =
      after := ⟨_, rfl⟩
  have hexponent : takeExponent after = (p.exponent, rest) ∧
      ∀ c, after.head? = some c → isAsciiDigit c = false ∧ c ≠ '.' := by
    subst hafter
    cases p.exponent with
    | none =>
      refine ⟨hr.takeExponent, fun c hc => ?_⟩
      rcases hr c hc with rfl | rfl <;> decide
    | some n =>
      refine ⟨takeExponent_exponentText n hr.not_digit, fun c hc => ?_⟩
      cases hc
      decide
  have hchars : (if negative then '-' :: p.chars else p.chars) ++ rest = (if negative then '-' :: p.whole else p.whole) ++
      ((if p.fraction.isEmpty then [] else '.' :: p.fraction) ++ after) := by
    subst hafter
    unfold chars
    cases negative <;> simp only [if_true, Bool.false_eq_true, if_false, List.append_assoc, List.cons_append]
  have hhead : ∀ c, ((if p.fraction.isEmpty then [] else '.' :: p.fraction) ++ after).head? = some c →
      isAsciiDigit c = false := by
    intro c hc
    split at hc
    · exact (hexponent.2 c hc).1
    · cases hc
      rfl
  rw [hchars, readNumber_digits negative h.whole h.nonempty h.zero hhead
    (takeFraction_append h.fraction hexponent.2) hexponent.1, if_neg]
  · rfl
  · rw [Bool.and_eq_true]
    exact fun k => Bool.false_ne_true ((h.float k.1).symm.trans k.2)

theorem Valid.startsNumber (h : p.Valid) (negative : Bool) :
    StartsNumber (if negative then '-' :: p.chars else p.chars) := by
  obtain ⟨d, ds, hd⟩ := List.exists_cons_of_ne_nil h.nonempty
  have hdigit : isAsciiDigit d = true := h.whole d (hd ▸ List.mem_cons_self)
  unfold chars
  rw [hd]
  cases negative with
  | true => exact ⟨d, _, hdigit, .inr rfl⟩
  | false => exact ⟨d, _, hdigit, .inl rfl⟩

/-- What follows the digits of a number. -/
def mark (p : Parts) : List Char := (p.exponent.map fun n => 'e' :: Binary64.exponentText n).getD []

theorem isNumeral_digits {cs : List Char} (h : ∀ c ∈ cs, isAsciiDigit c = true) : ∀ c ∈ cs, isNumeral c = true :=
  fun c hc => isNumeral_of_isAsciiDigit (h c hc)

theorem isNumeral_mark (p : Parts) : ∀ c ∈ p.mark, isNumeral c = true := by
  unfold mark
  cases p.exponent with
  | none => exact fun _ k => absurd k List.not_mem_nil
  | some n =>
    have hdigits := isNumeral_digits (isAsciiDigit_exponentText (n := n))
    refine List.forall_mem_cons.mpr ⟨by decide, List.forall_mem_cons.mpr ⟨?_, hdigits⟩⟩
    split <;> decide

theorem isNumeral_chars (hw : ∀ c ∈ p.whole, isAsciiDigit c = true) (hf : ∀ c ∈ p.fraction, isAsciiDigit c = true) :
    ∀ c ∈ p.chars, isNumeral c = true := by
  have hfraction : ∀ c ∈ (if p.fraction.isEmpty then [] else '.' :: p.fraction), isNumeral c = true := by
    split
    · exact fun _ k => absurd k List.not_mem_nil
    · exact List.forall_mem_cons.mpr ⟨by decide, isNumeral_digits hf⟩
  intro c hc
  rcases List.mem_append.mp hc with hc | hc
  · exact isNumeral_digits hw c hc
  · exact (List.mem_append.mp hc).elim (hfraction c) (p.isNumeral_mark c)

theorem Valid.isNumeral (h : p.Valid) (negative : Bool) :
    ∀ c ∈ (if negative then '-' :: p.chars else p.chars), isNumeral c = true := by
  have hchars := isNumeral_chars h.whole h.fraction
  cases negative with
  | true => exact List.forall_mem_cons.mpr ⟨by decide, hchars⟩
  | false => exact hchars

/-- Whether parts are written as some characters, and are digits with a point after some place. -/
structure Spells (p : Parts) (ds : List Char) (point : Int) (cs : List Char) : Prop where
  valid : p.Valid
  chars : cs = p.chars
  value : (natOfDigits (p.whole ++ p.fraction) : ℚ) * 10 ^ (p.exponent.getD 0 - p.fraction.length) =
    natOfDigits ds * 10 ^ (point - ds.length)
  bound : natOfDigits (p.whole ++ p.fraction) ≤ natOfDigits ds * 10 ^ 17

section layout

variable {ds : List Char} {point : Int}

theorem isAsciiDigit_zeros {n : Nat} : ∀ c ∈ List.replicate n '0', isAsciiDigit c = true := fun c hc => by
  rw [List.eq_of_mem_replicate hc]
  rfl

theorem le_bound (n : Nat) : n ≤ n * 10 ^ 17 := Nat.le_mul_of_pos_right _ (by decide)

/-- Digits after the first one are a fraction, and the place is an exponent. -/
theorem spells_exponent {d : Char} {rest : List Char} (hd : ∀ c ∈ d :: rest, isAsciiDigit c = true) (point : Int) :
    Spells ⟨[d], rest, some (point - 1)⟩ (d :: rest) point
      (d :: (if rest.isEmpty then [] else '.' :: rest) ++ 'e' :: Binary64.exponentText (point - 1)) := by
  refine ⟨⟨?_, ?_, List.cons_ne_nil _ _, ?_, fun _ => rfl⟩, rfl, ?_, le_bound _⟩
  · exact List.forall_mem_singleton.mpr (hd d List.mem_cons_self)
  · exact fun c hc => hd c (List.mem_cons_of_mem _ hc)
  · exact fun k => congrArg ([·]) (Option.some.inj k)
  · congr 2
    simp only [Option.getD_some, List.length_cons]
    omega

/-- All digits are a fraction, after as many zeros as the place says. -/
theorem spells_small (hd : ∀ c ∈ ds, isAsciiDigit c = true) (hne : ds ≠ []) (hp : point ≤ 0) :
    Spells ⟨['0'], List.replicate (-point).toNat '0' ++ ds, none⟩ ds point
      ('0' :: '.' :: List.replicate (-point).toNat '0' ++ ds) := by
  have hvalue : natOfDigits (['0'] ++ (List.replicate (-point).toNat '0' ++ ds)) = natOfDigits ds :=
    (natOfDigits_zeros_append 1 _).trans (natOfDigits_zeros_append _ _)
  have hfraction : (List.replicate (-point).toNat '0' ++ ds).isEmpty = false := by simp [hne]
  refine ⟨⟨?_, ?_, List.cons_ne_nil _ _, fun _ => rfl, ?_⟩, ?_, ?_, ?_⟩
  · exact List.forall_mem_singleton.mpr rfl
  · exact fun c hc => (List.mem_append.mp hc).elim (isAsciiDigit_zeros c) (hd c)
  · exact fun k => absurd (hfraction.symm.trans k) Bool.false_ne_true
  · rw [chars, hfraction, if_neg Bool.false_ne_true]
    exact congrArg ('0' :: '.' :: ·) (List.append_nil _).symm
  · rw [hvalue]
    congr 2
    simp only [Option.getD_none, List.length_append, List.length_replicate]
    omega
  · exact hvalue ▸ le_bound _

/-- All digits stand before the point, with as many zeros as the place says. -/
theorem spells_whole (hd : ∀ c ∈ ds, isAsciiDigit c = true) (hne : ds ≠ []) (hz : ds.head? ≠ some '0')
    (hl : (ds.length : Int) ≤ point) (hp : point ≤ 16) :
    Spells ⟨ds ++ List.replicate (point.toNat - ds.length) '0', ['0'], none⟩ ds point
      (ds ++ List.replicate (point.toNat - ds.length) '0' ++ ['.', '0']) := by
  have hvalue : natOfDigits (ds ++ List.replicate (point.toNat - ds.length) '0' ++ ['0']) =
      natOfDigits ds * 10 ^ (point.toNat - ds.length + 1) := by
    rw [List.append_assoc, show ['0'] = List.replicate 1 '0' from rfl, List.replicate_append_replicate,
      natOfDigits_append_zeros]
  refine ⟨⟨?_, ?_, ?_, ?_, fun k => by cases k⟩, ?_, ?_, ?_⟩
  · exact fun c hc => (List.mem_append.mp hc).elim (hd c) (isAsciiDigit_zeros c)
  · exact List.forall_mem_singleton.mpr rfl
  · exact List.append_ne_nil_of_left_ne_nil hne _
  · rw [List.head?_append_of_ne_nil _ hne]
    exact fun k => absurd k hz
  · exact congrArg _ (List.append_nil _).symm
  · rw [hvalue, Nat.cast_mul, Nat.cast_pow, Nat.cast_ofNat, mul_assoc, ← zpow_natCast, ← zpow_add₀ (by norm_num)]
    congr 2
    simp only [Option.getD_none, List.length_singleton]
    omega
  · rw [hvalue]
    exact Nat.mul_le_mul_left _ (Nat.pow_le_pow_right (by decide) (by omega))

/-- The point stands between two of the digits. -/
theorem spells_middle (hd : ∀ c ∈ ds, isAsciiDigit c = true) (hz : ds.head? ≠ some '0') (hp : 0 < point)
    (hl : point < ds.length) :
    Spells ⟨ds.take point.toNat, ds.drop point.toNat, none⟩ ds point
      (ds.take point.toNat ++ '.' :: ds.drop point.toNat) := by
  have hfraction : (ds.drop point.toNat).isEmpty = false := by
    rw [List.isEmpty_eq_false_iff, ← List.length_pos_iff, List.length_drop]
    omega
  refine ⟨⟨?_, ?_, ?_, ?_, ?_⟩, ?_, ?_, ?_⟩
  · exact fun c hc => hd c (List.mem_of_mem_take hc)
  · exact fun c hc => hd c (List.mem_of_mem_drop hc)
  · rw [← List.length_pos_iff, List.length_take]
    omega
  · rw [List.head?_take, if_neg (by omega)]
    exact fun k => absurd k hz
  · exact fun k => absurd (hfraction.symm.trans k) Bool.false_ne_true
  · rw [chars, hfraction]
    exact congrArg _ (List.append_nil _).symm
  · rw [List.take_append_drop]
    congr 2
    simp only [Option.getD_none, List.length_drop]
    omega
  · rw [List.take_append_drop]
    exact le_bound _

/-- Digits with a point after some place are the parts of a number, with an exponent if the place is far off. -/
theorem exists_placePoint (point : Int) (hd : ∀ c ∈ ds, isAsciiDigit c = true) (hne : ds ≠ [])
    (hz : ds.head? ≠ some '0') : ∃ p : Parts, p.Spells ds point (Binary64.placePoint ds point) ∧
      (p.exponent.isSome = true ↔ point ≤ -4 ∨ 16 < point) := by
  unfold Binary64.placePoint
  split_ifs with hexponent hsmall
  · obtain ⟨d, rest, rfl⟩ := List.exists_cons_of_ne_nil hne
    exact ⟨_, spells_exponent hd point, iff_of_true rfl hexponent⟩
  · exact ⟨_, spells_small hd hne hsmall, iff_of_false Bool.false_ne_true hexponent⟩
  · dsimp only
    split_ifs with hl
    · exact ⟨_, spells_whole hd hne hz (by omega) (by omega), iff_of_false Bool.false_ne_true hexponent⟩
    · exact ⟨_, spells_middle hd hz (by omega) (by omega), iff_of_false Bool.false_ne_true hexponent⟩

end layout

end Parts

/-! ### The text of a number -/

section text

variable {m : Nat} {e : Int} {rest : List Char}

/-- The exponent of a decimal fraction with few digits that is neither huge nor tiny is small. -/
theorem exponent_le {c : Nat} {k : Int} (hc : c < 2 ^ 200) (hlow : (2 : ℚ) ^ (-1075 : Int) ≤ c * 10 ^ k)
    (hhigh : (c : ℚ) * 10 ^ k ≤ 2 ^ (1025 : Int)) : k.natAbs ≤ 1000 := by
  have hten : (0 : ℚ) < 10 ^ k := by positivity
  have hpos : (1 : ℚ) ≤ c := by
    rcases Nat.eq_zero_or_pos c with rfl | hpos
    · rw [Nat.cast_zero, zero_mul] at hlow
      exact absurd hlow (not_le.mpr (Binary64.two_zpow_pos _))
    · exact_mod_cast hpos
  have hc' : (c : ℚ) ≤ 2 ^ (200 : Int) := by exact_mod_cast hc.le
  have hupper : ¬ 1000 < k := fun hk => by
    have hbig : (2 : ℚ) ^ (3003 : Int) ≤ 2 ^ (1025 : Int) :=
      calc (2 : ℚ) ^ (3003 : Int) ≤ 10 ^ (1001 : Int) := Binary64.two_zpow_le_ten (by decide) (by decide)
        _ ≤ 10 ^ k := zpow_le_zpow_right₀ (by norm_num) hk
        _ ≤ c * 10 ^ k := le_mul_of_one_le_left hten.le hpos
        _ ≤ 2 ^ (1025 : Int) := hhigh
    exact absurd hbig (not_le.mpr (zpow_lt_zpow_right₀ (by norm_num) (by decide)))
  have hlower : ¬ k < -1000 := fun hk => by
    have hsmall : (2 : ℚ) ^ (-1075 : Int) ≤ 2 ^ (-2803 : Int) :=
      calc (2 : ℚ) ^ (-1075 : Int) ≤ c * 10 ^ k := hlow
        _ ≤ 2 ^ (200 : Int) * 10 ^ (-1001 : Int) :=
          mul_le_mul hc' (zpow_le_zpow_right₀ (by norm_num) (by omega)) hten.le (by positivity)
        _ ≤ 2 ^ (200 : Int) * 2 ^ (-3003 : Int) :=
          mul_le_mul_of_nonneg_left (Binary64.ten_zpow_le (by decide) (by decide)) (by positivity)
        _ = 2 ^ (-2803 : Int) := (Binary64.two_zpow_add _ _).symm
    exact absurd hsmall (not_le.mpr (zpow_lt_zpow_right₀ (by norm_num) (by decide)))
  omega

/-- The parts that a number is written with, but its sign. There is an exponent if the point is far off. -/
theorem exists_shortest (hc : Canonical m e) (hm : m ≠ 0) : ∃ p : Parts, p.Valid ∧
    Binary64.placePoint (Binary64.dropZerosRight (digitsOf (Binary64.shortest m e).1))
      ((digitsOf (Binary64.shortest m e).1).length + (Binary64.shortest m e).2) = p.chars ∧
    (∀ negative, (p.numeral negative).toBinary64 = .finite negative m e hc) ∧ p.IsSmall ∧
    (p.exponent.isSome = true ↔ (digitsOf (Binary64.shortest m e).1).length + (Binary64.shortest m e).2 ≤ -4 ∨
      16 < (digitsOf (Binary64.shortest m e).1).length + (Binary64.shortest m e).2) := by
  obtain ⟨hcovers, hne, hsmall⟩ := Binary64.shortest_spec hc hm
  generalize (Binary64.shortest m e).1 = d at *
  generalize (Binary64.shortest m e).2 = k at *
  have hzeros := Binary64.dropZerosRight_append (digitsOf d)
  have hd := natOfDigits_digitsOf d
  have hlen : (Binary64.dropZerosRight (digitsOf d)).length ≤ (digitsOf d).length := by
    have := congrArg List.length hzeros
    rw [List.length_append] at this
    omega
  have hdigits : ∀ c ∈ Binary64.dropZerosRight (digitsOf d), isAsciiDigit c = true := fun c hc =>
    isAsciiDigit_of_mem_digitsOf (hzeros ▸ List.mem_append_left _ hc)
  have hnil : Binary64.dropZerosRight (digitsOf d) ≠ [] := fun k => by
    rw [← hzeros, k, List.nil_append, natOfDigits_zeros] at hd
    exact hne hd.symm
  have hhead : (Binary64.dropZerosRight (digitsOf d)).head? ≠ some '0' := fun k => by
    have hfirst : (digitsOf d).head? = some '0' := by rw [← hzeros, List.head?_append, k, Option.some_or]
    rw [digitsOf_head hfirst] at hd
    exact hne hd.symm
  obtain ⟨p, hp, hpoint⟩ := Parts.exists_placePoint ((digitsOf d).length + k) hdigits hnil hhead
  have hall : natOfDigits (Binary64.dropZerosRight (digitsOf d)) *
      10 ^ ((digitsOf d).length - (Binary64.dropZerosRight (digitsOf d)).length) = d := by
    rw [← natOfDigits_append_zeros, hzeros, hd]
  have hle : natOfDigits (Binary64.dropZerosRight (digitsOf d)) ≤ d :=
    (Nat.le_mul_of_pos_right _ (Nat.pow_pos (show 0 < 10 by decide))).trans hall.le
  have hvalue : (d : ℚ) * 10 ^ k = natOfDigits (Binary64.dropZerosRight (digitsOf d)) *
      10 ^ ((digitsOf d).length + k - (Binary64.dropZerosRight (digitsOf d)).length) := by
    nth_rewrite 1 [← hall]
    rw [Nat.cast_mul, Nat.cast_pow, Nat.cast_ofNat, mul_assoc, ← zpow_natCast, ← zpow_add₀ (by norm_num),
      Nat.cast_sub hlen]
    congr 2
    ring
  have hfew : natOfDigits (p.whole ++ p.fraction) < 2 ^ 200 :=
    calc natOfDigits (p.whole ++ p.fraction)
        ≤ natOfDigits (Binary64.dropZerosRight (digitsOf d)) * 10 ^ 17 := hp.bound
      _ ≤ d * 10 ^ 17 := Nat.mul_le_mul_right _ hle
      _ ≤ 2 ^ 70 * 10 ^ 17 := Nat.mul_le_mul_right _ hsmall.le
      _ < 2 ^ 200 := by decide
  rw [hvalue, ← hp.value] at hcovers
  obtain ⟨hlow, hhigh⟩ := hcovers.bounds hc hm
  exact ⟨p, hp.valid, hp.chars, fun negative => Binary64.ofDecimal_eq negative hc hm hfew hcovers,
    ⟨hfew, exponent_le hfew hlow hhigh⟩, hpoint⟩

/-- A finite number is written as parts that make a number which is read as the finite one. -/
theorem exists_text (negative : Bool) (hc : Canonical m e) : ∃ p : Parts, p.Valid ∧
    (Binary64.finite negative m e hc).text.toList = (if negative then '-' :: p.chars else p.chars) ∧
    (p.numeral negative).toBinary64 = .finite negative m e hc ∧ p.IsSmall := by
  have htext : ∀ {body : List Char}, (if m = 0 then ['0', '.', '0'] else
      Binary64.placePoint (Binary64.dropZerosRight (digitsOf (Binary64.shortest m e).1))
        ((digitsOf (Binary64.shortest m e).1).length + (Binary64.shortest m e).2)) = body →
      (Binary64.finite negative m e hc).text.toList = if negative then '-' :: body else body := by
    rintro body rfl
    exact String.toList_ofList
  by_cases hm : m = 0
  · subst hm
    obtain rfl : e = -1074 := by rcases hc with hc | hc <;> omega
    have hdigit : ∀ c ∈ ['0'], isAsciiDigit c = true := List.forall_mem_singleton.mpr rfl
    refine ⟨⟨['0'], ['0'], none⟩, ⟨hdigit, hdigit, by decide, fun _ => rfl, fun k => by cases k⟩, htext rfl, ?_,
      by decide, by decide⟩
    have hzero : Binary64.zero negative = .finite negative 0 (-1074) hc := by
      rw [Binary64.zero, Binary64.ofParts, dif_pos hc]
    change Binary64.ofDecimal negative 0 _ = _
    exact (if_pos rfl).trans hzero
  · obtain ⟨p, hp, hchars, hvalue, hs, -⟩ := exists_shortest hc hm
    exact ⟨p, hp, htext ((if_neg hm).trans hchars), hvalue negative, hs⟩

theorem startsNumber_text (negative : Bool) (hc : Canonical m e) :
    StartsNumber (Binary64.finite negative m e hc).text.toList := by
  obtain ⟨p, hp, ht, -⟩ := exists_text negative hc
  rw [ht]
  exact hp.startsNumber negative

theorem mem_text (negative : Bool) (hc : Canonical m e) :
    ∀ c ∈ (Binary64.finite negative m e hc).text.toList, isNumeral c = true := by
  obtain ⟨p, hp, ht, -⟩ := exists_text negative hc
  rw [ht]
  exact hp.isNumeral negative

/-- A finite number is read back from its text. -/
theorem readNumber_text (negative : Bool) (hc : Canonical m e) (hr : Ends rest) :
    readNumber ((Binary64.finite negative m e hc).text.toList ++ rest) =
      .ok (.float (.finite negative m e hc), rest) := by
  obtain ⟨p, hp, ht, hv, -⟩ := exists_text negative hc
  rw [ht, hp.readNumber negative hr, hv]

end text

end LiveSvg.Json
