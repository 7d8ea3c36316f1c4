import LiveSvg.Json.Reader
import LiveSvg.Json.Writer
import LiveSvg.Proofs.Characters
import Mathlib.Tactic.Common
/-!
Numbers in JSON text: which texts are one, and what they are read as.
-/

namespace LiveSvg.Json

open Number Text

variable {c : Char} {fuel depth : Nat} {cs rest : List Char}

/-- A number that text begins with. -/
def StartsNumber (cs : List Char) : Prop :=
  ∃ c more, isAsciiDigit c = true ∧ (cs = c :: more ∨ cs = '-' :: c :: more)

/-- What may follow a value. -/
def Ends (rest : List Char) : Prop := ∀ c, rest.head? = some c → c = ',' ∨ c = '\n'

theorem StartsNumber.append (h : StartsNumber cs) (rest : List Char) : StartsNumber (cs ++ rest) := by
  obtain ⟨c, more, hc, rfl | rfl⟩ := h
  · exact ⟨c, more ++ rest, hc, .inl rfl⟩
  · exact ⟨c, more ++ rest, hc, .inr rfl⟩

theorem ne_of_isAsciiDigit {d : Char} (h : isAsciiDigit c = true) (hd : isAsciiDigit d = false) : c ≠ d := by
  rintro rfl
  exact absurd (h.symm.trans hd) (by decide)

theorem readWord?_number (h : StartsNumber cs) : readWord? cs = none := by
  obtain ⟨c, more, hc, hcs⟩ := h
  have hne : ∀ {d : Char}, isAsciiDigit d = false → d ≠ c := fun hd => (ne_of_isAsciiDigit hc hd).symm
  rcases hcs with rfl | rfl
  · simp [readWord?, wordValues, hne (show isAsciiDigit 'n' = false from rfl),
      hne (show isAsciiDigit 't' = false from rfl), hne (show isAsciiDigit 'f' = false from rfl),
      hne (show isAsciiDigit 'N' = false from rfl), hne (show isAsciiDigit 'I' = false from rfl),
      hne (show isAsciiDigit '-' = false from rfl)]
  · simp [readWord?, wordValues, hne (show isAsciiDigit 'I' = false from rfl)]

/-- A number is read as a number. -/
theorem readValue_number (h : StartsNumber cs) : readValue (fuel + 1) depth cs = readNumber cs := by
  have hw := readWord?_number h
  have hne : cs.head? ≠ some '\x22' ∧ cs.head? ≠ some '[' ∧ cs.head? ≠ some '\x7b' := by
    obtain ⟨c, more, hc, rfl | rfl⟩ := h
    · refine ⟨?_, ?_, ?_⟩ <;> exact fun k => ne_of_isAsciiDigit hc rfl (Option.some.inj k)
    · refine ⟨?_, ?_, ?_⟩ <;> exact fun k => absurd (Option.some.inj k) (by decide)
  rw [readValue]
  · rw [hw]
  · rintro _ rfl
    exact hne.1 rfl
  · rintro _ rfl
    exact hne.2.1 rfl
  · rintro _ rfl
    exact hne.2.2 rfl

theorem isAsciiDigit_of_mem_digitsOf {n : Nat} (h : c ∈ digitsOf n) : isAsciiDigit c = true := by
  have hd : c.isDigit = true := Nat.isDigit_of_mem_toDigits (by decide) (by decide) h
  simp only [Char.isDigit, Bool.and_eq_true, decide_eq_true_eq] at hd
  simp only [isAsciiDigit, Bool.and_eq_true, decide_eq_true_eq]
  exact hd

theorem takeDigits_append {ds : List Char} (hd : ∀ c ∈ ds, isAsciiDigit c = true)
    (hr : ∀ c, rest.head? = some c → isAsciiDigit c = false) : takeDigits (ds ++ rest) = (ds, rest) := by
  unfold takeDigits
  have hs : rest.takeWhile isAsciiDigit = [] ∧ rest.dropWhile isAsciiDigit = rest := by
    cases rest with
    | nil => exact ⟨rfl, rfl⟩
    | cons c rest => exact ⟨List.takeWhile_cons_of_neg (by simp [hr c rfl]), List.dropWhile_cons_of_neg (by simp [hr c rfl])⟩
  rw [List.takeWhile_append_of_pos hd, List.dropWhile_append_of_pos hd, hs.1, hs.2, List.append_nil]

theorem natOfDigits_digitsOf (n : Nat) : natOfDigits (digitsOf n) = n := by
  refine Eq.trans ?_ (Nat.ofDigitChars_ten_toDigits (n := n))
  unfold natOfDigits digitsOf Nat.ofDigitChars
  congr 1
  funext m c
  rw [Nat.mul_comm]
  rfl

theorem digitsOf_ne_nil (n : Nat) : digitsOf n ≠ [] := Nat.toDigits_ne_nil

/-- No number but zero is written with a zero in front. -/
theorem digitsOf_head {n : Nat} (h : (digitsOf n).head? = some '0') : digitsOf n = ['0'] := by
  induction n using Nat.strongRecOn with
  | ind n ih =>
    unfold digitsOf at h ih ⊢
    by_cases hn : n < 10
    · rw [Nat.toDigits_of_lt_base hn] at h ⊢
      exact congrArg ([·]) (Option.some.inj h)
    · rw [Nat.toDigits_of_base_le (by decide) (Nat.le_of_not_lt hn)] at h
      rw [List.head?_append, Option.or_of_isSome (by simp [Nat.toDigits_ne_nil])] at h
      have h₀ := ih (n / 10) (by omega) h
      have hz : natOfDigits (digitsOf (n / 10)) = 0 := by
        unfold digitsOf
        rw [h₀]
        rfl
      rw [natOfDigits_digitsOf] at hz
      omega

theorem takeMinus_append (negative : Bool) {ds : List Char} (hd : ∀ c ∈ ds, isAsciiDigit c = true)
    (hne : ds ≠ []) :
    takeMinus ((if negative then '-' :: ds else ds) ++ rest) = (negative, ds ++ rest) := by
  cases negative with
  | true => rfl
  | false =>
    obtain ⟨d, ds, rfl⟩ := List.exists_cons_of_ne_nil hne
    exact takeMinus.eq_2 _ fun _ k =>
      ne_of_isAsciiDigit (hd d List.mem_cons_self) rfl (List.cons.inj k).1

theorem takeWhole_append {ds : List Char} (hd : ∀ c ∈ ds, isAsciiDigit c = true)
    (hz : ds.head? = some '0' → ds = ['0']) (hr : ∀ c, rest.head? = some c → isAsciiDigit c = false) :
    takeWhole (ds ++ rest) = (ds, rest) := by
  by_cases h : ds.head? = some '0'
  · rw [hz h]
    rfl
  · rw [takeWhole.eq_2, takeDigits_append hd hr]
    rintro more k
    cases ds with
    | nil => exact absurd (hr '0' (by rw [show rest = _ from k]; rfl)) (by decide)
    | cons d ds => exact h (congrArg some (List.cons.inj k).1)

/-- What a number is, by its digits before the point and what follows them. -/
theorem readNumber_digits (negative : Bool) {ds : List Char} (hd : ∀ c ∈ ds, isAsciiDigit c = true)
    (hne : ds ≠ []) (hz : ds.head? = some '0' → ds = ['0'])
    (hr : ∀ c, rest.head? = some c → isAsciiDigit c = false) {fraction after last : List Char} {e? : Option Int}
    (hf : takeFraction rest = (fraction, after)) (he : takeExponent after = (e?, last)) :
    readNumber ((if negative then '-' :: ds else ds) ++ rest) =
      if fraction.isEmpty && e?.isNone then
        if maxIntDigits < ds.length then .error .hugeInteger
        else .ok (.int (if negative then -(natOfDigits ds : Int) else natOfDigits ds), rest)
      else
        .ok (.float (Numeral.toBinary64 ⟨negative, natOfDigits (ds ++ fraction), e?.getD 0 - fraction.length⟩), last) := by
  have hempty : ds.isEmpty = false := by simpa using hne
  unfold readNumber
  rw [takeMinus_append negative hd hne]
  dsimp only
  rw [takeWhole_append hd hz hr]
  dsimp only
  rw [hf]
  dsimp only
  rw [he, hempty, if_neg Bool.false_ne_true]

theorem Ends.not_digit (h : Ends rest) : ∀ c, rest.head? = some c → isAsciiDigit c = false := by
  intro c hc
  rcases h c hc with rfl | rfl <;> rfl

theorem Ends.takeExponent (h : Ends rest) : takeExponent rest = (none, rest) := by
  unfold Number.takeExponent
  split
  · next c more => rcases h c rfl with rfl | rfl <;> rfl
  · rfl

theorem readNumber_int {n : Int} (hn : (digitsOf n.natAbs).length ≤ maxIntDigits) (hr : Ends rest) :
    readNumber ((intText n).toList ++ rest) = .ok (.int n, rest) := by
  have hf : takeFraction rest = ([], rest) := by
    unfold takeFraction
    split
    · next more => exact absurd (hr '.' rfl) (by decide)
    · rfl
  have h := readNumber_digits (decide (n < 0)) (fun c => isAsciiDigit_of_mem_digitsOf (n := n.natAbs))
    (digitsOf_ne_nil _) digitsOf_head hr.not_digit hf hr.takeExponent
  simp only [decide_eq_true_eq, natOfDigits_digitsOf, List.isEmpty_nil, Option.isNone_none, Bool.and_self,
    if_true] at h
  rw [if_neg (Nat.not_lt.mpr hn)] at h
  unfold intText
  have hm : (if n < 0 then -(n.natAbs : Int) else n.natAbs) = n := by split <;> omega
  rw [String.toList_ofList, h, hm]

theorem startsNumber_intText (n : Int) : StartsNumber (intText n).toList := by
  obtain ⟨d, ds, hd⟩ := List.exists_cons_of_ne_nil (digitsOf_ne_nil n.natAbs)
  refine ⟨d, ds, isAsciiDigit_of_mem_digitsOf (n := n.natAbs) (hd ▸ List.mem_cons_self), ?_⟩
  unfold intText
  rw [String.toList_ofList, hd]
  split
  · exact .inr rfl
  · exact .inl rfl

/-- Characters that numbers are written with. -/
def isNumeral (c : Char) : Bool := isAsciiDigit c || ['-', '+', '.', 'e'].contains c

theorem isNumeral_of_isAsciiDigit (h : isAsciiDigit c = true) : isNumeral c = true := by
  rw [isNumeral, h, Bool.true_or]

theorem mem_intText (n : Int) : ∀ c ∈ (intText n).toList, isNumeral c = true := by
  have hd : ∀ c ∈ digitsOf n.natAbs, isNumeral c = true := fun c hc =>
    isNumeral_of_isAsciiDigit (isAsciiDigit_of_mem_digitsOf hc)
  unfold intText
  rw [String.toList_ofList]
  split
  · exact List.forall_mem_cons.mpr ⟨by decide, hd⟩
  · exact hd

end LiveSvg.Json
