import LiveSvg.Proofs.Displaying
/-!
Which numbers can be formatted. Rounding has room for 28 digits only, and an integer has to be written before it
is rounded.
-/

namespace LiveSvg

namespace Number.Decimal

variable {p : Nat} {d : Decimal} {e : RoundError}

/-- There is no number with so many decimals and at most 28 digits that a number could be rounded to. -/
inductive TooWide (p : Nat) : Decimal → Prop where
  | infinity (negative : Bool) : TooWide p (.infinity negative)
  | finite {negative : Bool} {c : Nat} {e : Int} {y : ℚ} : Nearest p (Numeral.mk negative c e).value y →
    10 ^ 28 ≤ |y| * 10 ^ p → TooWide p (.finite negative c e)

/-- Rounding fails for numbers that are too wide, and for no others. -/
theorem round_eq_error_iff (hp : p ≤ 999999) : round p d = .error e ↔ e = .tooManyDigits ∧ TooWide p d := by
  cases d with
  | infinity negative =>
    change Except.error _ = Except.error e ↔ _
    rw [Except.error.injEq, eq_comm]
    exact (and_iff_left (.infinity negative)).symm
  | nan negative =>
    have hround : round p (.nan negative) = .ok (.nan negative) := by
      unfold round
      rw [unitExponent_eq hp]
      rfl
    rw [hround]
    refine iff_of_false (fun h => by cases h) fun h => by cases h.2
  | finite negative c exponent =>
    obtain ⟨r, hnear, hfew, hmany⟩ := exists_round hp negative c exponent
    rcases Nat.lt_or_ge r (10 ^ 28) with hr | hr
    · rw [hfew hr]
      refine iff_of_false (fun h => by cases h) fun h => ?_
      obtain ⟨⟩ | ⟨hy, hwide⟩ := h.2
      rw [hy.eq hnear, coefficient_of_value] at hwide
      exact absurd (by exact_mod_cast hwide) (Nat.not_le.mpr hr)
    · rw [hmany hr, Except.error.injEq, eq_comm]
      refine (and_iff_left (.finite hnear ?_)).symm
      rw [coefficient_of_value]
      exact_mod_cast hr

end Number.Decimal

namespace Display

open Number

variable {v unit showZeros : Value} {places : Option Nat} {f : Failure} {s : String} {d : Decimal}

/-- A number of decimals, or none. -/
def placesValue (places : Option Nat) : Value := places.elim .null fun p => .int p

/-- The decimal number that a value spells, if it can be written and spells one. -/
def decimalOf? (v : Value) : Option Decimal := (numberText v).toOption.bind Decimal.ofText?

theorem decimalOf?_eq (hs : numberText v = .ok s) : decimalOf? v = Decimal.ofText? s := by
  unfold decimalOf?
  rw [hs]
  rfl

/-- Why a value is not formatted: it is an integer too long to be written, or too wide to be rounded. -/
inductive Refused : Option Nat → Value → Failure → Prop where
  | long {places : Option Nat} {m : Int} : tooLong m = true → Refused places (.int m) Failure.hugeInteger
  | wide {p : Nat} {v : Value} {d : Decimal} : decimalOf? v = some d → d.TooWide p →
    Refused (some p) v (roundFailure .tooManyDigits)

/-- The options that values give for a number of decimals. -/
def optionsFor (places : Option Nat) (unit showZeros : Value) : Options :=
  ⟨places.map fun p => (p : Int), if unit.truthy then unit.shown else "", showZeros.truthy⟩

/-- What is shown of a decimal number. -/
theorem format_decimal (hv : isNumeric v = true) (hs : numberText v = .ok s) (hd : Decimal.ofText? s = some d) :
    format v (placesValue places) unit showZeros =
      match digits (optionsFor places unit showZeros) d with
      | .ok ds => .ok (.text (withUnit (optionsFor places unit showZeros) ds))
      | .error e => .error (roundFailure e) := by
  have hoptions : optionsOf (placesValue places) unit showZeros = .ok (optionsFor places unit showZeros) := by
    cases places <;> rfl
  rw [format, if_pos hv, hs, ok_bind, hd, Option.isNone_some, if_neg Bool.false_ne_true, hoptions, ok_bind,
    formatText, hd]
  dsimp only
  cases digits (optionsFor places unit showZeros) d <;> rfl

/-- Digits are not to be had where rounding fails only. -/
theorem digits_eq_error_iff {e : Decimal.RoundError} : digits (optionsFor places unit showZeros) d = .error e ↔
    ∃ p : Nat, places = some p ∧ d.round p = .error e := by
  cases places with
  | none => exact iff_of_false (fun h => by cases h) fun ⟨p, hp, _⟩ => by cases hp
  | some p =>
    change (d.round p >>= fun rounded => Pure.pure (String.ofList _)) = _ ↔ _
    cases hr : d.round p with
    | ok rounded =>
      refine iff_of_false (fun h => by cases h) fun ⟨q, hq, hround⟩ => ?_
      cases hq
      rw [hr] at hround
      cases hround
    | error g =>
      change Except.error g = Except.error e ↔ _
      rw [Except.error.injEq]
      refine ⟨fun h => ⟨p, rfl, by rw [hr, h]⟩, fun ⟨q, hq, hround⟩ => ?_⟩
      cases hq
      rw [hr] at hround
      exact Except.error.inj hround

theorem format_kept (hv : isNumeric v = true) (hs : numberText v = .ok s) (hd : Decimal.ofText? s = none) :
    format v (placesValue places) unit showZeros = .ok v := by
  rw [format, if_pos hv, hs, ok_bind, hd]
  rfl

/-- Every number spells a decimal one; only a text can be out of its range. -/
theorem exists_text_of_kept (hv : isNumeric v = true) (hs : numberText v = .ok s) (hd : Decimal.ofText? s = none) :
    ∃ t, v = .text t := by
  have denoted : ∀ {n : Numeral}, Denotes v n → n.InRange → False := fun ⟨t, ht, hspelled⟩ hn => by
    obtain rfl := Except.ok.inj (hs.symm.trans ht)
    rw [ofText?_of_spelled hspelled, if_pos hn] at hd
    cases hd
  cases v with
  | text t => exact ⟨t, rfl⟩
  | int m =>
    have hm : tooLong m = false := by
      rw [numberText] at hs
      split at hs
      · cases hs
      · next h => exact Bool.eq_false_iff.mpr h
    obtain ⟨n, hn, hrange, -⟩ := denotes_int hm
    exact (denoted hn hrange).elim
  | float x =>
    cases x with
    | nan => cases hv
    | infinity negative =>
      obtain rfl := Except.ok.inj hs
      cases negative <;> exact absurd hd (by decide)
    | finite negative m e hc =>
      obtain ⟨n, hn, hrange, -⟩ := denotes_float negative hc
      exact (denoted hn hrange).elim
  | null | bool | list | object => cases hv

/-- Only an integer can be too long to be written. -/
theorem numberText_eq_error {g : Failure} (h : numberText v = .error g) :
    g = Failure.hugeInteger ∧ ∃ m, v = .int m ∧ tooLong m = true := by
  unfold numberText at h
  split at h
  · next m =>
    split at h
    · next hm => exact ⟨(Except.error.inj h).symm, m, rfl, hm⟩
    · cases h
  · cases h
  · cases h
  · cases h

theorem refused_iff_of_text (hs : numberText v = .ok s) : Refused places v f ↔
    f = roundFailure .tooManyDigits ∧ ∃ p d, places = some p ∧ Decimal.ofText? s = some d ∧ d.TooWide p := by
  have hdecimal := decimalOf?_eq hs
  constructor
  · intro h
    cases h with
    | long hm =>
      rw [numberText, if_pos hm] at hs
      cases hs
    | wide hd hwide => exact ⟨rfl, _, _, rfl, hdecimal.symm.trans hd, hwide⟩
  · rintro ⟨rfl, p, d, rfl, hd, hwide⟩
    exact .wide (hdecimal.trans hd) hwide

theorem refused_iff_of_long {m : Int} (hm : tooLong m = true) :
    Refused places (.int m) f ↔ f = Failure.hugeInteger := by
  constructor
  · intro h
    cases h with
    | long => rfl
    | wide hd hwide =>
      rw [decimalOf?, numberText, if_pos hm] at hd
      cases hd
  · rintro rfl
    exact .long hm

/-- A value that is no number is kept. A number, or a text that spells one, is formatted as a text unless it is
refused, which is the only failure there is. -/
theorem format_fails_iff (hp : ∀ p ∈ places, p ≤ 999999) :
    (isNumeric v = false → format v (placesValue places) unit showZeros = .ok v) ∧
      (isNumeric v = true → (∀ f, format v (placesValue places) unit showZeros = .error f ↔ Refused places v f) ∧
        ((∀ f, ¬ Refused places v f) → ∃ t, format v (placesValue places) unit showZeros = .ok (.text t))) := by
  refine ⟨fun hv => by rw [format, if_neg (by rw [hv]; exact Bool.false_ne_true)]; rfl, fun hv => ?_⟩
  cases hs : numberText v with
  | error g =>
    obtain ⟨rfl, m, rfl, hm⟩ := numberText_eq_error hs
    have hformat : format (.int m) (placesValue places) unit showZeros = .error Failure.hugeInteger := by
      rw [format, if_pos hv, hs]
      rfl
    refine ⟨fun f => ?_, fun h => absurd (.long hm) (h Failure.hugeInteger)⟩
    rw [hformat, refused_iff_of_long hm, Except.error.injEq, eq_comm]
  | ok s =>
    cases hd : Decimal.ofText? s with
    | none =>
      obtain ⟨t, rfl⟩ := exists_text_of_kept hv hs hd
      rw [format_kept hv hs hd]
      refine ⟨fun f => iff_of_false (fun h => by cases h) fun h => ?_, fun _ => ⟨t, rfl⟩⟩
      obtain ⟨-, p, d, -, hsome, -⟩ := (refused_iff_of_text hs).mp h
      rw [hd] at hsome
      cases hsome
    | some d =>
      -- digits are missing exactly where the number is too wide to be rounded
      have hdigits : (∃ e, digits (optionsFor places unit showZeros) d = .error e) ↔
          ∃ p, places = some p ∧ d.TooWide p := by
        simp only [digits_eq_error_iff]
        constructor
        · rintro ⟨e, p, rfl, hround⟩
          exact ⟨p, rfl, ((Decimal.round_eq_error_iff (hp p rfl)).mp hround).2⟩
        · rintro ⟨p, rfl, hwide⟩
          exact ⟨_, p, rfl, (Decimal.round_eq_error_iff (hp p rfl)).mpr ⟨rfl, hwide⟩⟩
      have hrefused : ∀ f, Refused places v f ↔
          f = roundFailure .tooManyDigits ∧ ∃ p, places = some p ∧ d.TooWide p := fun f => by
        rw [refused_iff_of_text hs, hd]
        simp only [Option.some.injEq, exists_eq_left', exists_and_left]
      rw [format_decimal hv hs hd]
      cases hds : digits (optionsFor places unit showZeros) d with
      | ok ds =>
        have hnot : ¬ ∃ p, places = some p ∧ d.TooWide p := fun h => by
          obtain ⟨e, he⟩ := hdigits.mpr h
          rw [hds] at he
          cases he
        exact ⟨fun f => iff_of_false (fun h => by cases h) fun h => hnot ((hrefused f).mp h).2, fun _ => ⟨_, rfl⟩⟩
      | error e =>
        obtain ⟨p, rfl, hround⟩ := digits_eq_error_iff.mp hds
        obtain ⟨rfl, hwide⟩ := (Decimal.round_eq_error_iff (hp p rfl)).mp hround
        have hfails : Refused (some p) v (roundFailure .tooManyDigits) := (hrefused _).mpr ⟨rfl, p, rfl, hwide⟩
        refine ⟨fun f => ⟨fun h => ?_, fun h => ?_⟩, fun h => absurd hfails (h _)⟩
        · cases h
          exact hfails
        · rw [((hrefused f).mp h).1]

/-- A number with 31 digits before its point is too wide for two decimals. -/
theorem format_fails_iff_wide :
    format (.text "1e30") (.int 2) .null (.bool false) = .error (roundFailure .tooManyDigits) := by
  have hwide : (Decimal.finite false 1 30).TooWide 2 := by
    refine .finite (Nearest.refl ⟨10 ^ 32, ?_⟩) ?_ <;> norm_num [Numeral.value]
  have hplaces : ∀ p ∈ some 2, p ≤ 999999 := by simp
  exact (((format_fails_iff hplaces).2 rfl).1 _).mpr (.wide rfl hwide)

/-- So is a floating-point number of that size, and infinity. -/
theorem numbers_refused :
    (∃ f, format (.float (Binary64.ofRatio false (10 ^ 30) 1)) (.int 2) .null (.bool false) = .error f) ∧
      format (.float (.infinity false)) (.int 0) .null (.bool false) = .error (roundFailure .tooManyDigits) := by
  refine ⟨?_, rfl⟩
  have hfails : (format (.float (Binary64.ofRatio false (10 ^ 30) 1)) (.int 2) .null (.bool false)).isOk = false := by
    decide +kernel
  cases h : format (.float (Binary64.ofRatio false (10 ^ 30) 1)) (.int 2) .null (.bool false) with
  | ok shown =>
    rw [h] at hfails
    cases hfails
  | error f => exact ⟨f, rfl⟩

end Display

end LiveSvg
