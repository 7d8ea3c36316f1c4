import LiveSvg.Proofs.Plain
/-!
Texts that spell decimal numbers: a grammar of numerals in ASCII, and of texts that stand for one with blanks
around it, digits of any script and underscores between digits. What is spelled is read, by the decimal numbers
within their range and by the floating-point ones, and all numbers are written in texts that spell them.
-/

namespace LiveSvg.Number

open Text Json

variable {c d : Char} {cs ds body left right tail : List Char} {e : Int} {negative : Bool} {n : Numeral}

/-! ### The grammar -/

/-- A sign or none, and whether it is a minus. -/
inductive Sign : List Char → Bool → Prop
  | none : Sign [] false
  | plus : Sign ['+'] false
  | minus : Sign ['-'] true

/-- At least one digit, with or without a point among them; all digits, and how many follow the point. -/
inductive Mantissa : List Char → List Char → Nat → Prop
  | whole {ds : List Char} : (∀ c ∈ ds, isAsciiDigit c = true) → ds ≠ [] → Mantissa ds ds 0
  | point {left right : List Char} : (∀ c ∈ left ++ right, isAsciiDigit c = true) → left ++ right ≠ [] →
      Mantissa (left ++ '.' :: right) (left ++ right) right.length

/-- An exponent, which is zero where there is none. -/
inductive Exponent : List Char → Int → Prop
  | none : Exponent [] 0
  | mark {c : Char} {sign ds : List Char} {negative : Bool} : c = 'e' ∨ c = 'E' → Sign sign negative →
      (∀ c ∈ ds, isAsciiDigit c = true) → ds ≠ [] →
      Exponent (c :: (sign ++ ds)) (if negative then -(natOfDigits ds : Int) else natOfDigits ds)

/-- A numeral in ASCII. -/
inductive Spells : List Char → Numeral → Prop
  | intro {sign body ds tail : List Char} {negative : Bool} {places : Nat} {e : Int} : Sign sign negative →
      Mantissa body ds places → Exponent tail e →
      Spells (sign ++ (body ++ tail)) ⟨negative, natOfDigits ds, e - places⟩

/-- Characters that stand for others: digits of any script for those of ASCII, and underscores between two
digits for nothing. -/
inductive StandsFor : List Char → List Char → Prop
  | nil : StandsFor [] []
  | same {c : Char} {cs ds : List Char} : digit? c = none → isBlank c = false → c ≠ '_' → StandsFor cs ds →
      StandsFor (c :: cs) (c :: ds)
  | digit {c : Char} {d : Nat} {cs ds : List Char} : digit? c = some d → StandsFor cs ds →
      StandsFor (c :: cs) (Char.ofNat (48 + d) :: ds)
  | underscore {c c' : Char} {d d' : Nat} {cs ds : List Char} : digit? c = some d → digit? c' = some d' →
      StandsFor (c' :: cs) ds → StandsFor (c :: '_' :: c' :: cs) (Char.ofNat (48 + d) :: ds)

/-- Whether a text spells a decimal number. -/
def Spelled (s : String) (n : Numeral) : Prop :=
  ∃ left body right cs, s.toList = left ++ body ++ right ∧ (∀ c ∈ left ++ right, isBlank c = true) ∧
    StandsFor body cs ∧ Spells cs n

/-- Whether a number is in the range of the exact decimal numbers, by its first digit and its last. -/
structure Numeral.InRange (n : Numeral) : Prop where
  first : n.exponent + Decimal.digitCount n.coefficient - 1 ≤ 999999999999999999
  last : -1999999999999999997 ≤ n.exponent

instance (n : Numeral) : Decidable n.InRange :=
  decidable_of_iff (n.exponent + Decimal.digitCount n.coefficient - 1 ≤ 999999999999999999 ∧
    -1999999999999999997 ≤ n.exponent) ⟨fun h => ⟨h.1, h.2⟩, fun h => ⟨h.first, h.last⟩⟩

/-! ### Characters of any script -/

theorem digit?_le {d : Nat} (h : digit? c = some d) : d ≤ 9 := by
  unfold digit? at h
  split at h
  · split at h
    case isTrue hd =>
      simp only [Char.isDigit, Bool.and_eq_true, decide_eq_true_eq] at hd
      have hlast : c.toNat ≤ 57 := hd.2
      cases h
      omega
    case isFalse => cases h
  · obtain ⟨z, hz, hzd⟩ := Option.map_eq_some_iff.mp h
    have hrange := List.find?_some hz
    simp only [Bool.and_eq_true, decide_eq_true_eq] at hrange
    omega

/-- No character is both a digit and a blank. -/
theorem isBlank_of_digit? {d : Nat} (h : digit? c = some d) : isBlank c = false := by
  have hzeros : ∀ z ∈ 48 :: zeros, ∀ k < 10, isBlank (Char.ofNat (z + k)) = false := by decide +kernel
  obtain ⟨z, hz, hlow, hhigh⟩ : ∃ z ∈ 48 :: zeros, z ≤ c.toNat ∧ c.toNat < z + 10 := by
    unfold digit? at h
    split at h
    · split at h
      case isTrue hd =>
        simp only [Char.isDigit, Bool.and_eq_true, decide_eq_true_eq] at hd
        exact ⟨48, List.mem_cons_self, hd.1, Nat.lt_succ_of_le hd.2⟩
      case isFalse => cases h
    · obtain ⟨z, hz, -⟩ := Option.map_eq_some_iff.mp h
      have hrange := List.find?_some hz
      simp only [Bool.and_eq_true, decide_eq_true_eq] at hrange
      exact ⟨z, List.mem_cons_of_mem _ (List.mem_of_find?_eq_some hz), hrange.1, Nat.lt_succ_of_le hrange.2⟩
  have hchar := hzeros z hz (c.toNat - z) (by omega)
  rwa [Nat.add_sub_cancel' hlow, Char.ofNat_toNat] at hchar

theorem isAsciiDigit_ofNat {d : Nat} (h : d ≤ 9) : isAsciiDigit (Char.ofNat (48 + d)) = true := by
  have hall : ∀ d ≤ 9, isAsciiDigit (Char.ofNat (48 + d)) = true := by decide
  exact hall d h

theorem digit?_of_isAsciiDigit (h : isAsciiDigit c = true) :
    digit? c = some (c.toNat - 48) ∧ Char.ofNat (48 + (c.toNat - 48)) = c := by
  have hc := toNat_of_isAsciiDigit h
  constructor
  · unfold digit?
    rw [if_pos (by omega), if_pos]
    simp only [isAsciiDigit, Bool.and_eq_true, decide_eq_true_eq] at h
    simp only [Char.isDigit, Bool.and_eq_true, decide_eq_true_eq]
    exact h
  · rw [Nat.add_sub_cancel' hc.1, Char.ofNat_toNat]

/-! ### Reading what stands for others -/

namespace StandsFor

theorem no_blank (h : StandsFor body cs) : ∀ c ∈ body, isBlank c = false := by
  induction h with
  | nil => simp
  | same _ hb _ _ ih => exact List.forall_mem_cons.mpr ⟨hb, ih⟩
  | digit hd _ ih => exact List.forall_mem_cons.mpr ⟨isBlank_of_digit? hd, ih⟩
  | underscore hd _ _ ih => exact List.forall_mem_cons.mpr ⟨isBlank_of_digit? hd, List.forall_mem_cons.mpr ⟨rfl, ih⟩⟩

theorem ne_nil (h : StandsFor body cs) (hne : cs ≠ []) : body ≠ [] := by
  cases h with
  | nil => exact hne
  | same => exact List.cons_ne_nil _ _
  | digit => exact List.cons_ne_nil _ _
  | underscore => exact List.cons_ne_nil _ _

theorem plainDigits_digit {d : Nat} (h : digit? c = some d) (cs : List Char) :
    plainDigits (c :: cs) = Char.ofNat (48 + d) :: plainDigits cs := by
  simp [plainDigits, h]

theorem plainDigits_same (h : digit? c = none) (hb : isBlank c = false) (cs : List Char) :
    plainDigits (c :: cs) = c :: plainDigits cs := by
  simp [plainDigits, h, hb]

theorem dropUnderscores?_cons (h : c ≠ '_') (previous : Char) (cs : List Char) :
    dropUnderscores? previous (c :: cs) = (dropUnderscores? c cs).map (c :: ·) := by
  rw [dropUnderscores?]
  exact fun k => h k

/-- Each underscore is dropped, and the digits and the other characters stay. -/
theorem dropUnderscores?_plainDigits (h : StandsFor body cs) (previous : Char) :
    dropUnderscores? previous (plainDigits body) = some cs := by
  induction h generalizing previous with
  | nil => rfl
  | same hn hb hu _ ih => rw [plainDigits_same hn hb, dropUnderscores?_cons hu, ih, Option.map_some]
  | digit hd _ ih =>
    have hdigit := isAsciiDigit_ofNat (digit?_le hd)
    rw [plainDigits_digit hd, dropUnderscores?_cons (ne_of_isAsciiDigit hdigit rfl), ih, Option.map_some]
  | underscore hd hd' _ ih =>
    have hdigit := isAsciiDigit_ofNat (digit?_le hd)
    have hdigit' := isAsciiDigit_ofNat (digit?_le hd')
    rw [plainDigits_digit hd, plainDigits_same rfl rfl, dropUnderscores?_cons (ne_of_isAsciiDigit hdigit rfl),
      plainDigits_digit hd', dropUnderscores?, hdigit, hdigit', Bool.and_self, if_pos rfl,
      ← plainDigits_digit hd', ih, Option.map_some]

theorem filter_plainDigits (h : StandsFor body cs) : (plainDigits body).filter (· ≠ '_') = cs := by
  induction h with
  | nil => rfl
  | same hn hb hu _ ih =>
    rw [plainDigits_same hn hb, List.filter_cons_of_pos, ih]
    exact decide_eq_true hu
  | digit hd _ ih =>
    have hne := ne_of_isAsciiDigit (isAsciiDigit_ofNat (digit?_le hd)) (rfl : isAsciiDigit '_' = false)
    rw [plainDigits_digit hd, List.filter_cons_of_pos, ih]
    exact decide_eq_true hne
  | underscore hd _ _ ih =>
    have hne := ne_of_isAsciiDigit (isAsciiDigit_ofNat (digit?_le hd)) (rfl : isAsciiDigit '_' = false)
    rw [plainDigits_digit hd, List.filter_cons_of_pos, plainDigits_same rfl rfl, List.filter_cons_of_neg, ih]
    · decide
    · exact decide_eq_true hne

/-- The characters that numbers are written with stand for themselves. -/
theorem refl (h : ∀ c ∈ cs, isNumeral c = true) : StandsFor cs cs := by
  induction cs with
  | nil => exact .nil
  | cons c cs ih =>
    obtain ⟨hc, hcs⟩ := List.forall_mem_cons.mp h
    by_cases hd : isAsciiDigit c = true
    · obtain ⟨hsome, hchar⟩ := digit?_of_isAsciiDigit hd
      have hcons := StandsFor.digit hsome (ih hcs)
      rwa [hchar] at hcons
    · have hother : c ∈ ['-', '+', '.', 'e'] := by simpa [isNumeral, hd] using hc
      have hplain : ∀ c ∈ ['-', '+', '.', 'e'], digit? c = none ∧ isBlank c = false ∧ c ≠ '_' := by
        simp only [List.forall_mem_cons, List.not_mem_nil, false_implies, implies_true, and_true]
        decide
      obtain ⟨hn, hb, hu⟩ := hplain c hother
      exact .same hn hb hu (ih hcs)

end StandsFor

/-- What stands between blanks is left of a text when they are trimmed. -/
theorem trim_between (hl : ∀ c ∈ left, isBlank c = true) (hr : ∀ c ∈ right, isBlank c = true)
    (hb : ∀ c ∈ body, isBlank c = false) (hne : body ≠ []) : trim (left ++ body ++ right) = body := by
  obtain ⟨c, more, hc⟩ := List.exists_cons_of_ne_nil hne
  obtain ⟨d, rest, hd⟩ := List.exists_cons_of_ne_nil (List.reverse_ne_nil_iff.mpr hne)
  have hfirst : isBlank c = false := hb c (hc ▸ List.mem_cons_self)
  have hlast : isBlank d = false := hb d (List.mem_reverse.mp (hd ▸ List.mem_cons_self))
  have hleft : (left ++ body ++ right).dropWhile isBlank = body ++ right := by
    rw [List.append_assoc, List.dropWhile_append_of_pos hl, hc]
    exact List.dropWhile_cons_of_neg (by simp [hfirst])
  have hright : (right.reverse ++ body.reverse).dropWhile isBlank = body.reverse := by
    rw [List.dropWhile_append_of_pos fun c hc => hr c (List.mem_reverse.mp hc), hd]
    exact List.dropWhile_cons_of_neg (by simp [hlast])
  rw [trim, hleft, dropBlankRight, List.reverse_append, hright, List.reverse_reverse]

/-! ### Reading numerals -/

theorem Sign.takeSign (h : Sign cs negative) (hd : ∀ c, ds.head? = some c → c ≠ '-' ∧ c ≠ '+') :
    takeSign (cs ++ ds) = (negative, ds) := by
  cases h with
  | none =>
    rw [List.nil_append, Number.takeSign.eq_3]
    · rintro rest rfl
      exact (hd '-' rfl).1 rfl
    · rintro rest rfl
      exact (hd '+' rfl).2 rfl
  | plus => rfl
  | minus => rfl

theorem digit_ne (hd : isAsciiDigit c = true) : c ≠ '-' ∧ c ≠ '+' :=
  ⟨ne_of_isAsciiDigit hd rfl, ne_of_isAsciiDigit hd rfl⟩

/-- An exponent is read to the end of the text. -/
theorem Exponent.takeExponent (h : Exponent tail e) : ∃ e?, takeExponent tail = (e?, []) ∧ e?.getD 0 = e := by
  cases h with
  | none => exact ⟨Option.none, rfl, rfl⟩
  | @mark c sign ds negative hc hs hd hne =>
    have hsign : Number.takeSign (sign ++ ds) = (negative, ds) :=
      hs.takeSign fun c hc => digit_ne (hd c (List.mem_of_head? hc))
    have hdigits : takeDigits ds = (ds, []) := by
      have happend : takeDigits (ds ++ []) = (ds, []) := takeDigits_append hd (by simp)
      rwa [List.append_nil] at happend
    obtain ⟨d, more, rfl⟩ := List.exists_cons_of_ne_nil hne
    refine ⟨some (if negative then -(natOfDigits (d :: more) : Int) else natOfDigits (d :: more)), ?_, rfl⟩
    rw [Number.takeExponent]
    simp only [hc, if_true, hsign, hdigits]

theorem Exponent.head (h : Exponent tail e) : ∀ c, tail.head? = some c → isAsciiDigit c = false ∧ c ≠ '.' := by
  cases h with
  | none => simp
  | mark hc =>
    intro c hcons
    obtain rfl := Option.some.inj hcons
    rcases hc with rfl | rfl <;> decide

/-- A numeral is read as what it spells. -/
theorem unsignedNumeral?_of_mantissa {places : Nat} (hb : Mantissa body ds places) (ht : Exponent tail e) :
    unsignedNumeral? negative (body ++ tail) = some ⟨negative, natOfDigits ds, e - places⟩ := by
  obtain ⟨e?, hread, rfl⟩ := ht.takeExponent
  have hhead := ht.head
  unfold unsignedNumeral?
  cases hb with
  | whole hd hne =>
    rw [takeDigits_append hd fun c hc => (hhead c hc).1]
    dsimp only
    split
    case h_1 rest => exact absurd rfl (hhead '.' rfl).2
    case h_2 =>
      dsimp only
      rw [List.append_nil, if_neg (by simpa using hne), hread]
      rfl
  | @point left right hd hne =>
    have hl : ∀ c ∈ left, isAsciiDigit c = true := fun c hc => hd c (List.mem_append_left _ hc)
    have hr : ∀ c ∈ right, isAsciiDigit c = true := fun c hc => hd c (List.mem_append_right _ hc)
    rw [List.append_assoc, List.cons_append, takeDigits_append hl (by simp [isAsciiDigit])]
    simp only [takeDigits_append hr fun c hc => (hhead c hc).1]
    rw [if_neg (by simpa using hne), hread]

theorem Mantissa.head {places : Nat} (h : Mantissa body ds places) :
    ∃ c rest, body = c :: rest ∧ (isAsciiDigit c = true ∨ c = '.') := by
  cases h with
  | whole hd hne =>
    obtain ⟨c, rest, rfl⟩ := List.exists_cons_of_ne_nil hne
    exact ⟨c, rest, rfl, .inl (hd c List.mem_cons_self)⟩
  | @point left right hd =>
    cases left with
    | nil => exact ⟨'.', right, rfl, .inr rfl⟩
    | cons c left => exact ⟨c, _, rfl, .inl (hd c List.mem_cons_self)⟩

theorem toLower_of_isAsciiDigit (h : isAsciiDigit c = true) : c.toLower = c := by
  have hc := toNat_of_isAsciiDigit h
  have hall : ∀ k < 10, (Char.ofNat (48 + k)).toLower = Char.ofNat (48 + k) := by decide
  have hchar := hall (c.toNat - 48) (by omega)
  rwa [(digit?_of_isAsciiDigit h).2] at hchar

/-- What a numeral is read as after its sign, which is no word. -/
theorem Spells.read (h : Spells cs n) : ∃ rest, takeSign cs = (n.negative, rest) ∧
    unsignedNumeral? n.negative rest = some n ∧
    ∀ w : String, w.toList.head?.all (fun c => !isAsciiDigit c && c != '.') = true → String.ofList (lowercase rest) ≠ w := by
  obtain ⟨hs, hb, ht⟩ := h
  obtain ⟨c, more, hbody, hc⟩ := hb.head
  have hother : c ≠ '-' ∧ c ≠ '+' := by
    rcases hc with hc | rfl
    · exact digit_ne hc
    · decide
  refine ⟨_, hs.takeSign ?_, unsignedNumeral?_of_mantissa hb ht, ?_⟩
  · intro d hd
    rw [hbody, List.cons_append] at hd
    exact Option.some.inj hd ▸ hother
  · rintro w hw rfl
    have hlower : c.toLower = c := by
      rcases hc with hc | rfl
      · exact toLower_of_isAsciiDigit hc
      · rfl
    rw [String.toList_ofList, hbody, List.cons_append, lowercase, List.map_cons, List.head?_cons, Option.all_some,
      hlower, Bool.and_eq_true, Bool.not_eq_true', bne_iff_ne] at hw
    rcases hc with hc | hc
    · exact absurd hc (by simp [hw.1])
    · exact hw.2 hc

theorem Spells.ne_nil (h : Spells cs n) : cs ≠ [] := by
  obtain ⟨-, hb, -⟩ := h
  obtain ⟨c, rest, hbody, -⟩ := hb.head
  simp [hbody]

/-- A text that spells a number is read as this number if it is in the range, and else not at all. -/
theorem ofText?_of_spelled {s : String} (h : Spelled s n) : Decimal.ofText? s =
    if n.InRange then some (.finite n.negative n.coefficient n.exponent) else none := by
  obtain ⟨left, body, right, cs, hs, hblank, hstands, hspells⟩ := h
  obtain ⟨hl, hr⟩ := List.forall_mem_append.mp hblank
  obtain ⟨rest, hsign, hread, hword⟩ := hspells.read
  have htrim := trim_between hl hr hstands.no_blank (hstands.ne_nil hspells.ne_nil)
  unfold Decimal.ofText?
  rw [hs, htrim, hstands.filter_plainDigits]
  dsimp only
  rw [hsign]
  dsimp only
  rw [if_neg (by simp [hword "inf" rfl, hword "infinity" rfl]), if_neg (hword "nan" rfl), hread]
  by_cases hrange : n.InRange
  · rw [if_pos hrange]
    exact if_pos ⟨hrange.first, hrange.last⟩
  · rw [if_neg hrange]
    exact if_neg fun h => hrange ⟨h.1, h.2⟩

/-- A text that spells a number is read as a floating-point number. -/
theorem isSome_of_spelled {s : String} (h : Spelled s n) : (Binary64.ofText? s).isSome = true := by
  obtain ⟨left, body, right, cs, hs, hblank, hstands, hspells⟩ := h
  obtain ⟨hl, hr⟩ := List.forall_mem_append.mp hblank
  obtain ⟨rest, hsign, hread, hword⟩ := hspells.read
  have htrim := trim_between hl hr hstands.no_blank (hstands.ne_nil hspells.ne_nil)
  unfold Binary64.ofText?
  rw [hs, htrim, hstands.dropUnderscores?_plainDigits, Option.bind_eq_bind, Option.bind_some, hsign]
  dsimp only
  rw [if_neg (by simp [hword "inf" rfl, hword "infinity" rfl]), if_neg (hword "nan" rfl), hread]
  rfl

/-! ### Numbers written -/

theorem Spelled.of_chars {s : String} (h : ∀ c ∈ s.toList, isNumeral c = true) (hs : Spells s.toList n) : Spelled s n :=
  ⟨[], s.toList, [], s.toList, by simp, by simp, .refl h, hs⟩

/-- The sign that numbers are written with. -/
theorem sign_minus (negative : Bool) : Sign (if negative then ['-'] else []) negative := by
  cases negative with
  | true => exact .minus
  | false => exact .none

/-- An integer is written as a text that spells it. -/
theorem spelled_intText (m : Int) : Spelled (intText m) ⟨decide (m < 0), m.natAbs, 0⟩ := by
  refine .of_chars (mem_intText m) ?_
  have hspells := Spells.intro (sign_minus (decide (m < 0))) (.whole (digits_digitsOf m.natAbs) (digitsOf_ne_nil _)) .none
  rw [natOfDigits_digitsOf] at hspells
  rw [intText, String.toList_ofList]
  split
  case isTrue hm => simpa [hm] using hspells
  case isFalse hm => simpa [hm] using hspells

theorem mantissa_of_digits (hl : ∀ c ∈ left, isAsciiDigit c = true) (hr : ∀ c ∈ right, isAsciiDigit c = true)
    (hne : left ≠ []) :
    Mantissa (left ++ if right.isEmpty then [] else '.' :: right) (left ++ right) right.length := by
  cases right with
  | nil =>
    rw [List.isEmpty_nil, if_pos rfl, List.append_nil]
    exact .whole hl hne
  | cons c right => exact .point (List.forall_mem_append.mpr ⟨hl, hr⟩) (List.append_ne_nil_of_left_ne_nil hne _)

/-- Plain notation spells its number. -/
theorem Plain.Valid.spelled {p : Plain} (h : p.Valid) : Spelled p.text p.numeral := by
  have hspells := Spells.intro (sign_minus p.negative) (mantissa_of_digits h.whole h.fraction h.leading.1) .none
  have hchars : p.text.toList = (if p.negative then ['-'] else []) ++ (p.body ++ []) := by
    rw [text, String.toList_ofList, Plain.chars, List.append_nil]
    cases p.negative <;> rfl
  have hnumeral : ∀ c ∈ p.digits, isNumeral c = true := fun c hc => isNumeral_of_isAsciiDigit (h.digits c hc)
  refine .of_chars ?_ ?_
  · have hbody : ∀ c ∈ p.body, isNumeral c = true := by
      intro c hc
      rcases List.mem_append.mp hc with hc | hc
      · exact hnumeral c (List.mem_append_left _ hc)
      · split at hc
        · exact absurd hc List.not_mem_nil
        · rcases List.mem_cons.mp hc with rfl | hc
          · decide
          · exact hnumeral c (List.mem_append_right _ hc)
    rw [hchars, List.append_nil]
    refine List.forall_mem_append.mpr ⟨List.all_eq_true.mp ?_, hbody⟩
    cases p.negative <;> rfl
  · rw [Int.zero_sub] at hspells
    rw [hchars]
    exact hspells

theorem exponent_of_parts (e? : Option Int) :
    Exponent ((e?.map fun k => 'e' :: Binary64.exponentText k).getD []) (e?.getD 0) := by
  cases e? with
  | none => exact .none
  | some k =>
    have hvalue := Parts.natOfDigits_exponentText k
    rw [Option.map_some, Option.getD_some, Option.getD_some, Parts.exponentText_eq]
    by_cases hk : k < 0
    · have hmark := Exponent.mark (.inl rfl) .minus Parts.isAsciiDigit_exponentText
        (Parts.tail_exponentText_ne_nil k)
      rw [if_pos rfl, hvalue, Int.ofNat_natAbs_of_nonpos hk.le, neg_neg] at hmark
      rwa [if_pos hk]
    · have hmark := Exponent.mark (.inl rfl) .plus Parts.isAsciiDigit_exponentText
        (Parts.tail_exponentText_ne_nil k)
      rw [if_neg Bool.false_ne_true, hvalue, Int.natAbs_of_nonneg (not_lt.mp hk)] at hmark
      rwa [if_neg hk]

/-- A finite floating-point number is written as a text that spells a number in the range, which is read back
as the finite one. -/
theorem spelled_float {m : Nat} (negative : Bool) (hc : Canonical m e) : ∃ n : Numeral,
    Spelled (Binary64.finite negative m e hc).text n ∧ n.InRange ∧
      n.toBinary64 = .finite negative m e hc := by
  obtain ⟨p, hp, htext, hvalue, hsmall⟩ := exists_text negative hc
  have hspells := Spells.intro (sign_minus negative) (mantissa_of_digits hp.whole hp.fraction hp.nonempty)
    (exponent_of_parts p.exponent)
  refine ⟨p.numeral negative, .of_chars (mem_text negative hc) ?_, ?_, hvalue⟩
  · rw [htext]
    have hchars : (if negative then '-' :: p.chars else p.chars) = (if negative then ['-'] else []) ++ p.chars := by
      cases negative <;> rfl
    rw [hchars, Parts.chars, ← List.append_assoc p.whole]
    exact hspells
  · have hfew : natOfDigits (p.whole ++ p.fraction) < 10 ^ 61 := hsmall.digits.trans (by decide)
    have hcount := digitCount_le (by decide) hfew
    have hpos := digitCount_pos (natOfDigits (p.whole ++ p.fraction))
    have hexponent := hsmall.exponent
    constructor
    · change (p.exponent.getD 0 - p.fraction.length) + (Decimal.digitCount (natOfDigits (p.whole ++ p.fraction)) : Int) - 1 ≤ _
      omega
    · change _ ≤ p.exponent.getD 0 - (p.fraction.length : Int)
      omega

end LiveSvg.Number
