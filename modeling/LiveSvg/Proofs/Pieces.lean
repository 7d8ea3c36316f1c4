import LiveSvg.Script.Token
import Mathlib.Data.List.Basic
/-!
The pieces that a script is read in. What stands on one line is read alike whatever lines come after it;
a text between quotation marks is so if it ends on the line.
-/

namespace LiveSvg.Script.Token

open Number Text

/-! ### Up to the end of a line -/

theorem takeWhile_line {p : Char → Bool} (hp : p '\n' = false) (u w : List Char) :
    (u ++ '\n' :: w).takeWhile p = u.takeWhile p := by
  induction u with
  | nil => simp [hp]
  | cons c u ih => simp only [List.cons_append, List.takeWhile_cons, ih]

theorem dropWhile_line {p : Char → Bool} (hp : p '\n' = false) (u w : List Char) :
    (u ++ '\n' :: w).dropWhile p = u.dropWhile p ++ '\n' :: w := by
  induction u with
  | nil => simp [hp]
  | cons c u ih =>
    simp only [List.cons_append, List.dropWhile_cons, ih]
    split <;> rfl

theorem isPrefixOf_line {p : List Char} (hp : '\n' ∉ p) (u w : List Char) :
    p.isPrefixOf (u ++ '\n' :: w) = p.isPrefixOf u := by
  induction p generalizing u with
  | nil => simp
  | cons a p ih =>
    rw [List.mem_cons, not_or] at hp
    cases u with
    | nil => simp [List.isPrefixOf, Ne.symm hp.1]
    | cons c u => simp [List.isPrefixOf, ih hp.2]

theorem length_le_of_isPrefixOf {p u : List Char} (h : p.isPrefixOf u = true) : p.length ≤ u.length :=
  (List.isPrefixOf_iff_prefix.mp h).length_le

/-! ### Numbers -/

/-- The digits that a text starts with, with underscores, and the rest. -/
def digitRun (cs : List Char) : List Char × List Char :=
  (cs.takeWhile (fun c => isAsciiDigit c || c == '_'), cs.dropWhile (fun c => isAsciiDigit c || c == '_'))

/-- The digits after a point, the rest, and whether there is a point. -/
def fraction (cs : List Char) : List Char × List Char × Bool :=
  match cs with
  | '.' :: rest =>
    let (ds, rest) := digitRun rest
    (ds, rest, true)
  | _ => ([], cs, false)

/-- An exponent with its sign, and the rest. -/
def exponent (cs : List Char) : Option (Bool × List Char) × List Char :=
  match cs with
  | c :: after =>
    if c = 'e' ∨ c = 'E' then
      let (negative, unsigned) := takeSign after
      match digitRun unsigned with
      | ([], _) => (none, cs)
      | (ds, rest) => (some (negative, ds), rest)
    else (none, cs)
  | [] => (none, [])

/-- Whether an identifier goes on. -/
def goesOn : List Char → Bool
  | c :: _ => isIdentifierPart c
  | [] => false

/-- The number of such parts, unless an identifier goes on where they end. -/
def number (whole fraction : List Char) (hasPoint : Bool) (e? : Option (Bool × List Char)) (rest : List Char) :
    Option (Token × List Char) := do
  if goesOn rest then none
  else if hasPoint || e?.isSome then
    let e ← match e? with
      | some (negative, ds) => do
        let n : Int := natOfDigits (← dropUnderscores? ' ' ds)
        pure (if negative then -n else n)
      | none => pure 0
    let n : Numeral := ⟨false, natOfDigits (whole ++ fraction), e - fraction.length⟩
    return (.float n.toBinary64, rest)
  else if whole.head? == some '0' && whole.any (· ≠ '0') then none
  else if maxIntDigits < whole.length then none
  else return (.int (natOfDigits whole), rest)

theorem takeNumber_eq (cs : List Char) :
    takeNumber cs = dropUnderscores? ' ' (digitRun cs).1 >>= fun whole =>
      dropUnderscores? ' ' (fraction (digitRun cs).2).1 >>= fun ds =>
        number whole ds (fraction (digitRun cs).2).2.2 (exponent (fraction (digitRun cs).2).2.1).1
          (exponent (fraction (digitRun cs).2).2.1).2 := by
  refine bind_congr fun whole => bind_congr fun ds => ?_
  rfl

theorem digitRun_line (u w : List Char) : digitRun (u ++ '\n' :: w) = ((digitRun u).1, (digitRun u).2 ++ '\n' :: w) := by
  rw [digitRun, takeWhile_line (by decide), dropWhile_line (by decide)]
  rfl

theorem fraction_other {c : Char} (hc : c ≠ '.') (cs : List Char) : fraction (c :: cs) = ([], c :: cs, false) := by
  rw [fraction]
  intro rest h
  exact hc (List.cons.inj h).1

theorem fraction_line (u w : List Char) :
    fraction (u ++ '\n' :: w) = ((fraction u).1, (fraction u).2.1 ++ '\n' :: w, (fraction u).2.2) := by
  rcases u with _ | ⟨c, u⟩
  · rfl
  · by_cases hc : c = '.'
    · subst hc
      simp only [List.cons_append, fraction, digitRun_line]
    · rw [List.cons_append, fraction_other hc, fraction_other hc]
      rfl

theorem takeSign_line (u w : List Char) : takeSign (u ++ '\n' :: w) = ((takeSign u).1, (takeSign u).2 ++ '\n' :: w) := by
  have hother : ∀ c cs, c ≠ '-' → c ≠ '+' → takeSign (c :: cs) = (false, c :: cs) := by
    intro c cs hm hp
    rw [takeSign] <;> simp [hm, hp]
  rcases u with _ | ⟨c, u⟩
  · rfl
  · by_cases hm : c = '-'
    · subst hm
      rfl
    by_cases hp : c = '+'
    · subst hp
      rfl
    rw [List.cons_append, hother c _ hm hp, hother c _ hm hp]
    rfl

theorem exponent_line (u w : List Char) :
    exponent (u ++ '\n' :: w) = ((exponent u).1, (exponent u).2 ++ '\n' :: w) := by
  rcases u with _ | ⟨c, u⟩
  · rfl
  · simp only [List.cons_append, exponent]
    split
    · rw [takeSign_line]
      dsimp only
      rw [digitRun_line]
      cases hd : digitRun (takeSign u).2 with
      | mk ds rest => cases ds <;> simp
    · rfl

theorem goesOn_line (u w : List Char) : goesOn (u ++ '\n' :: w) = goesOn u := by
  cases u with
  | nil =>
    show isIdentifierPart '\n' = false
    decide
  | cons c u => rfl

/-- Of what comes after a number only how it starts matters. -/
theorem number_eq (whole ds : List Char) (hasPoint : Bool) (e? : Option (Bool × List Char)) (rest : List Char) :
    number whole ds hasPoint e? rest =
      if goesOn rest then none else (number whole ds hasPoint e? []).map fun y => (y.1, rest) := by
  simp only [number]
  by_cases h : goesOn rest = true
  · rw [if_pos h, if_pos h]
  · rw [if_neg h, if_neg h]
    cases e? with
    | none =>
      cases hasPoint with
      | true => rfl
      | false =>
        simp only [goesOn, Option.isSome_none, Bool.or_self, Bool.false_eq_true, if_false]
        split
        · rfl
        · split <;> rfl
    | some e => cases h : dropUnderscores? ' ' e.2 <;> simp [h, goesOn]

theorem number_line (whole ds : List Char) (hasPoint : Bool) (e? : Option (Bool × List Char)) (u w : List Char) :
    number whole ds hasPoint e? (u ++ '\n' :: w) =
      (number whole ds hasPoint e? u).map fun y => (y.1, y.2 ++ '\n' :: w) := by
  rw [number_eq, number_eq _ _ _ _ u, goesOn_line]
  split
  · rfl
  · rw [Option.map_map]
    rfl

theorem takeNumber_line (u w : List Char) :
    takeNumber (u ++ '\n' :: w) = (takeNumber u).map fun y => (y.1, y.2 ++ '\n' :: w) := by
  rw [takeNumber_eq, takeNumber_eq u, digitRun_line]
  dsimp only
  rw [fraction_line]
  dsimp only
  rw [exponent_line]
  dsimp only
  cases dropUnderscores? ' ' (digitRun u).1 with
  | none => rfl
  | some whole =>
    cases dropUnderscores? ' ' (fraction (digitRun u).2).1 with
    | none => rfl
    | some ds => exact number_line ..

theorem digitRun_suffix (cs : List Char) : (digitRun cs).2 <:+ cs := List.dropWhile_suffix _

theorem takeSign_suffix (cs : List Char) : (takeSign cs).2 <:+ cs := by
  unfold takeSign
  split
  · exact List.suffix_cons ..
  · exact List.suffix_cons ..
  · exact List.suffix_rfl

theorem exponent_suffix (cs : List Char) : (exponent cs).2 <:+ cs := by
  rcases cs with _ | ⟨c, cs⟩
  · exact List.suffix_rfl
  · have hrest : (digitRun (takeSign cs).2).2 <:+ c :: cs :=
      ((digitRun_suffix _).trans (takeSign_suffix cs)).trans (List.suffix_cons c cs)
    simp only [exponent]
    split
    · cases hd : digitRun (takeSign cs).2 with
      | mk ds rest =>
        rw [hd] at hrest
        cases ds
        · exact List.suffix_rfl
        · exact hrest
    · exact List.suffix_rfl

theorem fraction_suffix (cs : List Char) : (fraction cs).2.1 <:+ cs := by
  unfold fraction
  split
  · exact (digitRun_suffix _).trans (List.suffix_cons ..)
  · exact List.suffix_rfl

theorem takeNumber_rest {cs v : List Char} {t : Token} (h : takeNumber cs = some (t, v)) :
    v = (exponent (fraction (digitRun cs).2).2.1).2 := by
  rw [takeNumber_eq] at h
  obtain ⟨whole, -, h⟩ := Option.bind_eq_some_iff.mp h
  obtain ⟨ds, -, h⟩ := Option.bind_eq_some_iff.mp h
  rw [number_eq] at h
  split at h
  · cases h
  · obtain ⟨y, -, hy⟩ := Option.map_eq_some_iff.mp h
    exact (Prod.mk.inj hy).2.symm

/-- A number takes at least its first character. -/
theorem takeNumber_suffix {c : Char} {u v : List Char} {t : Token}
    (hc : isAsciiDigit c = true ∨ c = '.') (h : takeNumber (c :: u) = some (t, v)) : v <:+ u := by
  rw [takeNumber_rest h]
  refine (exponent_suffix _).trans ?_
  rcases hc with hc | rfl
  · have hd : digitRun (c :: u) = (c :: (digitRun u).1, (digitRun u).2) := by
      simp [digitRun, hc]
    rw [hd]
    exact (fraction_suffix _).trans (digitRun_suffix u)
  · exact digitRun_suffix u

/-! ### Texts -/

theorem takeHex_line {count n : Nat} {u v : List Char} (h : takeHex count u = some (n, v)) (w : List Char) :
    takeHex count (u ++ '\n' :: w) = some (n, v ++ '\n' :: w) ∧ v <:+ u := by
  simp only [takeHex] at h ⊢
  split at h
  · next hlen =>
    have hle : count ≤ u.length := by
      rw [List.length_take] at hlen
      omega
    rw [List.take_append_of_le_length hle, List.drop_append_of_le_length hle, if_pos hlen]
    obtain ⟨k, hk, h⟩ := Option.bind_eq_some_iff.mp h
    cases h
    rw [hk]
    exact ⟨rfl, List.drop_suffix ..⟩
  · cases h

theorem takeWhile_take_line {p : Char → Bool} (hp : p '\n' = false) (k : Nat) (u w : List Char) :
    ((u ++ '\n' :: w).take k).takeWhile p = (u.take k).takeWhile p := by
  by_cases hk : k ≤ u.length
  · rw [List.take_append_of_le_length hk]
  · obtain ⟨j, rfl⟩ : ∃ j, k = u.length + (j + 1) := ⟨k - u.length - 1, by omega⟩
    rw [List.take_length_add_append, List.take_succ_cons, takeWhile_line hp, List.take_of_length_le (by omega)]

theorem takeEscape_line {u v found : List Char} (h : takeEscape u = some (found, v)) (w : List Char) :
    takeEscape (u ++ '\n' :: w) = some (found, v ++ '\n' :: w) ∧ v <:+ u := by
  unfold takeEscape at h
  split at h
  · cases h
  · cases h
    exact ⟨rfl, List.suffix_cons ..⟩
  · obtain ⟨⟨n, r⟩, hn, hy⟩ := Option.map_eq_some_iff.mp h
    cases hy
    obtain ⟨hn, hr⟩ := takeHex_line hn w
    refine ⟨?_, hr.trans (List.suffix_cons ..)⟩
    rw [List.cons_append, takeEscape, hn]
    rfl
  · obtain ⟨⟨n, r⟩, hn, hy⟩ := Option.map_eq_some_iff.mp h
    cases hy
    obtain ⟨hn, hr⟩ := takeHex_line hn w
    refine ⟨?_, hr.trans (List.suffix_cons ..)⟩
    rw [List.cons_append, takeEscape, hn]
    rfl
  · obtain ⟨⟨n, r⟩, hn, hy⟩ := Option.bind_eq_some_iff.mp h
    obtain ⟨hn, hr⟩ := takeHex_line hn w
    dsimp only at hy
    split at hy
    · next hlt =>
      cases hy
      refine ⟨?_, hr.trans (List.suffix_cons ..)⟩
      rw [List.cons_append, takeEscape, hn]
      exact if_pos hlt
    · cases hy
  · cases h
  · next c u hn hx hu hU hN =>
    rw [List.cons_append, takeEscape]
    · cases hs : simpleEscape? c with
      | some d =>
        rw [hs] at h
        cases h
        exact ⟨rfl, List.suffix_cons ..⟩
      | none =>
        rw [hs] at h
        dsimp only at h ⊢
        split at h
        · next ho =>
          rw [if_pos ho, ← List.cons_append, takeWhile_take_line (by decide)]
          cases h
          have hle : (((c :: u).take 3).takeWhile isOctal).length ≤ (c :: u).length :=
            ((List.takeWhile_sublist _).trans (List.take_sublist ..)).length_le
          rw [List.drop_append_of_le_length hle]
          exact ⟨rfl, List.drop_suffix ..⟩
        · next ho =>
          rw [if_neg ho]
          cases h
          exact ⟨rfl, List.suffix_cons ..⟩
    · exact hn
    · exact hx
    · exact hu
    · exact hU
    · exact hN

theorem takeText_line {closing : List Char} (hc : '\n' ∉ closing) {n m : Nat} (hn : n ≤ m) {u v done : List Char}
    {s : String} (h : takeText n closing done u = some (s, v)) (w : List Char) :
    takeText m closing done (u ++ '\n' :: w) = some (s, v ++ '\n' :: w) ∧ v <:+ u := by
  induction n generalizing m done u with
  | zero => cases h
  | succ n ih =>
    obtain ⟨m, rfl⟩ : ∃ k, m = k + 1 := ⟨m - 1, by omega⟩
    rcases u with _ | ⟨c, u⟩
    · cases h
    · by_cases hb : c = '\x5c'
      · subst hb
        obtain ⟨⟨found, r⟩, he, h⟩ := Option.bind_eq_some_iff.mp h
        obtain ⟨he', hr⟩ := takeEscape_line he w
        obtain ⟨ht, hv⟩ := ih (Nat.le_of_succ_le_succ hn) h
        refine ⟨?_, (hv.trans hr).trans (List.suffix_cons ..)⟩
        rw [List.cons_append, takeText, he']
        exact ht
      · have hother : ∀ k rest, takeText (k + 1) closing done (c :: rest) =
            if closing.isPrefixOf (c :: rest) then some (String.ofList done.reverse, (c :: rest).drop closing.length)
            else if c = '\n' ∧ closing.length = 1 then none
            else takeText k closing (c :: done) rest := by
          intro k rest
          rw [takeText]
          exact hb
        rw [hother] at h
        rw [List.cons_append, hother, ← List.cons_append, isPrefixOf_line hc]
        split at h
        · next hp =>
          rw [if_pos hp, List.drop_append_of_le_length (length_le_of_isPrefixOf hp)]
          cases h
          exact ⟨rfl, List.drop_suffix ..⟩
        · next hp =>
          rw [if_neg hp]
          split at h
          · cases h
          · next hl =>
            rw [if_neg hl]
            obtain ⟨ht, hv⟩ := ih (Nat.le_of_succ_le_succ hn) h
            exact ⟨ht, hv.trans (List.suffix_cons ..)⟩

theorem takeQuoted_line {mark : Char} (hm : mark ≠ '\n') {u v : List Char} {t : Token}
    (h : takeQuoted mark u = some (t, v)) (w : List Char) :
    takeQuoted mark (u ++ '\n' :: w) = some (t, v ++ '\n' :: w) ∧ v <:+ u := by
  have hone : '\n' ∉ [mark] := by simp [Ne.symm hm]
  have htwo : '\n' ∉ [mark, mark] := by simp [Ne.symm hm]
  have hthree : '\n' ∉ [mark, mark, mark] := by simp [Ne.symm hm]
  have hlen : u.length + 1 ≤ (u ++ '\n' :: w).length + 1 := by simp
  simp only [takeQuoted] at h ⊢
  rw [isPrefixOf_line htwo]
  split at h
  · next hp =>
    obtain ⟨⟨s, r⟩, hs, h⟩ := Option.bind_eq_some_iff.mp h
    cases h
    obtain ⟨ht, hv⟩ := takeText_line hthree hlen hs w
    have hle : 2 ≤ u.length := length_le_of_isPrefixOf hp
    rw [if_pos hp, List.drop_append_of_le_length hle, ht]
    exact ⟨rfl, hv.trans (List.drop_suffix ..)⟩
  · next hp =>
    obtain ⟨⟨s, r⟩, hs, h⟩ := Option.bind_eq_some_iff.mp h
    cases h
    obtain ⟨ht, hv⟩ := takeText_line hone hlen hs w
    rw [if_neg hp, ht]
    exact ⟨rfl, hv⟩

/-! ### Signs -/

theorem longSigns_flat : ∀ s ∈ longSigns, '\n' ∉ s.toList ∧ s.toList ≠ [] := by
  decide

theorem takeSigns_line (u w : List Char) :
    takeSigns (u ++ '\n' :: w) = (takeSigns u).map fun y => (y.1, y.2 ++ '\n' :: w) := by
  have hfind : ∀ ss : List String, (∀ s ∈ ss, '\n' ∉ s.toList) →
      (ss.find? fun s => s.toList.isPrefixOf (u ++ '\n' :: w)) = ss.find? fun s => s.toList.isPrefixOf u := by
    intro ss hss
    induction ss with
    | nil => rfl
    | cons s ss ih =>
      simp only [List.find?_cons, isPrefixOf_line (hss s (List.mem_cons_self ..)),
        ih fun s hs => hss s (List.mem_cons_of_mem _ hs)]
  unfold takeSigns
  rw [hfind _ fun s hs => (longSigns_flat s hs).1]
  cases hs : longSigns.find? fun s => s.toList.isPrefixOf u with
  | some s =>
    have hle : s.length ≤ u.length := length_le_of_isPrefixOf (List.find?_some (p := fun s : String => s.toList.isPrefixOf u) hs)
    dsimp only [Option.map_some]
    rw [List.drop_append_of_le_length hle]
  | none =>
    rcases u with _ | ⟨c, u⟩
    · rfl
    · dsimp only [List.cons_append]
      split <;> rfl

theorem takeSigns_suffix {c : Char} {u v : List Char} {s : String} (h : takeSigns (c :: u) = some (s, v)) :
    v <:+ u := by
  unfold takeSigns at h
  split at h
  · next s' hs =>
    cases h
    have hpos : 0 < s.toList.length := List.length_pos_iff.mpr (longSigns_flat s (List.mem_of_find?_eq_some hs)).2
    rw [String.length_toList] at hpos
    obtain ⟨k, hk⟩ : ∃ k, s.length = k + 1 := ⟨s.length - 1, by omega⟩
    rw [hk, List.drop_succ_cons]
    exact List.drop_suffix ..
  · dsimp only at h
    split at h
    · cases h
      exact List.suffix_rfl
    · cases h

/-! ### One piece -/

/-- The brackets that are open after a sign. -/
def bracketed (brackets : Nat) (s : String) : Option Nat :=
  if isOpening s then if brackets ≥ maxBrackets then none else some (brackets + 1)
  else if isClosing s then if brackets = 0 then none else some (brackets - 1)
  else some brackets

/-- The tokens of what a character starts, the brackets then open, and the rest. -/
def piece (brackets : Nat) (c : Char) (rest : List Char) : Option (List Token × Nat × List Char) :=
  if c = ' ' ∨ c = '\t' ∨ c = '\x0c' then some ([], brackets, rest)
  else if c = '\x22' ∨ c = '\x27' then (takeQuoted c rest).map fun y => ([y.1], brackets, y.2)
  else if isIdentifierStart c then
    if isIdentifierPart c then
      some ([.name (String.ofList (c :: rest.takeWhile isIdentifierPart))], brackets, rest.dropWhile isIdentifierPart)
    else none
  else if isAsciiDigit c || (c == '.' && (rest.head?.map isAsciiDigit).getD false) then
    (takeNumber (c :: rest)).map fun y => ([y.1], brackets, y.2)
  else (takeSigns (c :: rest)).bind fun y => (bracketed brackets y.1).map fun b => ([.sign y.1], b, y.2)

/-- Whether a text between quotation marks that starts here ends on its line. -/
def isClosed (c : Char) (u : List Char) : Bool :=
  if c = '\x22' ∨ c = '\x27' then (takeQuoted c u).isSome else true

theorem piece_line {brackets : Nat} {c : Char} {u : List Char} (h : isClosed c u = true) (w : List Char) :
    piece brackets c (u ++ '\n' :: w) = (piece brackets c u).map fun y => (y.1, y.2.1, y.2.2 ++ '\n' :: w) := by
  have hhead : ((u ++ '\n' :: w).head?.map isAsciiDigit).getD false = (u.head?.map isAsciiDigit).getD false := by
    cases u with
    | nil =>
      show isAsciiDigit '\n' = false
      decide
    | cons d u => rfl
  unfold piece
  rw [hhead]
  split
  · rfl
  split
  · next hq =>
    rw [isClosed, if_pos hq] at h
    obtain ⟨⟨t, v⟩, ht⟩ := Option.isSome_iff_exists.mp h
    have hc : c ≠ '\n' := by
      rintro rfl
      exact absurd hq (by decide)
    rw [(takeQuoted_line hc ht w).1, ht]
    rfl
  split
  · split
    · rw [takeWhile_line (by decide), dropWhile_line (by decide)]
      rfl
    · rfl
  split
  · rw [← List.cons_append, takeNumber_line, Option.map_map, Option.map_map]
    rfl
  · rw [← List.cons_append, takeSigns_line]
    cases takeSigns (c :: u) with
    | none => rfl
    | some y =>
      dsimp only [Option.map_some, Option.bind_some]
      rw [Option.map_map]
      rfl

theorem takeNumber_token {cs v : List Char} {t : Token} (h : takeNumber cs = some (t, v)) : t ≠ .indent := by
  rw [takeNumber_eq] at h
  obtain ⟨whole, -, h⟩ := Option.bind_eq_some_iff.mp h
  obtain ⟨ds, -, h⟩ := Option.bind_eq_some_iff.mp h
  rintro rfl
  simp only [number] at h
  split at h
  · cases h
  split at h
  · split at h
    · obtain ⟨n, -, h⟩ := Option.bind_eq_some_iff.mp h
      cases h
    · cases h
  split at h
  · cases h
  split at h
  · cases h
  · cases h

theorem takeQuoted_token {c : Char} {u v : List Char} {t : Token} (h : takeQuoted c u = some (t, v)) : t ≠ .indent := by
  rintro rfl
  simp only [takeQuoted] at h
  split at h
  · obtain ⟨y, -, h⟩ := Option.bind_eq_some_iff.mp h
    cases h
  · obtain ⟨y, -, h⟩ := Option.bind_eq_some_iff.mp h
    cases h

/-- A piece takes at least its first character, and says nothing about the depth of its line. -/
theorem piece_spec {brackets b : Nat} {c : Char} {u v : List Char} {ts : List Token}
    (h : piece brackets c u = some (ts, b, v)) : v <:+ u ∧ Token.indent ∉ ts := by
  unfold piece at h
  split at h
  · cases h
    exact ⟨List.suffix_rfl, List.not_mem_nil⟩
  split at h
  · next hq =>
    obtain ⟨⟨t, r⟩, ht, hy⟩ := Option.map_eq_some_iff.mp h
    cases hy
    have hc : c ≠ '\n' := by
      rintro rfl
      exact absurd hq (by decide)
    exact ⟨(takeQuoted_line hc ht []).2, by simpa using (takeQuoted_token ht).symm⟩
  split at h
  · split at h
    · cases h
      exact ⟨List.dropWhile_suffix _, by simp⟩
    · cases h
  split at h
  · next hn =>
    obtain ⟨⟨t, r⟩, ht, hy⟩ := Option.map_eq_some_iff.mp h
    cases hy
    have hc : isAsciiDigit c = true ∨ c = '.' := by
      rw [Bool.or_eq_true, Bool.and_eq_true, beq_iff_eq] at hn
      exact hn.imp_right And.left
    exact ⟨takeNumber_suffix hc ht, by simpa using (takeNumber_token ht).symm⟩
  · obtain ⟨⟨s, r⟩, hs, hy⟩ := Option.bind_eq_some_iff.mp h
    obtain ⟨k, -, hy⟩ := Option.map_eq_some_iff.mp hy
    cases hy
    exact ⟨takeSigns_suffix hs, by simp⟩

end LiveSvg.Script.Token
