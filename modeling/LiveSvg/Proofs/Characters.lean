import LiveSvg.Text.Utf8
/-!
What the characters of a text are: its bytes spell them, each in its shortest form, and are read as no
others.
-/

namespace LiveSvg.Text

namespace Utf8

theorem char?_toNat (c : Char) : char? c.toNat = some c := by
  unfold char?
  rw [dif_pos (show c.toNat.isValidChar from c.valid)]
  rfl

theorem tail?_ofNat (n : Nat) : tail? (UInt8.ofNat (n % 64 + 128)) = some (n % 64) := by
  have hb : (UInt8.ofNat (n % 64 + 128)).toNat = n % 64 + 128 := UInt8.toNat_ofNat_of_lt' (show _ < 256 by omega)
  unfold tail?
  simp only [UInt8.le_iff_toNat_le, UInt8.lt_iff_toNat_lt, UInt8.reduceToNat, hb]
  rw [if_pos (by omega)]
  exact congrArg some (by omega)

variable {b b₁ b₂ b₃ : UInt8} {bs : List UInt8} {t t₁ t₂ t₃ : Nat} {c : Char}

theorem decode?_one (h : b.toNat < 0x80) : decode? (b :: bs) = (decode? bs).map (Char.ofNat b.toNat :: ·) := by
  rw [decode?.eq_def]
  exact if_pos (UInt8.lt_iff_toNat_lt.mpr h)

theorem decode?_two (h : 0xc2 ≤ b.toNat) (h' : b.toNat < 0xe0) (h₁ : tail? b₁ = some t₁)
    (hc : char? ((b.toNat - 0xc0) * 64 + t₁) = some c) :
    decode? (b :: b₁ :: bs) = (decode? bs).map (c :: ·) := by
  rw [decode?.eq_def]
  simp only [UInt8.lt_iff_toNat_lt, UInt8.reduceToNat]
  rw [if_neg (by omega), if_neg (by omega), if_pos h', h₁, Option.bind_eq_bind, Option.bind_some, hc]
  cases decode? bs <;> rfl

theorem decode?_three (h : 0xe0 ≤ b.toNat) (h' : b.toNat < 0xf0) (h₁ : tail? b₁ = some t₁)
    (h₂ : tail? b₂ = some t₂) (hn : 0x800 ≤ ((b.toNat - 0xe0) * 64 + t₁) * 64 + t₂)
    (hc : char? (((b.toNat - 0xe0) * 64 + t₁) * 64 + t₂) = some c) :
    decode? (b :: b₁ :: b₂ :: bs) = (decode? bs).map (c :: ·) := by
  rw [decode?.eq_def]
  simp only [UInt8.lt_iff_toNat_lt, UInt8.reduceToNat]
  rw [if_neg (by omega), if_neg (by omega), if_neg (by omega), if_pos h', h₁, h₂]
  simp only [Option.bind_eq_bind, Option.bind_some]
  rw [if_neg (by omega), hc]
  cases decode? bs <;> rfl

theorem decode?_four (h : 0xf0 ≤ b.toNat) (h' : b.toNat < 0xf5) (h₁ : tail? b₁ = some t₁)
    (h₂ : tail? b₂ = some t₂) (h₃ : tail? b₃ = some t₃)
    (hn : 0x10000 ≤ (((b.toNat - 0xf0) * 64 + t₁) * 64 + t₂) * 64 + t₃)
    (hc : char? ((((b.toNat - 0xf0) * 64 + t₁) * 64 + t₂) * 64 + t₃) = some c) :
    decode? (b :: b₁ :: b₂ :: b₃ :: bs) = (decode? bs).map (c :: ·) := by
  rw [decode?.eq_def]
  simp only [UInt8.lt_iff_toNat_lt, UInt8.reduceToNat]
  rw [if_neg (by omega), if_neg (by omega), if_neg (by omega), if_neg (by omega), if_pos h', h₁, h₂, h₃]
  simp only [Option.bind_eq_bind, Option.bind_some]
  rw [if_neg (by omega), hc]
  cases decode? bs <;> rfl

/-- What a character is written as is read as that character. -/
theorem decode?_encode (c : Char) (bs : List UInt8) :
    decode? (String.utf8EncodeChar c ++ bs) = (decode? bs).map (c :: ·) := by
  obtain ⟨n, hn⟩ : ∃ n, c.val.toNat = n := ⟨_, rfl⟩
  have hc : char? n = some c := hn ▸ char?_toNat c
  have hlt : n < 0x110000 := by
    rcases c.valid with h | ⟨-, h⟩ <;> simp only [hn] at h <;> omega
  unfold String.utf8EncodeChar
  simp only [hn]
  by_cases h₁ : n ≤ 0x7f
  · rw [if_pos h₁]
    have hb : (UInt8.ofNat n).toNat = n := UInt8.toNat_ofNat_of_lt' (show n < 256 by omega)
    refine (decode?_one (by rw [hb]; omega)).trans ?_
    rw [hb, ← hn]
    exact congrArg (fun d => (decode? bs).map (d :: ·)) (Char.ofNat_toNat c)
  rw [if_neg h₁]
  by_cases h₂ : n ≤ 0x7ff
  · rw [if_pos h₂]
    have hb : (UInt8.ofNat (n / 64 % 32 + 192)).toNat = _ :=
      UInt8.toNat_ofNat_of_lt' (show _ < 256 by omega)
    refine decode?_two (by rw [hb]; omega) (by rw [hb]; omega) (tail?_ofNat n) ?_
    rw [hb, ← hc]
    exact congrArg char? (by omega)
  rw [if_neg h₂]
  by_cases h₃ : n ≤ 0xffff
  · rw [if_pos h₃]
    have hb : (UInt8.ofNat (n / 4096 % 16 + 224)).toNat = _ :=
      UInt8.toNat_ofNat_of_lt' (show _ < 256 by omega)
    have hv : ((n / 4096 % 16 + 224 - 0xe0) * 64 + n / 64 % 64) * 64 + n % 64 = n := by omega
    refine decode?_three (by rw [hb]; omega) (by rw [hb]; omega) (tail?_ofNat (n / 64)) (tail?_ofNat n) ?_ ?_ <;>
      rw [hb, hv]
    · omega
    · exact hc
  rw [if_neg h₃]
  have hb : (UInt8.ofNat (n / 262144 % 8 + 240)).toNat = _ :=
    UInt8.toNat_ofNat_of_lt' (show _ < 256 by omega)
  have hv : (((n / 262144 % 8 + 240 - 0xf0) * 64 + n / 4096 % 64) * 64 + n / 64 % 64) * 64 + n % 64 = n := by
    omega
  refine decode?_four (by rw [hb]; omega) (by rw [hb]; omega) (tail?_ofNat (n / 4096)) (tail?_ofNat (n / 64))
    (tail?_ofNat n) ?_ ?_ <;> rw [hb, hv]
  · omega
  · exact hc

theorem decode?_flatMap (l : List Char) : decode? (l.flatMap String.utf8EncodeChar) = some l := by
  induction l with
  | nil => rfl
  | cons c l ih => rw [List.flatMap_cons, decode?_encode, ih]; rfl

end Utf8

@[simp] theorem chars_eq (s : String) : chars s = s.toList := by
  obtain ⟨l, rfl⟩ : ∃ l, s = String.ofList l := ⟨s.toList, (String.ofList_toList).symm⟩
  have h : (String.ofList l).toByteArray.data.toList = l.flatMap String.utf8EncodeChar :=
    List.toList_data_toByteArray
  unfold chars
  rw [h, Utf8.decode?_flatMap, String.toList_ofList]
  rfl

end LiveSvg.Text
