import LiveSvg.Proofs.Rereading
import LiveSvg.Proofs.Spelling
/-!
The JSON text of a value in a section of character data: it may stand in a document as it is, and with
the ends of sections in it escaped it reaches as far as the section.
-/

namespace LiveSvg.Json

open Number Text
open Document (sectionSafe)
open Markup (isClean isMarkupChar Precedes isClean_append isClean_cons isClean_flatMap splitMarker)

variable {c : Char} {n depth : Nat} {cs : List Char} {v : Value}

/-! ### Clean text -/

theorem isClean_unitEscape (h : n < 0x10000) : isClean (unitEscape n) = true := by
  have hall : ∀ i : Fin 16, (isMarkupChar i.val.digitChar && i.val.digitChar != '\r') = true := by decide
  have hd : ∀ {i : Nat}, i < 16 → (isMarkupChar i.digitChar && i.digitChar != '\r') = true := fun {i} hi =>
    hall ⟨i, hi⟩
  unfold unitEscape
  rw [hexChars_four h]
  simp only [isClean_cons, hd (show n / 4096 < 16 by omega), hd (show n / 256 % 16 < 16 by omega),
    hd (show n / 16 % 16 < 16 by omega), hd (show n % 16 < 16 by omega)]
  decide

theorem isClean_singleton (h : 32 ≤ c.toNat) (h' : c.toNat < 128) : isClean [c] = true := by
  have hne : c ≠ '\r' := by
    rintro rfl
    exact absurd h (by decide)
  have h₁ : c.toNat ≠ 65534 := by omega
  have h₂ : c.toNat ≠ 65535 := by omega
  simp [isClean, isMarkupChar, h, hne, h₁, h₂]

theorem isClean_escapeChar (c : Char) : isClean (escapeChar c) = true := by
  have hv := c.valid
  simp only [UInt32.isValidChar, Nat.isValidChar, show c.val.toNat = c.toNat from rfl] at hv
  unfold escapeChar
  repeat' split
  · next h => rcases h with rfl | rfl <;> decide
  iterate 5 decide
  · next h => exact isClean_singleton h.1 h.2
  · exact isClean_unitEscape ‹_›
  · dsimp only
    rw [isClean_append, isClean_unitEscape (by omega), isClean_unitEscape (by omega)]
    rfl

theorem isClean_textChars (s : String) : isClean (textChars s) = true := by
  unfold textChars
  rw [List.cons_append, isClean_cons, isClean_append, isClean_flatMap fun c _ => isClean_escapeChar c]
  decide

theorem isClean_lead (k : Nat) : isClean (Layout.lead .tree k) = true := by
  have hblank : ∀ c ∈ List.replicate (2 * k) ' ', (isMarkupChar c && c != '\r') = true := fun c hc => by
    rw [List.eq_of_mem_replicate hc]
    decide
  have hblanks : isClean (List.replicate (2 * k) ' ') = true := List.all_eq_true.mpr hblank
  unfold Layout.lead
  rw [isClean_cons, hblanks]
  decide

theorem isClean_comma (k : Nat) : isClean (Layout.comma .tree k) = true := by
  unfold Layout.comma
  rw [isClean_cons, isClean_lead]
  decide

theorem isClean_of_isNumeral (h : ∀ c ∈ cs, isNumeral c = true) : isClean cs = true := by
  refine List.all_eq_true.mpr fun c hc => ?_
  have hn := h c hc
  simp only [isNumeral, Bool.or_eq_true, List.contains_iff_mem] at hn
  rcases hn with hn | hn
  · simp only [isAsciiDigit, Bool.and_eq_true, decide_eq_true_eq, Char.le_def, UInt32.le_iff_toNat_le] at hn
    have hlt : c.toNat < 128 := Nat.lt_of_le_of_lt hn.2 (by decide)
    have hle : 32 ≤ c.toNat := Nat.le_trans (by decide) hn.1
    exact List.all_eq_true.mp (isClean_singleton hle hlt) c List.mem_cons_self
  · have hall : ∀ c ∈ ['-', '+', '.', 'e'], (isMarkupChar c && c != '\r') = true :=
      List.all_eq_true.mp (by decide)
    exact hall c hn

/-- The text of a value may stand in a document as it is. -/
theorem Fits.isClean_chars (h : Fits depth v) (k : Nat) : isClean (chars .tree k v) = true := by
  have hitems : ∀ {k : Nat} {xs : List Value}, (∀ x ∈ xs, ∀ k, isClean (chars .tree k x) = true) →
      isClean (itemChars .tree k xs) = true := by
    intro k xs h
    induction xs with
    | nil => rw [itemChars]; rfl
    | cons x xs ih =>
      rw [itemChars, isClean_append, isClean_append, isClean_comma, h x List.mem_cons_self,
        ih fun y hy => h y (List.mem_cons_of_mem _ hy)]
      rfl
  have hmembers : ∀ {k : Nat} {ms : List (String × Value)}, (∀ m ∈ ms, ∀ k, isClean (chars .tree k m.2) = true) →
      isClean (memberChars .tree k ms) = true := by
    intro k ms h
    induction ms with
    | nil => rw [memberChars]; rfl
    | cons m ms ih =>
      obtain ⟨key, w⟩ := m
      rw [memberChars, isClean_append, isClean_append, isClean_cons, isClean_cons, isClean_append, isClean_comma,
        isClean_textChars, h _ List.mem_cons_self, ih fun y hy => h y (List.mem_cons_of_mem _ hy)]
      decide
  induction h generalizing k with
  | null => rw [chars]; decide
  | bool b => cases b <;> rw [chars] <;> decide
  | int =>
    rw [chars]
    exact isClean_of_isNumeral (mem_intText _)
  | float x =>
    rw [chars]
    cases x with
    | nan => decide
    | infinity b => cases b <;> decide
    | finite b m e hc => exact isClean_of_isNumeral (mem_text b hc)
  | text s =>
    rw [chars]
    exact isClean_textChars s
  | @list _ xs h ih =>
    cases xs with
    | nil => rw [chars]; decide
    | cons x xs =>
      rw [chars, isClean_cons, isClean_append, isClean_append, isClean_append, isClean_append, isClean_lead,
        isClean_lead, ih x List.mem_cons_self, hitems fun y hy => ih y (List.mem_cons_of_mem _ hy)]
      decide
  | @object _ ms hn h ih =>
    cases ms with
    | nil => rw [chars]; decide
    | cons m ms =>
      obtain ⟨key, w⟩ := m
      rw [chars, isClean_cons, isClean_append, isClean_append, isClean_cons, isClean_cons, isClean_append,
        isClean_append, isClean_append, isClean_lead, isClean_lead, isClean_textChars, ih _ List.mem_cons_self,
        hmembers fun y hy => ih y (List.mem_cons_of_mem _ hy)]
      decide

/-! ### Ends of sections -/

theorem isClean_sectionSafe (h : isClean cs = true) : isClean (sectionSafe cs) = true := by
  fun_induction sectionSafe cs with
  | case1 cs ih =>
    simp only [isClean_cons, Bool.and_eq_true] at h
    rw [isClean_append, ih h.2.2.2]
    decide
  | case2 c cs hne ih =>
    rw [isClean_cons, Bool.and_eq_true] at h
    rw [isClean_cons, h.1, ih h.2]
    rfl
  | case3 => rfl

theorem head?_sectionSafe (cs : List Char) : (sectionSafe cs).head? = cs.head? := by
  fun_cases sectionSafe cs <;> rfl

/-- An end of a section, but for its first sign, is left as it is. -/
theorem eq_of_sectionSafe {more : List Char} (h : sectionSafe cs = ']' :: '>' :: more) :
    ∃ ds, cs = ']' :: '>' :: ds := by
  fun_cases sectionSafe cs with
  | case1 cs => exact absurd (List.cons.inj (List.cons.inj h).2).1 (by decide)
  | case2 c cs hne =>
    rw [sectionSafe_cons hne] at h
    obtain ⟨rfl, hrest⟩ := List.cons.inj h
    have hhead := head?_sectionSafe cs
    rw [hrest] at hhead
    obtain ⟨ds, rfl⟩ := List.head?_eq_some_iff.mp hhead.symm
    exact ⟨ds, rfl⟩
  | case3 => cases h

theorem precedes_bracket (h : Precedes cs [']', ']', '>']) (hne : ∀ more, cs ≠ ']' :: '>' :: more) :
    Precedes (']' :: cs) [']', ']', '>'] := by
  unfold Precedes at h ⊢
  rw [List.cons_append, splitMarker, if_neg, h]
  · rfl
  · intro k
    obtain ⟨more, hm⟩ := List.isPrefixOf_iff_prefix.mp k
    have hm := (List.cons.inj hm).2
    -- what is found would begin in the text, since the marker itself has another sign there
    cases cs with
    | nil => exact absurd (List.cons.inj (List.cons.inj hm).2).1 (by decide)
    | cons c cs =>
      cases cs with
      | nil => exact absurd (List.cons.inj (List.cons.inj hm).2).1 (by decide)
      | cons d cs =>
        have hc := (List.cons.inj hm).1
        have hd := (List.cons.inj (List.cons.inj hm).2).1
        exact hne cs (by rw [← hc, ← hd])

/-- Text with the ends of sections in it escaped is as long as the section that it stands in. -/
theorem precedes_sectionSafe (cs : List Char) : Precedes (sectionSafe cs) [']', ']', '>'] := by
  fun_induction sectionSafe cs with
  | case1 cs ih =>
    have htail : Precedes (['\x5c', 'u', '0', '0', '3', 'e'] ++ sectionSafe cs) [']', ']', '>'] := by
      iterate 6 refine Markup.Precedes.cons ?_ (by decide)
      exact ih
    refine precedes_bracket (precedes_bracket htail fun more k => ?_) fun more k => ?_
    · exact absurd (List.cons.inj k).1 (by decide)
    · exact absurd (List.cons.inj (List.cons.inj k).2).1 (by decide)
  | case2 c cs hne ih =>
    by_cases hc : c = ']'
    · subst c
      refine precedes_bracket ih fun more k => ?_
      obtain ⟨ds, rfl⟩ := eq_of_sectionSafe k
      exact hne ds rfl rfl
    · exact ih.cons hc
  | case3 =>
    unfold Precedes
    decide

end LiveSvg.Json
