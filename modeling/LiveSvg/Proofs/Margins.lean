import LiveSvg.Proofs.Lines
import LiveSvg.Script.Compile
import Mathlib.Data.List.Infix
import Mathlib.Data.List.DropRight
/-!
The lines of a body. The program has the same lines as the body but for those of spaces and tabs before and
after all others, each with the margin of the program for the one that they share.
-/

namespace LiveSvg.Text

section

variable {cs : List Char} {l : List Char} {ls : List (List Char)}

/-! ### The margin that lines share -/

theorem commonPrefix_nil (b : List Char) : commonPrefix [] b = [] := by
  cases b <;> rfl

theorem commonPrefix_left (a b : List Char) : commonPrefix a b <+: a := by
  induction a generalizing b with
  | nil =>
    rw [commonPrefix_nil]
  | cons c a ih =>
    rcases b with _ | ⟨d, b⟩
    · exact List.nil_prefix
    · rw [commonPrefix]
      split
      · exact List.prefix_cons_inj c |>.mpr (ih b)
      · exact List.nil_prefix

theorem commonPrefix_right (a b : List Char) : commonPrefix a b <+: b := by
  induction a generalizing b with
  | nil =>
    rw [commonPrefix_nil]
    exact List.nil_prefix
  | cons c a ih =>
    rcases b with _ | ⟨d, b⟩
    · exact List.nil_prefix
    · rw [commonPrefix]
      split
      · next hcd =>
        rw [hcd]
        exact List.prefix_cons_inj d |>.mpr (ih b)
      · exact List.nil_prefix

theorem foldl_commonPrefix (a : List Char) (bs : List (List Char)) :
    bs.foldl commonPrefix a <+: a ∧ ∀ b ∈ bs, bs.foldl commonPrefix a <+: b := by
  induction bs generalizing a with
  | nil => exact ⟨List.prefix_rfl, by simp⟩
  | cons b bs ih =>
    obtain ⟨ha, hbs⟩ := ih (commonPrefix a b)
    refine ⟨ha.trans (commonPrefix_left a b), ?_⟩
    intro b' hb'
    rcases List.mem_cons.mp hb' with rfl | hb'
    · exact ha.trans (commonPrefix_right a b')
    · exact hbs b' hb'

theorem sharedMargin_prefix (hl : l ∈ ls) (hm : l.all isMargin = false) : sharedMargin ls <+: marginOf l := by
  have hmem : marginOf l ∈ (ls.filter fun l => !l.all isMargin).map marginOf :=
    List.mem_map_of_mem (List.mem_filter.mpr ⟨hl, by rw [hm]; rfl⟩)
  rw [sharedMargin]
  split
  · next h =>
    rw [h] at hmem
    cases hmem
  · next m rest h =>
    rw [h] at hmem
    rcases List.mem_cons.mp hmem with heq | hmem
    · rw [heq]
      exact (foldl_commonPrefix m rest).1
    · exact (foldl_commonPrefix m rest).2 _ hmem

/-! ### A body without its margin -/

theorem dropWhile_replicate {mark : Char} {y : List Char} (hh : y.head? ≠ some mark) (a : Nat) :
    (List.replicate a mark ++ y).dropWhile (· == mark) = y := by
  rw [List.dropWhile_append_of_pos fun c hc => beq_iff_eq.mpr (List.eq_of_mem_replicate hc)]
  rcases y with _ | ⟨c, y⟩
  · rfl
  · exact List.dropWhile_cons_of_neg (by simpa using hh)

theorem trimmedOf_replicate {mark : Char} {y : List Char} (hne : y ≠ []) (hh : y.head? ≠ some mark)
    (hl : y.getLast? ≠ some mark) (a b : Nat) :
    trimmedOf mark (List.replicate a mark ++ (y ++ List.replicate b mark)) = y := by
  have hhead : (y ++ List.replicate b mark).head? ≠ some mark := by
    rwa [List.head?_append_of_ne_nil _ hne]
  rw [trimmedOf, dropWhile_replicate hhead, List.reverse_append, List.reverse_replicate,
    dropWhile_replicate (by rwa [List.head?_reverse]), List.reverse_reverse]

theorem linesWithEnds_other {c : Char} (hc : isLineEnd c = false) {line : List Char} {lines : List (List Char)}
    (h : linesWithEnds cs = line :: lines) : linesWithEnds (c :: cs) = (c :: line) :: lines := by
  rw [linesWithEnds]
  · rw [if_neg (by simp [hc]), h]
  · rintro rest rfl
    simp [isLineEnd] at hc

theorem linesWithEnds_cons (hl : ∀ c ∈ l, isLineEnd c = false) (w : List Char) :
    linesWithEnds (l ++ '\n' :: w) = (l ++ ['\n']) :: linesWithEnds w := by
  induction l with
  | nil => rfl
  | cons c l ih =>
    exact linesWithEnds_other (hl c (List.mem_cons_self ..)) (ih fun d hd => hl d (List.mem_cons_of_mem _ hd))

theorem linesWithEnds_last (hl : ∀ c ∈ l, isLineEnd c = false) (hne : l ≠ []) : linesWithEnds l = [l] := by
  induction l with
  | nil => exact absurd rfl hne
  | cons c l ih =>
    have hc := hl c (List.mem_cons_self ..)
    rcases l with _ | ⟨d, l⟩
    · rw [linesWithEnds]
      · simp [hc, linesWithEnds]
      · simp
    · exact linesWithEnds_other hc (ih (fun d hd => hl d (List.mem_cons_of_mem _ hd)) (by simp))

/-- The line that stands in a text with a margin for a line of the text. -/
def withMargin (margin l : List Char) : List Char := if l.all isBlank then l else margin ++ l

theorem indented_cons (margin : List Char) (hl : ∀ c ∈ l, isLineEnd c = false) (w : List Char) :
    indented margin (l ++ '\n' :: w) = withMargin margin l ++ '\n' :: indented margin w := by
  have hblank : (l ++ ['\n']).all isBlank = l.all isBlank := by
    rw [List.all_append, Bool.and_eq_left_iff_imp]
    intro h
    decide
  rw [indented, linesWithEnds_cons hl, List.flatMap_cons, hblank, withMargin]
  split
  · rw [List.append_assoc]
    rfl
  · rw [List.append_assoc, List.append_assoc, List.append_assoc]
    rfl

theorem indented_last (margin : List Char) (hl : ∀ c ∈ l, isLineEnd c = false) : indented margin l = withMargin margin l := by
  rcases l with _ | ⟨c, l⟩
  · rfl
  · rw [indented, linesWithEnds_last hl (by simp), List.flatMap_cons, List.flatMap_nil, List.append_nil]
    rfl

theorem indented_ended (margin : List Char) (hls : ∀ l ∈ ls, ∀ c ∈ l, isLineEnd c = false) (hne : ls ≠ []) :
    indented margin (['\n'].intercalate ls) ++ ['\n'] = ended (ls.map (withMargin margin)) := by
  induction ls with
  | nil => exact absurd rfl hne
  | cons l ls ih =>
    have hl := hls l (List.mem_cons_self ..)
    rcases ls with _ | ⟨l', ls⟩
    · rw [List.intercalate_singleton, indented_last margin hl, List.map_singleton, ended_cons]
      rfl
    · have hrest := ih (fun l hl => hls l (List.mem_cons_of_mem _ hl)) (by simp)
      rw [List.intercalate_cons_cons, List.append_assoc, List.singleton_append, indented_cons margin hl,
        List.append_assoc, List.cons_append, hrest]
      exact (ended_cons _ _).symm

/-! ### The lines between the first and the last that say something -/

theorem exists_between {α : Type} {p : α → Bool} {as : List α} (h : ∃ a ∈ as, p a = false) :
    ∃ pre mid post, as = pre ++ (mid ++ post) ∧ (∀ a ∈ pre, p a = true) ∧ (∀ a ∈ post, p a = true) ∧
      ∃ hne : mid ≠ [], p (mid.head hne) = false ∧ p (mid.getLast hne) = false := by
  have hrest : as.dropWhile p ≠ [] := by
    intro hnil
    obtain ⟨a, ha, hp⟩ := h
    rw [List.dropWhile_eq_nil_iff.mp hnil a ha] at hp
    cases hp
  have hmid : (as.dropWhile p).rdropWhile p ≠ [] := by
    intro hnil
    have hall := List.rdropWhile_eq_nil_iff.mp hnil _ (List.head_mem hrest)
    rw [List.head_dropWhile_not p hrest] at hall
    cases hall
  refine ⟨as.takeWhile p, (as.dropWhile p).rdropWhile p, (as.dropWhile p).rtakeWhile p, ?_, ?_, ?_, hmid, ?_, ?_⟩
  · rw [List.rdropWhile_append_rtakeWhile, List.takeWhile_append_dropWhile]
  · exact fun a ha => List.mem_takeWhile_imp ha
  · exact fun a ha => List.mem_rtakeWhile_imp ha
  · rw [(List.rdropWhile_prefix p _).head hmid]
    exact List.head_dropWhile_not p hrest
  · exact Bool.eq_false_iff.mpr (List.rdropWhile_last_not p _ hmid)

theorem head?_intercalate (hne : l ≠ []) (ls : List (List Char)) : (['\n'].intercalate (l :: ls)).head? = l.head? := by
  rcases ls with _ | ⟨l', ls⟩
  · rw [List.intercalate_singleton]
  · rw [List.intercalate_cons_cons, List.append_assoc, List.head?_append_of_ne_nil _ hne]

theorem intercalate_concat (l : List Char) (ls : List (List Char)) :
    ['\n'].intercalate (ls ++ [l]) = ended ls ++ l := by
  have h : ['\n'].intercalate (ls ++ [l]) ++ ['\n'] = ended (ls ++ [l]) := intercalate_ended (by simp)
  rw [ended_append, ended_cons, show l ++ '\n' :: ended [] = l ++ ['\n'] from rfl, ← List.append_assoc] at h
  exact List.append_cancel_right h

/-- The line without the margin that all lines share. -/
def withoutIts (margin l : List Char) : List Char := if l.all isMargin then [] else l.drop margin.length

theorem all_marginOf (l : List Char) : (marginOf l).all isMargin = true := List.all_takeWhile

/-- A line that says something starts with the margin that all lines share. -/
theorem exists_of_prefix_marginOf {m : List Char} (hm : m <+: marginOf l) (hl : l.all isMargin = false) :
    ∃ v, v ≠ [] ∧ l = m ++ v ∧ m.all isMargin = true ∧ withoutIts m l = v := by
  have hall : m.all isMargin = true := by
    rw [List.all_eq_true]
    exact fun c hc => List.all_eq_true.mp (all_marginOf l) c (hm.subset hc)
  obtain ⟨v, hv⟩ := hm.trans (List.takeWhile_prefix isMargin)
  subst hv
  refine ⟨v, ?_, rfl, hall, ?_⟩
  · rintro rfl
    rw [List.append_nil, hall] at hl
    cases hl
  · rw [withoutIts, hl, if_neg Bool.false_ne_true, List.drop_left]

theorem ended_withoutIts (m : List Char) (h : ∀ l ∈ ls, l.all isMargin = true) :
    ended (ls.map (withoutIts m)) = List.replicate ls.length '\n' := by
  induction ls with
  | nil => rfl
  | cons l ls ih =>
    rw [List.map_cons, ended_cons, ih fun l hl => h l (List.mem_cons_of_mem _ hl), withoutIts,
      if_pos (h l (List.mem_cons_self ..))]
    rfl

theorem dedented_ended (cs : List Char) :
    dedented cs ++ ['\n'] = ended ((splitAt '\n' cs).map (withoutIts (sharedMargin (splitAt '\n' cs)))) :=
  intercalate_ended (by simp [withoutMargin, splitAt_ne_nil])

theorem trimmed_dedented {pre mid post : List (List Char)} (hcs : splitAt '\n' cs = pre ++ (mid ++ post))
    (hpre : ∀ l ∈ pre, l.all isMargin = true) (hpost : ∀ l ∈ post, l.all isMargin = true)
    (hne : mid ≠ []) (hfirst : (mid.head hne).all isMargin = false) (hlast : (mid.getLast hne).all isMargin = false) :
    trimmedOf '\n' (dedented cs) = ['\n'].intercalate (mid.map (withoutIts (sharedMargin (splitAt '\n' cs)))) := by
  obtain ⟨m, hm⟩ : ∃ m, sharedMargin (splitAt '\n' cs) = m := ⟨_, rfl⟩
  have hline : ∀ l ∈ mid, l.all isMargin = false → withoutIts m l ≠ [] ∧ '\n' ∉ withoutIts m l := by
    intro l hl hlm
    have hmem : l ∈ splitAt '\n' cs := by
      rw [hcs]
      exact List.mem_append_right _ (List.mem_append_left _ hl)
    obtain ⟨v, hv, rfl, -, hw⟩ := exists_of_prefix_marginOf (hm ▸ sharedMargin_prefix hmem hlm) hlm
    rw [hw]
    exact ⟨hv, fun hn => not_mem_of_mem_splitAt hmem (List.mem_append_right _ hn)⟩
  have hded : dedented cs = List.replicate pre.length '\n' ++
      (['\n'].intercalate (mid.map (withoutIts m)) ++ List.replicate post.length '\n') := by
    have hends : ended ((splitAt '\n' cs).map (withoutIts m)) = dedented cs ++ ['\n'] := by
      rw [← hm, dedented_ended]
    rw [hcs, List.map_append, List.map_append, ended_append, ended_append, ended_withoutIts m hpre,
      ended_withoutIts m hpost, ← intercalate_ended (by simpa)] at hends
    rw [← List.append_left_inj ['\n'], ← hends]
    simp [List.append_assoc, ← List.replicate_succ, List.replicate_succ']
  obtain ⟨hf, hfn⟩ := hline _ (List.head_mem hne) hfirst
  obtain ⟨hl, hln⟩ := hline _ (List.getLast_mem hne) hlast
  have hhead : (['\n'].intercalate (mid.map (withoutIts m))).head? = (withoutIts m (mid.head hne)).head? := by
    rcases mid with _ | ⟨l, mid⟩
    · exact absurd rfl hne
    · exact head?_intercalate hf _
  have hlast : (['\n'].intercalate (mid.map (withoutIts m))).getLast? = (withoutIts m (mid.getLast hne)).getLast? := by
    have hmap : mid.map (withoutIts m) = mid.dropLast.map (withoutIts m) ++ [withoutIts m (mid.getLast hne)] := by
      conv_lhs => rw [← List.dropLast_append_getLast hne, List.map_append, List.map_singleton]
    rw [hmap, intercalate_concat, List.getLast?_append_of_ne_nil _ hl]
  rw [hm, hded]
  refine trimmedOf_replicate ?_ ?_ ?_ _ _
  · intro hnil
    rw [hnil] at hhead
    exact hf (List.head?_eq_none_iff.mp hhead.symm)
  · rw [hhead]
    exact fun h => hfn (List.mem_of_head? h)
  · rw [hlast]
    exact fun h => hln (List.mem_of_getLast? h)

end

end LiveSvg.Text

namespace LiveSvg.Script

open Text

section

variable {cs m l : List Char} {pre mid post : List (List Char)}

/-- The line of a program for a line of its body. -/
def replaced (margin l : List Char) : List Char := withMargin bodyMargin (withoutIts margin l)

/-- The last line of every program. -/
def passLine : List Char := bodyMargin ++ ['p', 'a', 's', 's']

theorem replaced_of_margin (h : l.all isMargin = true) : replaced m l = [] := by
  rw [replaced, withoutIts, if_pos h]
  rfl

theorem isBlank_of_isMargin {c : Char} (h : isMargin c = true) : isBlank c = true := by
  rw [isMargin, Bool.or_eq_true, beq_iff_eq, beq_iff_eq] at h
  rcases h with rfl | rfl <;> decide

theorem all_isBlank_of_isMargin (h : l.all isMargin = true) : l.all isBlank = true := by
  rw [List.all_eq_true] at h ⊢
  exact fun c hc => isBlank_of_isMargin (h c hc)

theorem replaced_of_text (hm : m <+: marginOf l) (hl : l.all isBlank = false) :
    ∃ v, l = m ++ v ∧ replaced m l = bodyMargin ++ v := by
  have hlm : l.all isMargin = false := by
    by_contra h
    rw [all_isBlank_of_isMargin (Bool.not_eq_false _ ▸ h)] at hl
    cases hl
  obtain ⟨v, -, rfl, hall, hw⟩ := exists_of_prefix_marginOf hm hlm
  refine ⟨v, rfl, ?_⟩
  rw [replaced, hw, withMargin, if_neg]
  intro hv
  rw [List.all_append, hv, all_isBlank_of_isMargin hall] at hl
  cases hl

/-- A program has the characters of its body and blanks of its own. -/
theorem mem_replaced {c : Char} (h : c ∈ replaced m l) : c ∈ l ∨ c = ' ' := by
  have hits : ∀ c ∈ withoutIts m l, c ∈ l := by
    intro c hc
    rw [withoutIts] at hc
    split at hc
    · cases hc
    · exact List.mem_of_mem_drop hc
  rw [replaced, withMargin] at h
  split at h
  · exact .inl (hits c h)
  · rcases List.mem_append.mp h with hb | hw
    · exact .inr (by simpa [bodyMargin] using hb)
    · exact .inl (hits c hw)

theorem mem_bodyLine {c : Char} {ls : List (List Char)} (hc : c ∈ ended (ls.map (replaced m) ++ [passLine])) :
    (∃ l ∈ ls, c ∈ l) ∨ c ∈ '\n' :: passLine := by
  obtain ⟨l, hl, hc⟩ := List.mem_flatMap.mp hc
  rcases List.mem_append.mp hc with hc | hc
  · rcases List.mem_append.mp hl with hl | hl
    · obtain ⟨l, hls, rfl⟩ := List.mem_map.mp hl
      rcases mem_replaced hc with hc | rfl
      · exact .inl ⟨l, hls, hc⟩
      · exact .inr (by decide)
    · rw [List.mem_singleton] at hl
      exact .inr (List.mem_cons_of_mem _ (hl ▸ hc))
  · exact .inr (List.mem_cons.mpr (.inl (List.mem_singleton.mp hc)))

/-- The text of a program, line by line. -/
theorem bodyText_eq (hends : ∀ c ∈ cs, isLineEnd c = true → c = '\n') (hcs : splitAt '\n' cs = pre ++ (mid ++ post))
    (hpre : ∀ l ∈ pre, l.all isMargin = true) (hpost : ∀ l ∈ post, l.all isMargin = true)
    (hne : mid ≠ []) (hfirst : (mid.head hne).all isMargin = false) (hlast : (mid.getLast hne).all isMargin = false) :
    bodyText cs = ended (mid.map (replaced (sharedMargin (splitAt '\n' cs))) ++ [passLine]) := by
  obtain ⟨m, hm⟩ : ∃ m, sharedMargin (splitAt '\n' cs) = m := ⟨_, rfl⟩
  have hmid : ∀ l ∈ mid, l ∈ splitAt '\n' cs := by
    intro l hl
    rw [hcs]
    exact List.mem_append_right _ (List.mem_append_left _ hl)
  have hflat : ∀ l ∈ mid.map (withoutIts m), ∀ c ∈ l, isLineEnd c = false := by
    intro l hl c hc
    obtain ⟨l, hls, rfl⟩ := List.mem_map.mp hl
    rw [withoutIts] at hc
    split at hc
    · cases hc
    · by_contra he
      rw [Bool.not_eq_false] at he
      have hcl := List.mem_of_mem_drop hc
      obtain rfl := hends c (mem_of_mem_splitAt (hmid l hls) hcl) he
      exact not_mem_of_mem_splitAt (hmid l hls) hcl
  have htext : indented bodyMargin (trimmedOf '\n' (dedented cs)) ++ bodyEnd = ended (mid.map (replaced m) ++ [passLine]) := by
    have hindented := indented_ended bodyMargin hflat (by simpa)
    rw [List.map_map] at hindented
    rw [trimmed_dedented hcs hpre hpost hne hfirst hlast, hm, ended_append,
      show replaced m = withMargin bodyMargin ∘ withoutIts m from rfl, ← hindented, List.append_assoc]
    rfl
  have hreturn : '\r' ∉ ended (mid.map (replaced m) ++ [passLine]) := by
    intro hr
    rcases mem_bodyLine hr with ⟨l, hl, hc⟩ | hr
    · exact absurd (hends _ (mem_of_mem_splitAt (hmid l hl) hc) (by decide)) (by decide)
    · exact absurd hr (by decide)
  rw [bodyText, htext, withLineFeeds_eq_self hreturn, hm]

end

end LiveSvg.Script
