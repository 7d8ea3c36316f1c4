import LiveSvg.Text.Blank
import LiveSvg.Text.Lines
import Mathlib.Tactic.Common
/-!
Parts of a text between marks, and lines with their ends.
-/

namespace LiveSvg.Text

/-- Lines as a text in which each has its end. -/
def ended (ls : List (List Char)) : List Char := ls.flatMap (· ++ ['\n'])

variable {mark : Char} {cs l : List Char} {ls : List (List Char)}

theorem ended_cons (l : List Char) (ls : List (List Char)) : ended (l :: ls) = l ++ '\n' :: ended ls := by
  simp [ended]

theorem ended_append (ls ls' : List (List Char)) : ended (ls ++ ls') = ended ls ++ ended ls' :=
  List.flatMap_append

theorem splitAt_cons (mark c : Char) (cs : List Char) : splitAt mark (c :: cs) =
    if c = mark then [] :: splitAt mark cs
    else match splitAt mark cs with
      | part :: parts => (c :: part) :: parts
      | [] => [[c]] := rfl

theorem splitAt_ne_nil (mark : Char) (cs : List Char) : splitAt mark cs ≠ [] := by
  cases cs with
  | nil => exact List.cons_ne_nil _ _
  | cons c cs =>
    rw [splitAt_cons]
    split
    · simp
    · split <;> simp

theorem splitAt_other {mark c : Char} (hc : c ≠ mark) {part : List Char} {parts : List (List Char)}
    (h : splitAt mark cs = part :: parts) : splitAt mark (c :: cs) = (c :: part) :: parts := by
  rw [splitAt_cons, if_neg hc, h]

theorem ended_splitAt (cs : List Char) : ended (splitAt '\n' cs) = cs ++ ['\n'] := by
  induction cs with
  | nil => rfl
  | cons c cs ih =>
    by_cases hc : c = '\n'
    · subst hc
      rw [splitAt_cons, if_pos rfl, ended_cons, ih]
      rfl
    · obtain ⟨part, parts, h⟩ := List.exists_cons_of_ne_nil (splitAt_ne_nil '\n' cs)
      rw [h, ended_cons] at ih
      rw [splitAt_other hc h, ended_cons, List.cons_append, ih, List.cons_append]

theorem not_mem_of_mem_splitAt (h : l ∈ splitAt mark cs) : mark ∉ l := by
  induction cs generalizing l with
  | nil =>
    rw [List.mem_singleton.mp h]
    exact List.not_mem_nil
  | cons c cs ih =>
    by_cases hc : c = mark
    · rw [splitAt_cons, if_pos hc] at h
      rcases List.mem_cons.mp h with rfl | h
      · exact List.not_mem_nil
      · exact ih h
    · obtain ⟨part, parts, hs⟩ := List.exists_cons_of_ne_nil (splitAt_ne_nil mark cs)
      rw [splitAt_other hc hs] at h
      rw [hs] at ih
      rcases List.mem_cons.mp h with rfl | h
      · rw [List.mem_cons, not_or]
        exact ⟨Ne.symm hc, ih (List.mem_cons_self ..)⟩
      · exact ih (List.mem_cons_of_mem _ h)

theorem mem_of_mem_splitAt (h : l ∈ splitAt mark cs) {d : Char} (hd : d ∈ l) : d ∈ cs := by
  induction cs generalizing l with
  | nil =>
    rw [List.mem_singleton.mp h] at hd
    exact hd
  | cons c cs ih =>
    by_cases hc : c = mark
    · rw [splitAt_cons, if_pos hc] at h
      rcases List.mem_cons.mp h with rfl | h
      · cases hd
      · exact List.mem_cons_of_mem _ (ih h hd)
    · obtain ⟨part, parts, hs⟩ := List.exists_cons_of_ne_nil (splitAt_ne_nil mark cs)
      rw [splitAt_other hc hs] at h
      rw [hs] at ih
      rcases List.mem_cons.mp h with rfl | h
      · rcases List.mem_cons.mp hd with rfl | hd
        · exact List.mem_cons_self ..
        · exact List.mem_cons_of_mem _ (ih (List.mem_cons_self ..) hd)
      · exact List.mem_cons_of_mem _ (ih (List.mem_cons_of_mem _ h) hd)

theorem intercalate_ended (h : ls ≠ []) : ['\n'].intercalate ls ++ ['\n'] = ended ls := by
  induction ls with
  | nil => exact absurd rfl h
  | cons l ls ih =>
    rcases ls with _ | ⟨l', ls⟩
    · simp [ended]
    · rw [List.intercalate_cons_cons, ended_cons, List.append_assoc, List.append_assoc, ih (by simp)]
      rfl

theorem withLineFeeds_eq_self (h : '\r' ∉ cs) : withLineFeeds cs = cs := by
  induction cs with
  | nil => rfl
  | cons c cs ih =>
    rw [List.mem_cons, not_or] at h
    rw [withLineFeeds]
    · rw [if_neg (Ne.symm h.1), ih h.2]
    · rintro rest rfl
      exact absurd rfl h.1

end LiveSvg.Text
