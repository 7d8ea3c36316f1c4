import LiveSvg.Proofs.Sections
/-!
The JSON text of a value with the ends of sections in it escaped: no section ends in it, and JSON takes no
notice of what has been escaped.
-/

namespace LiveSvg.Json

open Document (sectionSafe)

/-- A marker that a text precedes is nowhere in that text. -/
theorem not_infix_of_precedes {cs marker : List Char} (h : Markup.Precedes cs marker) (hne : marker ≠ []) :
    ¬marker <:+: cs := by
  rintro ⟨before, after, rfl⟩
  rw [List.append_assoc] at h
  have hrest := h.of_append
  obtain ⟨m, marker, rfl⟩ := List.exists_cons_of_ne_nil hne
  have hfirst : (m :: marker).isPrefixOf (m :: (marker ++ after ++ m :: marker)) = true :=
    List.isPrefixOf_iff_prefix.mpr ⟨after ++ m :: marker, by simp⟩
  unfold Markup.Precedes at hrest
  rw [List.cons_append, List.cons_append, Markup.splitMarker, if_pos hfirst] at hrest
  cases hrest

/-- A value is read from its text with the ends of sections escaped, which holds none: by a reader that goes as
deep as the value does, and so by the reader of whole texts. -/
theorem escaped_text_read (v : Value) :
    ¬"]]>".toList <:+: sectionSafe (tree v).toList ∧
    (∀ depth fuel, Fits depth v → (sectionSafe (tree v).toList).length ≤ fuel →
      readValue fuel depth (sectionSafe (tree v).toList) = .ok (v, [])) ∧
    (Fits maxDepth v → read (String.ofList (sectionSafe (tree v).toList)) = .ok v) := by
  refine ⟨not_infix_of_precedes (precedes_sectionSafe _) (by decide), fun depth fuel h hf => ?_, read_safe⟩
  have htext : sectionSafe (tree v).toList = safe 0 v := by rw [tree, String.toList_ofList, safe]
  rw [htext] at hf ⊢
  have hread := h.reads 0 fuel [] (fun c k => by cases k) hf
  rwa [List.append_nil] at hread

/-- A value with brackets that overlap, beside backslashes and quotes, and in keys. -/
def bracketed : Value :=
  .object [("]]]>>", .list [.text "]]>]]>", .text "\x5c]]>\x22", .float .nan]), ("]]>\x5c", .text "]]\x5c>")]

/-- Overlapping and adjacent ends of sections come back, from keys too. -/
theorem escaped_text_read_bracketed :
    Fits maxDepth bracketed ∧ read (String.ofList (sectionSafe (tree bracketed).toList)) = .ok bracketed := by
  have hfits : Fits maxDepth bracketed := by
    refine .object (by decide) ?_
    simp only [List.mem_cons, List.not_mem_nil, or_false]
    rintro m (rfl | rfl)
    · refine .list ?_
      simp only [List.mem_cons, List.not_mem_nil, or_false]
      rintro x (rfl | rfl | rfl)
      · exact .text _
      · exact .text _
      · exact .float _
    · exact .text _
  exact ⟨hfits, (escaped_text_read bracketed).2.2 hfits⟩

end LiveSvg.Json
