import LiveSvg.Proofs.Dressing
import LiveSvg.Proofs.Placement
/-!
The style of a drawing at a scale. It depends on the last scale alone, however often the drawing has been
scaled before.
-/

namespace LiveSvg.Drawing

open Markup
open Number (Binary64)

variable {d d' : Drawing} {s : String}

/-! ### Scales in a style -/

theorem semicolon_not_mem_plainText (x : Binary64) : ';' ∉ x.plainText.toList := by
  unfold Binary64.plainText
  split
  · exact fun h => absurd (Json.mem_intText _ _ h) (by decide)
  · cases x with
    | nan => decide
    | infinity negative => cases negative <;> decide
    | finite negative m e hc => exact fun h => absurd (Json.mem_text negative hc _ h) (by decide)

theorem isStyleValue_scaleText (x : Binary64) : IsStyleValue (scaleText x.plainText) := by
  have hlist : (scaleText x.plainText).toList = "scale(".toList ++ x.plainText.toList ++ [')'] := by
    rw [scaleText, String.toList_append, String.toList_append]
    rfl
  refine ⟨?_, ?_⟩ <;> rw [hlist]
  · refine Text.unpadded_of_ends ?_ ?_
    · rfl
    · rw [List.getLast?_append]
      rfl
  · simp [semicolon_not_mem_plainText]

theorem isCarried_scaleText (x : Binary64) : isCarried (scaleText x.plainText) = true := by
  unfold scaleText
  rw [isCarried_append, isCarried_append, isCarried_plainText]
  decide

theorem isStyleName_transform : IsStyleName "transform" := by
  refine ⟨by decide, Text.unpadded_of_ends ?_ ?_, by decide, by decide⟩
  · decide
  · decide

/-- The declarations of a style, at a scale. -/
def scaledStyle (s : String) (x : Binary64) : Style := (Style.parse s).put "transform" (some (scaleText x.plainText))

theorem scaledStyle_tidy (s : String) (x : Binary64) : (scaledStyle s x).Tidy :=
  (Style.tidy_parse s).set isStyleName_transform (isStyleValue_scaleText x)

theorem isCarried_scaledStyle (hs : isCarried s = true) (x : Binary64) : isCarried (scaledStyle s x).text = true :=
  ((Style.parse_carried hs).set (by decide) (isCarried_scaleText x)).text

/-- A style that is scaled again is as if it had been scaled once. -/
theorem scaledStyle_again (s : String) (x y : Binary64) : scaledStyle (scaledStyle s x).text y = scaledStyle s y := by
  rw [scaledStyle, (scaledStyle_tidy s x).parse_text]
  exact Value.Members.set_set _ _ _ _

/-- A style at a scale, or as it is where there is none. -/
def fittedStyle (s : String) (scale : Option Binary64) : String := scale.elim s fun x => (scaledStyle s x).text

theorem isCarried_fittedStyle (hs : isCarried s = true) (scale : Option Binary64) :
    isCarried (fittedStyle s scale) = true := by
  cases scale with
  | none => exact hs
  | some x => exact isCarried_scaledStyle hs x

theorem scaledStyle_fitted (s : String) (scale : Option Binary64) (y : Binary64) :
    scaledStyle (fittedStyle s scale) y = scaledStyle s y := by
  cases scale with
  | none => rfl
  | some x => exact scaledStyle_again s x y

/-! ### Writing a style -/

/-- The drawing in which a style is written to the root, and to what bears its label beside the tree. -/
def restyled (d : Drawing) (s : String) : Drawing := d.retag d.root.id (dressed s)

theorem putRoot_style_eq (hs : isCarried s = true) (d : Drawing) : d.putRoot "style" s = .ok (d.restyled s) := by
  unfold putRoot put
  rw [hs]
  rfl

theorem restyled_root (d : Drawing) (s : String) : (d.restyled s).root = (d.dress s).root := by
  unfold restyled
  rw [root_retag]
  rfl

theorem restyled_eq (h : d.loose = []) (s : String) : d.restyled s = d.dress s := by
  have hroot := d.restyled_root s
  have hloose : (d.restyled s).loose = (d.dress s).loose := by
    change d.loose.map _ = d.loose
    rw [h]
    rfl
  calc d.restyled s = ⟨(d.restyled s).root, (d.restyled s).loose, d.next, d.generated⟩ := rfl
    _ = d.dress s := by
      rw [hroot, hloose]
      rfl

/-- Which style is worn is to be seen from the root. -/
theorem wears_of_root (h : d'.root = (d.dress s).root) : d'.Wears s := by
  have hroot : (d'.dress s).root = ((d.dress s).dress s).root := by
    simp only [dress, h]
  rw [dress_dress, ← h] at hroot
  calc d'.dress s = ⟨(d'.dress s).root, d'.loose, d'.next, d'.generated⟩ := rfl
    _ = d' := by rw [hroot]

theorem wears_restyled (d : Drawing) (s : String) : (d.restyled s).Wears s := wears_of_root (d.restyled_root s)

theorem Wears.style (h : d.Wears s) : d.style = Style.parse s := by
  unfold Drawing.style
  rw [h.rootAttr?]

/-- A declaration is set by writing the style. -/
theorem setStyle_some (d : Drawing) (name value : String) :
    d.setStyle name (some value) = d.putRoot "style" (d.style.put name (some value)).text := by
  have hmem : (name, value) ∈ d.style.put name (some value) := Style.mem_set d.style name value
  exact if_neg fun h => List.not_mem_nil (List.isEmpty_iff.mp h ▸ hmem)

/-- A drawing that wears a style can be scaled, and wears the style at that scale then. -/
theorem setStyle_scale (hw : d.Wears s) (hs : isCarried s = true) (x : Binary64) :
    d.setStyle "transform" (some (scaleText x.plainText)) = .ok (d.restyled (scaledStyle s x).text) := by
  rw [setStyle_some, hw.style]
  exact putRoot_style_eq (isCarried_scaledStyle hs x) d

/-- Where a declaration has been set, a style is worn that markup can carry. -/
theorem wears_of_setStyle {name value : String} (h : d.setStyle name (some value) = .ok d') :
    ∃ s, isCarried s = true ∧ d'.Wears s := by
  rw [setStyle_some] at h
  have hs : isCarried (d.style.put name (some value)).text = true := by
    cases hc : isCarried (d.style.put name (some value)).text with
    | true => rfl
    | false =>
      unfold putRoot put at h
      rw [hc] at h
      cases h
  rw [putRoot_style_eq hs] at h
  cases h
  exact ⟨_, hs, d.wears_restyled _⟩

/-- A style stays when another attribute is written to the root. -/
theorem Wears.putRoot {base value : String} (hw : d.Wears s) (hb : (⟨none, base⟩ : Key) ≠ styleKey)
    (h : d.putRoot base value = .ok d') : d'.Wears s := by
  have hdress : (d.dress s).put d.root.id ⟨none, base⟩ value
      = (d.put d.root.id ⟨none, base⟩ value).map (·.dress s) := put_dress hw (fun _ => hb) value s
  rw [hw] at hdress
  change d.putRoot base value = (d.putRoot base value).map _ at hdress
  rw [h] at hdress
  exact (Except.ok.inj hdress).symm

/-- A drawing that is put in its place wears a style. -/
theorem wears_of_prepared (h : Run.prepared d = .ok d') : ∃ s, isCarried s = true ∧ d'.Wears s := by
  obtain ⟨d₁, -, h⟩ := Json.bind_eq_ok.mp h
  exact wears_of_setStyle h

theorem Wears.naturallySized {box : Box} (hw : d.Wears s) (h : Run.naturallySized d box = .ok d') : d'.Wears s := by
  unfold Run.naturallySized at h
  split at h
  · cases h
    exact hw
  · obtain ⟨d₁, h₁, h⟩ := Json.bind_eq_ok.mp h
    exact (hw.putRoot (by decide) h₁).putRoot (by decide) h

end LiveSvg.Drawing
