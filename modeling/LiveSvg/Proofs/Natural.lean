import LiveSvg.Proofs.Lengths
import LiveSvg.Proofs.Redrawing
import LiveSvg.Proofs.Starting
/-!
The natural size of a drawing, written to its root. It is found there again where a view box says it anyway, or where
no side is below the ten-thousandth; smaller sides are written as what is no length.
-/

namespace LiveSvg

open Markup
open Number (Binary64)

namespace Drawing

variable {d d' : Drawing} {base base' value name : String} {x y : Binary64}

/-! ### The box of a drawing -/

theorem exists_putRoot (d : Drawing) (base : String) (hb : isName base.toList = true)
    (hv : isCarried value = true) : ∃ d', d.putRoot base value = .ok d' := by
  unfold putRoot put
  rw [hb, hv]
  exact ⟨_, rfl⟩

theorem rootAttr?_putRoot (h : d.putRoot base value = .ok d') (base' : String) :
    d'.rootAttr? base' = if base' = base then some value else d.rootAttr? base' := by
  obtain ⟨g, generated, hg, rfl⟩ := put_ok h
  rw [rootAttr?, root_retag, hg]
  by_cases hb : base' = base
  · rw [if_pos hb, if_pos (congrArg (Key.mk none) hb)]
  · rw [if_neg hb, if_neg fun k => hb (Key.mk.inj k).2]
    rfl

/-- The view box of a drawing, if it says one. -/
def viewed (d : Drawing) : Option Box := (d.rootAttr? "viewBox").bind viewBox?

/-- Without a view box there are a width and a height only. -/
theorem box_unviewed (h : d.viewed = none) :
    d.box = ⟨.zero false, .zero false, d.box.width, d.box.height⟩ := by
  unfold viewed at h
  unfold box
  rw [h]
  dsimp only
  split <;> rfl

/-- The box of a drawing whose root says its width and its height: they are kept if they are lengths. -/
def rewritten (d : Drawing) : Box :=
  if d.viewed.isSome ∨ (1 / 10000 ≤ d.box.width.value ∧ 1 / 10000 ≤ d.box.height.value) then d.box else Box.zero

theorem SameButStyle.viewed (h : SameButStyle d d') : d'.viewed = d.viewed := by
  unfold Drawing.viewed
  rw [h.attr _ (by decide)]

theorem SameButStyle.box (h : SameButStyle d d') : d'.box = d.box := by
  unfold Drawing.box
  rw [h.attr _ (by decide), h.attr _ (by decide), h.attr _ (by decide)]

theorem SameButStyle.rewritten (h : SameButStyle d d') : d'.rewritten = d.rewritten := by
  unfold Drawing.rewritten
  rw [h.viewed, h.box]

theorem SameButStyle.trans {d'' : Drawing} (h : SameButStyle d d') (h' : SameButStyle d' d'') : SameButStyle d d'' where
  attr := fun base hb => (h'.attr base hb).trans (h.attr base hb)
  inner := h'.inner.trans h.inner

theorem sameButStyle_of_setStyle (h : d.setStyle name (some value) = .ok d') : SameButStyle d d' :=
  (putRoot_style_ok ((d.setStyle_some name value).symm.trans h)).2

theorem sameButStyle_of_prepared (h : Run.prepared d = .ok d') : SameButStyle d d' := by
  obtain ⟨d₁, h₁, h⟩ := Json.bind_eq_ok.mp h
  exact (sameButStyle_of_setStyle h₁).trans (sameButStyle_of_setStyle h)

/-! ### A size that is written -/

/-- Whether a drawing is another one with a width and a height written to its root. -/
structure SizedAs (x y : Binary64) (d d' : Drawing) : Prop where
  viewed : d'.viewed = d.viewed
  width : d'.rootAttr? "width" = some x.plainText
  height : d'.rootAttr? "height" = some y.plainText

theorem sizedAs_of_putRoot {d₁ : Drawing} (h₁ : d.putRoot "width" x.plainText = .ok d₁)
    (h : d₁.putRoot "height" y.plainText = .ok d') : SizedAs x y d d' where
  viewed := by
    unfold Drawing.viewed
    rw [rootAttr?_putRoot h, if_neg (by decide), rootAttr?_putRoot h₁, if_neg (by decide)]
  width := by rw [rootAttr?_putRoot h, if_neg (by decide), rootAttr?_putRoot h₁, if_pos rfl]
  height := by rw [rootAttr?_putRoot h, if_pos rfl]

/-- The box of a drawing whose own size is written to its root. -/
theorem SizedAs.box (h : SizedAs d.box.width d.box.height d d') (hw : d.box.width.isPositive = true)
    (hh : d.box.height.isPositive = true) : d'.box = d.rewritten := by
  have hview := h.viewed
  unfold rewritten
  cases hb : d.viewed with
  | some b =>
    rw [if_pos (.inl rfl)]
    rw [hb] at hview
    unfold Drawing.viewed at hb hview
    unfold Drawing.box
    rw [hb, hview]
  | none =>
    have hbox := box_unviewed hb
    rw [hb] at hview
    unfold Drawing.viewed at hview
    conv_lhs => unfold Drawing.box
    rw [hview, h.width, h.height]
    dsimp only [Option.bind_some]
    rw [length?_plainText hw, length?_plainText hh]
    by_cases hwidth : 1 / 10000 ≤ d.box.width.value
    · by_cases hheight : 1 / 10000 ≤ d.box.height.value
      · rw [if_pos hwidth, if_pos hheight, if_pos (.inr ⟨hwidth, hheight⟩)]
        exact hbox.symm
      · rw [if_pos hwidth, if_neg hheight]
        exact (if_neg fun k => hheight (k.resolve_left Bool.false_ne_true).2).symm
    · rw [if_neg hwidth]
      exact (if_neg fun k => hwidth (k.resolve_left Bool.false_ne_true).1).symm

theorem isEmpty_eq_false (hw : d.box.width.isPositive = true) (hh : d.box.height.isPositive = true) :
    d.box.isEmpty = false := by
  rw [Box.isEmpty, Bool.or_eq_false_iff]
  exact ⟨Binary64.atMost_zero_iff.mpr (.positive hw), Binary64.atMost_zero_iff.mpr (.positive hh)⟩

end Drawing

namespace Run

open Drawing (SizedAs SameButStyle Readable)

variable {w w' : World} {d d' : Drawing} {base : String} {x y : Binary64} {e : Element Unit}

theorem setRoot_eq (hd : w.drawing = some d) (h : d.putRoot base x.plainText = .ok d') :
    setRoot base (.float x) w = .ok () ((setDrawing d').after w) := by
  unfold setRoot
  change (drawing "node" >>= fun d => ofExcept (d.putRoot base x.plainText) >>= setDrawing) w = _
  rw [bind_ok (drawing_eq _ hd), h]
  rfl

/-- A drawing can be given any size. -/
theorem size_ok (hd : w.drawing = some d) (x y : Binary64) :
    ∃ w' d', size (.float x) (.float y) w = .ok () w' ∧ w'.drawing = some d' ∧ SizedAs x y d d' := by
  obtain ⟨d₁, h₁⟩ := d.exists_putRoot "width" (by decide) (Drawing.isCarried_plainText x)
  obtain ⟨d', h⟩ := d₁.exists_putRoot "height" (by decide) (Drawing.isCarried_plainText y)
  refine ⟨(setDrawing d').after ((setDrawing d₁).after w), d', ?_, rfl, Drawing.sizedAs_of_putRoot h₁ h⟩
  unfold size
  rw [bind_ok (setRoot_eq hd h₁)]
  exact setRoot_eq rfl h

theorem sizedAs_of_naturallySized {box : Drawing.Box} (hb : box.isEmpty = false)
    (h : naturallySized d box = .ok d') : SizedAs box.width box.height d d' := by
  unfold naturallySized at h
  rw [hb] at h
  obtain ⟨d₁, h₁, h⟩ := Json.bind_eq_ok.mp h
  exact Drawing.sizedAs_of_putRoot h₁ h

/-- Scaling a drawing changes its style alone. -/
theorem resize_drawing (hd : w.drawing = some d) (h : resize w = .ok () w') :
    w'.visual.box = w.visual.box ∧ ∃ d', w'.drawing = some d' ∧ (d.Readable → d'.Readable) ∧ d'.box = d.box := by
  rw [resize_eq hd] at h
  split at h
  · cases h
  · cases h
    exact ⟨rfl, d, hd, id, rfl⟩
  · obtain ⟨d', hd', rfl⟩ := drawn_eq_ok h
    exact ⟨rfl, d', rfl, fun k => k.setStyle hd', (Drawing.sameButStyle_of_setStyle hd').box⟩

/-- A drawing put in its place has the natural size of its document, and is read again with the size that
is written. -/
theorem prepareScene_natural (hs : e.Sound [] maxDepth) (hp : e.Plain) (h : prepareScene (some e) w = .ok () w') :
    w'.visual.box = (drawingOf 0 (some e)).box ∧ ∃ d, w'.drawing = some d ∧ d.Readable ∧
      ((drawingOf 0 (some e)).box.width.isPositive = true → (drawingOf 0 (some e)).box.height.isPositive = true →
        d.box = (drawingOf 0 (some e)).rewritten) := by
  obtain ⟨d₀, d, h₀, hsized, h⟩ := prepareScene_eq_ok h
  obtain ⟨first, hfirst⟩ : ∃ first, (w.drawing.map (·.next)).getD 0 = first := ⟨_, rfl⟩
  rw [hfirst] at h₀
  have hsame := Drawing.sameButStyle_of_prepared h₀
  have hreadable : d.Readable :=
    Readable.naturallySized (Readable.prepared ⟨_, Drawing.shows_drawingOf hs hp first⟩ h₀) hsized
  obtain ⟨hbox, d', hd', hread, hbox'⟩ := resize_drawing rfl h
  refine ⟨hbox.trans hsame.box, d', hd', hread ?_, fun hw hh => hbox'.trans ?_⟩
  · obtain ⟨e', he'⟩ := hreadable
    exact ⟨e', he'.of_root rfl⟩
  · have hw : d₀.box.width.isPositive = true := hsame.box ▸ hw
    have hh : d₀.box.height.isPositive = true := hsame.box ▸ hh
    have hwritten := sizedAs_of_naturallySized (Drawing.isEmpty_eq_false hw hh) hsized
    exact (hwritten.box hw hh).trans hsame.rewritten

/-- Whether the size of a visual is made of numbers, if there is one. -/
def IsMeasured (w : World) : Prop := w.visual.target.1.isMeasure = true ∧ w.visual.target.2.isMeasure = true

theorem exists_prepareScene (hs : e.Sound [] maxDepth) (hm : IsMeasured w) :
    ∃ w', prepareScene (some e) w = .ok () w' := by
  have hcarried : ∀ e', some e = some e' → ∀ a ∈ e'.head.attrs, Drawing.isCarried a.value = true := by
    rintro _ ⟨⟩ a ha
    exact (hs.legible.1.attrs a ha).writable
  obtain ⟨⟨⟩, w', h⟩ := prepareScene_ok (some e) hcarried hm.1 hm.2
  exact ⟨w', h⟩

end Run

/-- A positive number is a length as it is written unless it is below the ten-thousandth. So a drawing whose natural
size is written to its root keeps it exactly if there is a view box or no side is as small as that; the same size is
found once a document that is in place, and whose addresses need no escapes, is written and put in place again. -/
theorem natural_size_written (x : Binary64) (content : String) (w : World) :
    (x.isPositive = true → Drawing.length? x.plainText = if 1 / 10000 ≤ x.value then some x else none) ∧
    (∀ d : Drawing, w.drawing = some d → d.box.width.isPositive = true → d.box.height.isPositive = true →
      ∃ w' d', Run.size (.float d.box.width) (.float d.box.height) w = .ok () w' ∧ w'.drawing = some d' ∧
        d'.box = d.rewritten) ∧
    ∀ e : Element Unit, Markup.read (.text content) = some e → e.Plain → Run.IsMeasured w →
      ∃ w' d e', Run.prepareScene (some e) w = .ok () w' ∧ w'.drawing = some d ∧
        w'.visual.box = (Run.drawingOf 0 (some e)).box ∧ Markup.read (.text d.markup) = some e' ∧
        (w'.visual.box.width.isPositive = true → w'.visual.box.height.isPositive = true →
          ∀ u : World, Run.IsMeasured u → ∃ u', Run.prepareScene (some e') u = .ok () u' ∧
            u'.visual.box = (Run.drawingOf 0 (some e)).rewritten) := by
  refine ⟨Drawing.length?_plainText, fun d hd hw hh => ?_, fun e hread hp hm => ?_⟩
  · obtain ⟨w', d', hsize, hd', hsized⟩ := Run.size_ok hd d.box.width d.box.height
    exact ⟨w', d', hsize, hd', hsized.box hw hh⟩
  · have hs := read_eq_some hread
    obtain ⟨w', h⟩ := Run.exists_prepareScene hs hm
    obtain ⟨hbox, d, hd, ⟨e', he'⟩, hsize⟩ := Run.prepareScene_natural hs hp h
    refine ⟨w', d, e', h, hd, hbox, he'.read, fun hw hh u hu => ?_⟩
    obtain ⟨u', h'⟩ := Run.exists_prepareScene he'.sound hu
    have hagain := (Run.prepareScene_natural he'.sound he'.plain h').1
    have hsame : (Run.drawingOf 0 (some e')).box = d.box := by
      unfold Drawing.box Drawing.rootAttr?
      rw [he'.head]
      rfl
    rw [hbox] at hw hh
    exact ⟨u', h', hagain.trans (hsame.trans (hsize hw hh))⟩

/-- A document with a width and a height. -/
def sizedRoot (width height : String) : Element Unit :=
  ⟨(), ⟨Name.plain "svg", [], [⟨Name.plain "width", width⟩, ⟨Name.plain "height", height⟩]⟩, .nil⟩

/-- A world in which the drawing of such a document stands. -/
def World.showing (width height : String) : World :=
  { World.ofSetup { path := "" } with drawing := some (Run.drawingOf 0 (some (sizedRoot width height))) }

/-- Half a pixel is kept. -/
theorem natural_size_written_half : ∃ x : Binary64,
    Drawing.length? "0.5" = some x ∧ Drawing.length? x.plainText = some x ∧
    (∃ w' d', Run.size (.float x) (.float (.ofInt 3)) (.showing "0.5" "3") = .ok () w' ∧ w'.drawing = some d' ∧
      d'.box.width = x) ∧
    ∃ w' d e', Run.prepareScene (some (sizedRoot "0.5" "3")) (.ofSetup { path := "" }) = .ok () w' ∧
      w'.drawing = some d ∧ Markup.read (.text d.markup) = some e' ∧
      ∃ u', Run.prepareScene (some e') (.ofSetup { path := "" }) = .ok () u' ∧ u'.visual.box.width = x := by
  obtain ⟨x, hx⟩ : ∃ x, x = Binary64.ofDecimal false 5 (-1) := ⟨_, rfl⟩
  have hread : Markup.read (.text "<svg width=\"0.5\" height=\"3\"/>") = some (sizedRoot "0.5" "3") := rfl
  have hbox : (Run.drawingOf 0 (some (sizedRoot "0.5" "3"))).box = ⟨.zero false, .zero false, x, .ofInt 3⟩ := by
    subst hx
    decide +kernel
  have hsame : (Run.drawingOf 0 (some (sizedRoot "0.5" "3"))).rewritten = ⟨.zero false, .zero false, x, .ofInt 3⟩ := by
    subst hx
    decide +kernel
  have hwidth : x.isPositive = true := by
    subst hx
    decide +kernel
  have hheight : (Binary64.ofInt 3).isPositive = true := by decide +kernel
  have hvalue : 1 / 10000 ≤ x.value := by
    subst hx
    decide +kernel
  have hplain : (sizedRoot "0.5" "3").Plain := List.forall_mem_singleton.mpr fun _ h => absurd h List.not_mem_nil
  obtain ⟨hlength, hsize, -⟩ := natural_size_written x "" (.showing "0.5" "3")
  obtain ⟨w₁, d₁, hsize, hd₁, hbox₁⟩ := hsize _ rfl (by rw [hbox]; exact hwidth) (by rw [hbox]; exact hheight)
  obtain ⟨-, -, hagain⟩ := natural_size_written x "<svg width=\"0.5\" height=\"3\"/>" (.ofSetup { path := "" })
  obtain ⟨w', d, e', hplace, hd, hbox', hread', hagain⟩ := hagain _ hread hplain ⟨rfl, rfl⟩
  rw [hbox] at hsize hbox'
  obtain ⟨u', hplace', hbox''⟩ := hagain (by rw [hbox']; exact hwidth) (by rw [hbox']; exact hheight)
    (.ofSetup { path := "" }) ⟨rfl, rfl⟩
  refine ⟨x, ?_, ?_, ⟨w₁, d₁, hsize, hd₁, ?_⟩, w', d, e', hplace, hd, hread', u', hplace', ?_⟩
  · subst hx
    decide +kernel
  · rw [hlength hwidth, if_pos hvalue]
  · rw [hbox₁, hsame]
  · rw [hbox'', hsame]

/-- A width of a hundred-thousandth is written with an exponent, which is no length: the size is lost. -/
theorem small_size_lost : ∃ x : Binary64, Drawing.length? "0.00001" = some x ∧ x.isPositive = true ∧
    x.plainText = "1e-05" ∧ Drawing.length? "1e-05" = none ∧
    (Run.drawingOf 0 (some (sizedRoot "0.00001" "1"))).box = ⟨.zero false, .zero false, x, .ofInt 1⟩ ∧
    ((Run.size (.float x) (.float (.ofInt 1))).after (.showing "0.00001" "1")).drawing.map (·.box) =
      some Drawing.Box.zero := by
  refine ⟨Binary64.ofDecimal false 1 (-5), ?_⟩
  decide +kernel

end LiveSvg
