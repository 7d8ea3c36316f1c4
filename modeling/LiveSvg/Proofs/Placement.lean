import LiveSvg.Proofs.Touch
import LiveSvg.Proofs.Trees
/-!
How the drawing of a document is put in its place and scaled: which drawing there is in the end. The elements
below its root keep labels of their own.
-/

namespace LiveSvg

open Number (Binary64)
open Script (Datum)

variable {w w' : World} {d d' : Drawing}

namespace Drawing

variable {key : Key} {value base : String} {style : Style}

theorem Apart.put {id : Nat} (h : d.Apart) (hp : d.put id key value = .ok d') : d'.Apart := by
  obtain ⟨g, generated, -, rfl⟩ := put_ok hp
  exact h.retag id g

theorem Apart.putStyle (h : d.Apart) (hs : d.putStyle style = .ok d') : d'.Apart := by
  unfold Drawing.putStyle at hs
  split at hs
  · cases hs
    exact h.retag _ _
  · exact h.put hs

theorem Apart.setStyle {name : String} {value : Option String} (h : d.Apart) (hs : d.setStyle name value = .ok d') :
    d'.Apart := h.putStyle hs

end Drawing

namespace Run

theorem drawing_eq (wanted : String) (h : w.drawing = some d) : drawing wanted w = .ok d w := by
  unfold drawing
  rw [get_bind, h]
  rfl

/-- The world in which the drawing is another one, if there is one. -/
def drawn (w : World) : Except Failure Drawing → EStateM.Result Failure World Unit
  | .ok d => .ok () ((setDrawing d).after w)
  | .error f => .error f w

theorem setStyle_eq (name value : String) (h : w.drawing = some d) :
    setStyle (.text name) (.text value) w = drawn w (d.setStyle name (some value)) := by
  unfold setStyle
  rw [bind_ok (drawing_eq _ h)]
  change (ofExcept (d.setStyle name (some value)) >>= setDrawing) w = _
  cases d.setStyle name (some value) <;> rfl

theorem scale_eq (factor : Binary64) (h : w.drawing = some d) :
    scale (.float factor) w = drawn w (d.setStyle "transform" (some (Drawing.scaleText factor.plainText))) :=
  setStyle_eq _ _ h

/-- The scale of a visual, if it gets one. -/
def scaling (v : Visual) : Except Failure (Option Binary64) :=
  if !(v.target.1.truthy && v.target.2.truthy) || v.box.isEmpty then .ok none
  else (scaleFor v.box v.target.1 v.target.2).map some

/-- Scaling gives the visual its scale and writes it into the style of the drawing. -/
theorem resize_eq (h : w.drawing = some d) : resize w =
    match scaling w.visual with
    | .error f => .error f w
    | .ok none => .ok () w
    | .ok (some factor) => drawn { w with visual := { w.visual with scale := some factor } }
        (d.setStyle "transform" (some (Drawing.scaleText factor.plainText))) := by
  unfold resize scaling
  rw [get_bind]
  dsimp only
  split
  · rfl
  · cases scaleFor w.visual.box w.visual.target.1 w.visual.target.2 with
    | error f => rfl
    | ok factor => exact scale_eq (w := { w with visual := { w.visual with scale := some factor } }) factor h

/-- The world in which a drawing has been put in its place, before it is scaled. -/
def framed (w : World) (box : Drawing.Box) (d : Drawing) : World :=
  let kept := match w.drawing with
    | some old => old.root :: old.loose
    | none => []
  let d := { d with loose := kept }
  let w := { w with visual := { w.visual with box } }
  { w with
    past := ⟨.draw d, w.toSituation⟩ :: w.past
    drawing := some d
    mounts := if w.visual.hasContainer then w.mounts + 1 else w.mounts
    isMounted := w.visual.hasContainer }

theorem framed_eq (root : Option (Markup.Element Unit)) {d₀ : Drawing}
    (h₀ : prepared (drawingOf ((w.drawing.map (·.next)).getD 0) root) = .ok d₀)
    (h : naturallySized d₀ d₀.box = .ok d) : prepareScene root w = resize (framed w d₀.box d) := by
  unfold prepareScene framed
  rw [get_bind]
  dsimp only
  rw [h₀]
  change (ofExcept (naturallySized d₀ d₀.box) >>= _) _ = _
  rw [h]
  have hplaced : ∀ w : World, (do
      modify fun w => { w with isMounted := false }
      if (← get).visual.hasContainer then mount
      resize : Run Unit) w = resize { w with
        mounts := if w.visual.hasContainer then w.mounts + 1 else w.mounts
        isMounted := w.visual.hasContainer } := by
    intro w
    change (if w.visual.hasContainer then mount >>= fun _ => resize else resize) { w with isMounted := false } = _
    cases w.visual.hasContainer <;> rfl
  exact hplaced _

/-- Where a scene has been prepared, there was a drawing to put in its place. -/
theorem prepareScene_eq_ok {root : Option (Markup.Element Unit)} (h : prepareScene root w = .ok () w') :
    ∃ d₀ d, prepared (drawingOf ((w.drawing.map (·.next)).getD 0) root) = .ok d₀ ∧
      naturallySized d₀ d₀.box = .ok d ∧ resize (framed w d₀.box d) = .ok () w' := by
  have hok : ∀ {α : Type} {x : Except Failure α} {g : α → Run Unit} {w : World},
      (ofExcept x >>= g) w = .ok () w' → ∃ a, x = .ok a := by
    intro α x g w h
    cases x with
    | ok a => exact ⟨a, rfl⟩
    | error f => cases h
  have h' := h
  unfold prepareScene at h
  rw [get_bind] at h
  obtain ⟨d₀, h₀⟩ := hok h
  rw [h₀] at h
  obtain ⟨d, h₁⟩ := hok (x := naturallySized d₀ d₀.box) h
  exact ⟨d₀, d, h₀, h₁, framed_eq root h₀ h₁ ▸ h'⟩

theorem drawn_eq_ok {r : Except Failure Drawing} (h : drawn w r = .ok () w') :
    ∃ d, r = .ok d ∧ w' = (setDrawing d).after w := by
  cases r with
  | ok d =>
    cases h
    exact ⟨d, rfl, rfl⟩
  | error f => cases h

theorem Apart.naturallySized {box : Drawing.Box} (h : d.Apart) (hd : naturallySized d box = .ok d') : d'.Apart := by
  unfold Run.naturallySized at hd
  split at hd
  · cases hd
    exact h
  · obtain ⟨d₁, h₁, hd⟩ := Json.bind_eq_ok.mp hd
    exact Drawing.Apart.put (Drawing.Apart.put h h₁) hd

/-- The elements of a drawing that has been put in its place have labels of their own. -/
theorem prepareScene_apart {root : Option (Markup.Element Unit)} (h : prepareScene root w = .ok () w') :
    ∃ d, w'.drawing = some d ∧ d.Apart := by
  obtain ⟨d₀, d, h₀, h₁, h⟩ := prepareScene_eq_ok h
  have hof : ∀ first, (drawingOf first root).Apart := by
    intro first
    cases root with
    | none => exact Drawing.Apart.ofElement _ _ _
    | some e => exact Drawing.Apart.ofElement _ _ _
  obtain ⟨d₂, h₂, h₀⟩ := Json.bind_eq_ok.mp h₀
  have apart : d.Apart := Apart.naturallySized (((hof _).setStyle h₂).setStyle h₀) h₁
  have framed : ∃ d', (framed w d₀.box d).drawing = some d' ∧ d'.Apart := ⟨_, rfl, apart⟩
  obtain ⟨d', hd', apart'⟩ := framed
  rw [resize_eq hd'] at h
  split at h
  · cases h
  · cases h
    exact ⟨d', hd', apart'⟩
  · obtain ⟨d₃, h₃, rfl⟩ := drawn_eq_ok h
    exact ⟨d₃, rfl, apart'.setStyle h₃⟩

end Run

end LiveSvg
