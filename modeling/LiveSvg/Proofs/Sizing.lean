import LiveSvg.Proofs.Blindness
import LiveSvg.Proofs.Release
import LiveSvg.Proofs.Scaling
import LiveSvg.Proofs.Starting
/-!
A size that is asked for before a visual is loaded, while it is, or afterwards: the drawing is fitted to the
last one in any case, and all that loading does besides is blind for it.
-/

namespace LiveSvg

open Number (Binary64)
open Script (Datum)

variable {t : Fitting} {w w' : World}

namespace Fitting.Blind

/-! ### Loading -/

theorem fetchDocument : t.Blind Run.fetchDocument := by
  refine get (fun _ _ => rfl) fun w => bind (host _) fun _ => get (fun _ _ => rfl) fun w => ?_
  split
  · exact pure _
  · exact throw _

theorem loadLiterals (entries : List (Value × Settings.Entry)) : t.Blind (Run.loadLiterals entries) := by
  induction entries with
  | nil => exact pure _
  | cons e rest ih =>
    obtain ⟨id, entry⟩ := e
    cases entry with
    | literal v => exact bind (load v) fun _ => bind ih fun _ => pure _
    | _ => exact ih

theorem descriptorOf (root : Option (Markup.Element Unit)) : t.Blind (Run.descriptorOf root) := by
  unfold Run.descriptorOf
  split
  · exact logged _
  · exact pure _

theorem adopt (d : Descriptor) : t.Blind (Run.adopt d) := by
  refine bind (visual (fun _ => rfl) fun _ _ _ => rfl) fun _ => get (fun _ _ => rfl) fun w => ?_
  refine bind (logged _) fun settings => bind (loadLiterals _) fun literals => ?_
  refine bind (visual (fun _ => rfl) fun _ _ _ => rfl) fun _ => bind (logged _) fun programs => ?_
  exact visual (fun _ => rfl) fun _ _ _ => rfl

/-! ### The first state -/

theorem addColor (c : Color) : t.Blind (Run.addColor c) := by
  refine get (fun _ _ => rfl) fun w => bind ?_ fun _ => pure _
  exact .modify (fun _ => ⟨rfl, rfl, rfl, rfl, rfl⟩) fun _ _ => rfl

theorem defaultProperty (p : Property) : t.Blind (Run.defaultProperty p) :=
  ite (pure _) <| ite (pure _) <| ite (pure _) <| ite (addColor _) (pure _)

theorem colorProperty (p : Property) (value : Datum) : t.Blind (Run.colorProperty p value) := by
  refine bind view fun v => ?_
  split
  · exact bind (logged _) fun _ => addColor _
  · exact bind (logEntry _) fun _ => addColor _

theorem textProperty (value : Datum) : t.Blind (Run.textProperty value) := by
  refine get (fun _ _ => rfl) fun w => ite (bind (ofExcept _) fun _ => ?_) (pure _)
  split
  · exact pure _
  · exact pure _

theorem propertyValue (id : Datum) : t.Blind (Run.propertyValue id) := by
  refine get (fun _ _ => rfl) fun w => ?_
  dsimp only
  split
  · exact pure _
  · split
    · exact defaultProperty _
    · exact ite (colorProperty _ _) (ite (textProperty _) (pure _))

theorem setTags : t.Blind Run.setTags := by
  refine drawing (fun _ _ => rfl) fun d => bind (mapM fun _ _ => bind (newList _) fun _ => pure _) fun tags => ?_
  exact .modify (fun _ => ⟨rfl, rfl, rfl, rfl, rfl⟩) fun _ _ => rfl

theorem setProperty (p : Property) : t.Blind (Run.setProperty p) := by
  refine bind (propertyValue _) fun value => bind (ofExcept _) fun key => ?_
  exact .modify (fun _ => ⟨rfl, rfl, rfl, rfl, rfl⟩) fun _ _ => rfl

theorem wire (tag : Value) (elements : List Nat) (trigger : String) (program : Script.Program) :
    t.Blind (Run.wire tag elements trigger program) := by
  refine get (fun _ _ => rfl) fun w => bind ?_ fun _ => forM fun id _ => ?_
  · exact .modify (fun _ => ⟨rfl, rfl, rfl, rfl, rfl⟩) fun _ _ => rfl
  · exact bind (setAttr (fun _ => by decide) _) fun _ => listen _ _ _

theorem wireTag (u : Tag) : t.Blind (Run.wireTag u) := by
  unfold Run.wireTag
  split
  · exact pure _
  · exact pure _
  · exact get (fun _ _ => rfl) fun w => bind (findByTag _) fun _ => forM fun _ _ => wire _ _ _ _

theorem seed (id : Value) (initial : Datum) : t.Blind (Run.seed id initial) := by
  refine bind (ofExcept _) fun key => bind (record _) fun _ => bind (visual (fun _ => rfl) fun _ _ _ => rfl) fun _ => ?_
  exact .modify (fun _ => ⟨rfl, rfl, rfl, rfl, rfl⟩) fun _ _ => rfl

theorem setUp (b : Behavior) : t.Blind (Run.setUp b) := by
  refine get (fun _ _ => rfl) fun w => ?_
  dsimp only
  split
  · refine bind (load _) fun _ => bind (normalize _ _) fun _ => bind (seed _ _) fun _ => ?_
    exact visual (fun _ => rfl) fun _ _ _ => rfl
  · exact visual (fun _ => rfl) fun _ _ _ => rfl
  · exact pure _
  · exact throw _

theorem startAcquisition : t.Blind Run.startAcquisition := by
  refine get (fun _ _ => rfl) fun w => ite (pure _) (get (fun _ _ => rfl) fun w => ?_)
  refine bind (record _) fun _ => bind (setBusy true) fun _ => bind ?_ fun _ => soon _
  exact visual (fun _ => rfl) fun _ _ _ => rfl

theorem firstState : t.Blind Run.firstState := by
  refine bind ?_ fun _ => bind (visual (fun _ => rfl) fun _ _ _ => rfl) fun _ => bind setTags fun _ => ?_
  · exact .modify (fun _ => ⟨rfl, rfl, rfl, rfl, rfl⟩) fun _ _ => rfl
  · exact get (fun _ _ => rfl) fun w => bind (forM fun p _ => setProperty p) fun _ =>
      bind (forM fun u _ => wireTag u) fun _ => forM fun b _ => setUp b

theorem present : t.Blind (Run.present Run.play) :=
  bind (render plays) fun _ => bind startAcquisition fun _ => get (fun _ _ => rfl) fun _ => logEntry _

end Fitting.Blind

/-! ### The drawing in its place -/

/-- What has come to pass from one world to another leaves the style of the drawing alone. -/
def Sparing (a b : World) : Prop := ∃ new, b.past = new ++ a.past ∧ ∀ e ∈ new, e.sparesStyle = true

theorem Sparing.split {a b c : World} (hb : Later a b) (hc : Later b c) (h : Sparing a c) :
    Sparing a b ∧ Sparing b c := by
  obtain ⟨new, hnew⟩ := hb
  obtain ⟨more, hmore⟩ := hc
  obtain ⟨all, hall, spared⟩ := h
  have hparts : all = more ++ new := by
    rw [hmore, hnew, ← List.append_assoc] at hall
    exact (List.append_cancel_right hall).symm
  subst hparts
  exact ⟨⟨new, hnew, fun e he => spared e (by simp [he])⟩, more, hmore, fun e he => spared e (by simp [he])⟩

/-- What is blind leads from alike worlds to alike worlds, with the same result. -/
theorem Fitting.Blind.leads {α : Type} {x : Run α} {a : α} {u : World} (hx : t.Blind x) (k : t.Twins w w')
    (h : x w = .ok a u) (spared : Sparing w u) : ∃ u', x w' = .ok a u' ∧ t.Twins u u' := by
  obtain ⟨new, hnew, hk⟩ := hx w w'
  rw [Run.after_ok h] at hnew
  obtain ⟨all, hall, hspared⟩ := spared
  obtain rfl : all = new := List.append_cancel_right (hall.symm.trans hnew)
  have halike := hk hspared k
  rw [h] at halike
  cases hw' : x w' with
  | ok b u' =>
    rw [hw'] at halike
    cases halike with
    | ok _ ku => exact ⟨u', rfl, ku⟩
  | error f u' =>
    rw [hw'] at halike
    cases halike

/-! ### Sizes -/

/-- A size that a drawing can be fitted to: both sides are numbers that a float can be, and none is zero. -/
structure IsSize (size : Value × Value) : Prop where
  width : size.1.truthy = true ∧ size.1.isMeasure = true
  height : size.2.truthy = true ∧ size.2.isMeasure = true

/-- The scale of a drawing with a box once sizes have been asked for: that of the last one, and none where the
box is empty. -/
def finalScale (b : Drawing.Box) (sizes : List (Value × Value)) : Option Binary64 :=
  if b.isEmpty then none else sizes.getLast?.bind fun size => (Run.scaleFor b size.1 size.2).toOption

variable {b : Drawing.Box} {d d' : Drawing} {s : String} {size : Value × Value} {sizes : List (Value × Value)}

theorem IsSize.scaleFor_ok (h : IsSize size) (hb : b.isEmpty = false) :
    ∃ x, Run.scaleFor b size.1 size.2 = .ok x ∧ finalScale b [size] = some x := by
  obtain ⟨x, hx⟩ := Run.scaleFor_ok hb h.width.2 h.height.2 h.width.1 h.height.1
  refine ⟨x, hx, ?_⟩
  simp [finalScale, hb, hx, Except.toOption]

theorem finalScale_nil (b : Drawing.Box) : finalScale b [] = none := by
  unfold finalScale
  split <;> rfl

theorem finalScale_concat (b : Drawing.Box) (sizes : List (Value × Value)) (size : Value × Value) :
    finalScale b (sizes ++ [size]) = finalScale b [size] := by
  unfold finalScale
  rw [List.getLast?_concat]
  rfl

/-- The world in which a size has been asked for. -/
def World.targeting (w : World) (target : Value × Value) : World :=
  { w with visual := { w.visual with target } }

namespace Run

/-- A size that is asked for is remembered; a drawing that is there is fitted to it. -/
theorem setSize_eq (size : Value × Value) (w : World) : setSize size.1 size.2 w =
    if w.drawing.isSome then resize (w.targeting size) else .ok () (w.targeting size) := by
  change (if w.drawing.isSome then resize else Pure.pure ()) (w.targeting size) = _
  split <;> rfl

/-- The world in which the drawing is fitted to a scale, if there is one. -/
def fitted (w : World) (d : Drawing) (s : String) : Option Binary64 → World
  | none => w
  | some x => (setDrawing (d.restyled (Drawing.scaledStyle s x).text)).after
      { w with visual := { w.visual with scale := some x } }

/-- A drawing that wears a style is fitted to the size that is asked for. -/
theorem resize_fitted (hd : w.drawing = some d) (hw : d.Wears s) (hs : Drawing.isCarried s = true)
    (h : IsSize w.visual.target) : resize w = .ok () (fitted w d s (finalScale w.visual.box [w.visual.target])) := by
  rw [resize_eq hd]
  unfold scaling
  rw [h.width.1, h.height.1]
  cases hb : w.visual.box.isEmpty with
  | true =>
    simp only [finalScale, hb]
    rfl
  | false =>
    obtain ⟨x, hx, hfinal⟩ := h.scaleFor_ok hb
    rw [hx, hfinal]
    change drawn _ (d.setStyle "transform" _) = _
    rw [Drawing.setStyle_scale hw hs]
    rfl

/-- Asks for sizes, one after another. -/
def setSizes (sizes : List (Value × Value)) : Run Unit := sizes.forM fun size => setSize size.1 size.2

end Run

/-- The drawing of a visual is like another one in a style, after sizes have been asked for. -/
structure Scaled (b : Drawing.Box) (d : Drawing) (s : String) (sizes : List (Value × Value)) (w : World) : Prop where
  box : w.visual.box = b
  scale : w.visual.scale = finalScale b sizes
  drawing : ∃ d', w.drawing = some d' ∧ d'.root = (d.dress (Drawing.fittedStyle s (finalScale b sizes))).root

namespace Scaled

theorem setSize (h : Scaled b d s sizes w) (hs : Drawing.isCarried s = true) (hsize : IsSize size) :
    ∃ w', Run.setSize size.1 size.2 w = .ok () w' ∧ Scaled b d s (sizes ++ [size]) w' := by
  obtain ⟨d', hd, hroot⟩ := h.drawing
  have hfitted := Run.resize_fitted (w := w.targeting size) hd (Drawing.wears_of_root hroot)
    (Drawing.isCarried_fittedStyle hs _) hsize
  refine ⟨_, (Run.setSize_eq size w).trans ((if_pos (by rw [hd]; rfl)).trans hfitted), ?_⟩
  change Scaled b d s (sizes ++ [size]) (Run.fitted _ d' _ (finalScale w.visual.box [size]))
  rw [h.box]
  cases hx : finalScale b [size] with
  | none =>
    -- only an empty box leaves a size without a scale
    have hb : b.isEmpty = true := by
      cases hb : b.isEmpty with
      | true => rfl
      | false =>
        obtain ⟨x, -, hsome⟩ := hsize.scaleFor_ok hb
        rw [hx] at hsome
        cases hsome
    have hnone : ∀ sizes, finalScale b sizes = none := fun _ => if_pos hb
    have hscale := h.scale
    rw [hnone] at hscale hroot
    refine ⟨h.box, hscale.trans (hnone _).symm, d', hd, ?_⟩
    rw [hnone]
    exact hroot
  | some x =>
    refine ⟨h.box, ?_, _, rfl, ?_⟩
    · rw [finalScale_concat, hx]
      rfl
    · rw [finalScale_concat, hx, Drawing.restyled_root, Drawing.scaledStyle_fitted]
      have hdress : ∀ t, (d'.dress t).root = (d.dress t).root := fun t => by
        have htwice := d.dress_dress (Drawing.fittedStyle s (finalScale b sizes)) t
        rw [← htwice]
        simp only [Drawing.dress, hroot]
      exact hdress _

theorem setSizes (h : Scaled b d s sizes w) (hs : Drawing.isCarried s = true) {more : List (Value × Value)}
    (hmore : ∀ size ∈ more, IsSize size) :
    ∃ w', Run.setSizes more w = .ok () w' ∧ Scaled b d s (sizes ++ more) w' := by
  induction more generalizing w sizes with
  | nil => exact ⟨w, rfl, by rwa [List.append_nil]⟩
  | cons size more ih =>
    obtain ⟨u, hu, ku⟩ := h.setSize hs (hmore size (by simp))
    obtain ⟨w', hw', kw'⟩ := ih ku fun size' h' => hmore size' (by simp [h'])
    refine ⟨w', (Run.bind_ok hu).trans hw', ?_⟩
    rwa [List.append_assoc] at kw'

/-- What two drawings show is the same where both are like a third one and the last size is the same. -/
theorem same {w' : World} {sizes' : List (Value × Value)} (h : Scaled b d s sizes w) (h' : Scaled b d s sizes' w')
    (hsizes : finalScale b sizes = finalScale b sizes') : w.visual.scale = w'.visual.scale ∧
      w.drawing.map (·.markup) = w'.drawing.map (·.markup) := by
  obtain ⟨e, he, hroot⟩ := h.drawing
  obtain ⟨e', he', hroot'⟩ := h'.drawing
  refine ⟨by rw [h.scale, h'.scale, hsizes], ?_⟩
  rw [he, he', Option.map_some, Option.map_some, Drawing.markup, Drawing.markup, hroot, hroot', hsizes]

/-- A drawing without a scale shows what the one shows that it is like. -/
theorem unscaled (h : Scaled b d s sizes w) (hw : d.Wears s) (hnone : finalScale b sizes = none) :
    w.visual.scale = none ∧ w.drawing.map (·.markup) = some d.markup := by
  obtain ⟨e, he, hroot⟩ := h.drawing
  have hdress : d.dress s = d := hw
  have hroot : e.root = d.root := by
    rw [hroot, hnone]
    exact congrArg Drawing.root hdress
  refine ⟨h.scale.trans hnone, ?_⟩
  rw [he, Option.map_some, Drawing.markup, hroot]
  rfl

/-- A drawing at a scale has the style of the one that it is like, with that scale for its transform. -/
theorem transformed (h : Scaled b d s sizes w) (hw : d.Wears s) {x : Binary64} (hsome : finalScale b sizes = some x) :
    w.visual.scale = some x ∧ ∃ e, w.drawing = some e ∧
      e.style = d.style.put "transform" (some (Drawing.scaleText x.plainText)) := by
  obtain ⟨e, he, hroot⟩ := h.drawing
  rw [hsome] at hroot
  refine ⟨h.scale.trans hsome, e, he, ?_⟩
  rw [hw.style, (Drawing.wears_of_root hroot).style]
  exact (Drawing.scaledStyle_tidy s x).parse_text

end Scaled

/-! ### Before loading -/

/-- A visual without a drawing, for which no size has been asked. -/
structure World.Unplaced (w : World) : Prop where
  drawing : w.drawing = none
  scale : w.visual.scale = none
  target : w.visual.target = (.null, .null)

theorem Run.setSizes_unplaced (hd : w.drawing = none) (sizes : List (Value × Value)) : Run.setSizes sizes w =
    .ok () (w.targeting (sizes.getLast?.getD w.visual.target)) := by
  induction sizes generalizing w with
  | nil => rfl
  | cons size sizes ih =>
    have hfirst : Run.setSize size.1 size.2 w = .ok () (w.targeting size) :=
      (Run.setSize_eq size w).trans (if_neg (by rw [hd]; exact Bool.false_ne_true))
    refine (Run.bind_ok hfirst).trans ((ih (w := w.targeting size) hd).trans ?_)
    rw [List.getLast?_cons]
    rfl

/-! ### Loading with a size -/

/-- Two worlds without a drawing, for one of which a size has been asked for. -/
def unplaced (b : Drawing.Box) (target : Value × Value) : Fitting :=
  ⟨b, none, ⟨"", none, (.null, .null)⟩, ⟨"", none, target⟩⟩

/-- A drawing that has been put in its place, and the same one fitted to sizes that were asked for before. -/
def placed (b : Drawing.Box) (root : Nat) (s : String) (sizes : List (Value × Value)) : Fitting :=
  ⟨b, some root, ⟨s, none, (.null, .null)⟩,
    ⟨Drawing.fittedStyle s (finalScale b sizes), finalScale b sizes, sizes.getLast?.getD (.null, .null)⟩⟩

theorem World.Unplaced.twins (h : w.Unplaced) (target : Value × Value) :
    (unplaced w.visual.box target).Twins w (w.targeting target) := by
  refine ⟨?_, by rw [h.drawing]; rfl, fun d hd => ?_, rfl, h.scale, h.target⟩
  · have hvisual : { w.visual with scale := none, target := target } = { w.visual with target } := by rw [← h.scale]
    unfold Situation.fitted World.targeting unplaced
    rw [h.drawing, hvisual]
    rfl
  · rw [h.drawing] at hd
    cases hd

theorem Fitting.Twins.unplaced_drawing {target : Value × Value} (k : (unplaced b target).Twins w w') :
    w.drawing = none ∧ w'.drawing = none := by
  have hnone : w.drawing = none := Option.map_eq_none_iff.mp k.root
  exact ⟨hnone, by rw [k.drawing, hnone]; rfl⟩

/-- A drawing that is put in its place is the same for both, with what has been asked for remembered. -/
theorem Fitting.Twins.framed {target : Value × Value} (k : (unplaced b target).Twins w w') (box : Drawing.Box)
    (d : Drawing) : (Run.framed w' box d).toSituation = ((Run.framed w box d).targeting target).toSituation := by
  obtain ⟨hnone, -⟩ := k.unplaced_drawing
  have hscale : w.visual.scale = none := k.scale
  rw [k.world]
  unfold Situation.fitted Run.framed World.targeting unplaced
  dsimp only
  rw [hnone, hscale]
  rfl

/-- A drawing is fitted to the last size that has been asked for, if any has been. -/
theorem resize_last (hd : w.drawing = some d) (hw : d.Wears s) (hs : Drawing.isCarried s = true)
    (hsizes : ∀ size ∈ sizes, IsSize size) (htarget : w.visual.target = sizes.getLast?.getD (.null, .null)) :
    Run.resize w = .ok () (Run.fitted w d s (finalScale w.visual.box sizes)) := by
  rcases List.eq_nil_or_concat' sizes with rfl | ⟨init, size, rfl⟩
  · have hscaling : Run.scaling w.visual = .ok none := by
      unfold Run.scaling
      rw [htarget]
      rfl
    rw [Run.resize_eq hd, hscaling, finalScale_nil]
    rfl
  · rw [List.getLast?_concat, Option.getD_some] at htarget
    have hsize : IsSize w.visual.target := htarget ▸ hsizes size (by simp)
    rw [Run.resize_fitted hd hw hs hsize, finalScale_concat, htarget]

/-- Nothing but the style of the drawing and its scale tells that it has been fitted. -/
theorem fitted_situation (hd : w.drawing = some d) (hloose : d.loose = []) (hw : d.Wears s)
    (hscale : w.visual.scale = none) (scale : Option Binary64) : (Run.fitted w d s scale).toSituation =
      w.toSituation.fitted ⟨Drawing.fittedStyle s scale, scale, w.visual.target⟩ := by
  cases scale with
  | none =>
    have hworn : d.dress s = d := hw
    change w.toSituation = _
    unfold Situation.fitted Drawing.fittedStyle
    rw [hd, Option.map_some, Option.elim_none, hworn, ← hd]
    dsimp only
    rw [← hscale]
  | some x =>
    unfold Situation.fitted Drawing.fittedStyle
    rw [hd, Option.map_some, Option.elim_some, ← Drawing.restyled_eq hloose]
    rfl

/-- A drawing is put in its place and fitted to the last size that has been asked for. -/
theorem prepareScene_twins {target : Value × Value} {root : Option (Markup.Element Unit)} {u u' v : World}
    (k : (unplaced b target).Twins u u') (hsizes : ∀ size ∈ sizes, IsSize size)
    (htarget : target = sizes.getLast?.getD (.null, .null)) (h : Run.prepareScene root u = .ok () v) :
    ∃ id s v', Drawing.isCarried s = true ∧ Run.prepareScene root u' = .ok () v' ∧
      (placed v.visual.box id s sizes).Twins v v' := by
  obtain ⟨hnone, hnone'⟩ := k.unplaced_drawing
  obtain ⟨d₀, d, h₀, h₁, hresize⟩ := Run.prepareScene_eq_ok h
  obtain ⟨s, hs, hw₀⟩ := Drawing.wears_of_prepared h₀
  obtain ⟨bare, hbare⟩ : ∃ bare : Drawing, bare = { d with loose := [] } := ⟨_, rfl⟩
  have hw : bare.Wears s := by
    have hworn : d.dress s = d := hw₀.naturallySized h₁
    have hroot : d.root = (d.dress s).root := congrArg Drawing.root hworn.symm
    rw [hbare]
    exact Drawing.wears_of_root hroot
  have hd : (Run.framed u d₀.box d).drawing = some bare := by
    unfold Run.framed
    rw [hnone, hbare]
  have hv : v = Run.framed u d₀.box d := by
    have hstill := resize_last hd hw hs (fun _ h => absurd h List.not_mem_nil) k.target
    rw [hstill, finalScale_nil] at hresize
    cases hresize
    rfl
  subst hv
  refine ⟨bare.root.id, s, ?_⟩
  have hsame := k.framed d₀.box d
  obtain ⟨y, hy⟩ : ∃ y, y = Run.framed u' d₀.box d := ⟨_, rfl⟩
  rw [← hy] at hsame
  have hyd : y.drawing = some bare := (congrArg Situation.drawing hsame).trans hd
  have hyv : y.visual = { (Run.framed u d₀.box d).visual with target } := congrArg Situation.visual hsame
  have hprepare : Run.prepareScene root u' = Run.resize y := by
    rw [hy]
    exact Run.framed_eq root (by rw [hnone']; rw [hnone] at h₀; exact h₀) h₁
  rw [hprepare, resize_last hyd hw hs hsizes (by rw [hyv]; exact htarget)]
  refine ⟨_, hs, rfl, ?_, by rw [hd]; rfl, fun e he => ?_, rfl, k.scale, k.target⟩
  · have hscale : y.visual.scale = none := by rw [hyv]; exact k.scale
    rw [fitted_situation hyd (by rw [hbare]) hw hscale, hsame, htarget]
    rfl
  · rw [hd] at he
    cases he
    exact hw

theorem Later.framed : Framed Later where
  toCourse := course
  grow _ _ _ := ⟨[], rfl⟩
  draw _ _ := ⟨[_], rfl⟩
  mount _ _ _ := ⟨[], rfl⟩
  shape h := by cases h <;> exact ⟨[], rfl⟩

namespace Run

/-- Reads a document and makes its descriptor that of the visual. -/
def adoptContent (content : String) : Run (Option (Markup.Element Unit)) := do
  let root ← withLog (Document.read (.text content))
  adopt (← descriptorOf root)
  return root

/-- Shows a drawing that is in its place. -/
def showFirst : Run Unit := do
  firstState
  present play

theorem unfold_eq (content : String) :
    unfold content = adoptContent content >>= fun root => prepareScene root >>= fun _ => showFirst := by
  unfold Run.unfold loadContent adoptContent showFirst
  simp only [bind_assoc, pure_bind]

end Run

theorem Fitting.Blind.adoptContent (content : String) : t.Blind (Run.adoptContent content) :=
  bind (logged _) fun root => bind (descriptorOf root) fun d => bind (adopt d) fun _ => pure root

theorem Fitting.Blind.showFirst : t.Blind Run.showFirst := bind firstState fun _ => present

theorem Later.unfold (content : String) : Along Later (Run.unfold content) := by
  rw [Run.unfold_eq]
  refine course.bind (Fitting.Blind.adoptContent (t := unplaced .zero (.null, .null)) content).later fun root => ?_
  refine course.bind (framed.prepareScene root) fun _ => ?_
  exact (Fitting.Blind.showFirst (t := unplaced .zero (.null, .null))).later

/-- A document that is unfolded after a size has been asked for is like one that is unfolded before. -/
theorem unfold_twins {target : Value × Value} {content : String} {u u' v : World}
    (k : (unplaced b target).Twins u u') (hsizes : ∀ size ∈ sizes, IsSize size)
    (htarget : target = sizes.getLast?.getD (.null, .null)) (h : Run.unfold content u = .ok () v)
    (spared : Sparing u v) : ∃ box id s v', Drawing.isCarried s = true ∧ Run.unfold content u' = .ok () v' ∧
      (placed box id s sizes).Twins v v' := by
  rw [Run.unfold_eq] at h
  obtain ⟨root, u₁, h₁, h⟩ := Run.bind_eq_ok.mp h
  obtain ⟨_, u₂, h₂, h₃⟩ := Run.bind_eq_ok.mp h
  have hadopt := Fitting.Blind.adoptContent (t := unplaced b target) content
  have hplace : Later u₁ u₂ := (Later.framed.prepareScene root).leads h₂
  have hshow : Later u₂ v := (Fitting.Blind.showFirst (t := unplaced b target)).later.leads h₃
  obtain ⟨spared₁, spared₂⟩ := spared.split (hadopt.later.leads h₁) (Later.course.trans hplace hshow)
  obtain ⟨u₁', h₁', k₁⟩ := hadopt.leads k h₁ spared₁
  obtain ⟨id, s, u₂', hs, h₂', k₂⟩ := prepareScene_twins k₁ hsizes htarget h₂
  have hfirst := Fitting.Blind.showFirst (t := placed u₂.visual.box id s sizes)
  obtain ⟨-, spared₃⟩ := spared₂.split hplace hshow
  obtain ⟨v', h₃', k₃⟩ := hfirst.leads k₂ h₃ spared₃
  refine ⟨_, id, s, v', hs, ?_, k₃⟩
  rw [Run.unfold_eq, Run.bind_ok h₁', Run.bind_ok h₂', h₃']

/-- Both drawings are like the first one, each at its own scale. -/
theorem Fitting.Twins.scaled {id : Nat} {v v' : World} (k : (placed b id s sizes).Twins v v') :
    ∃ d, v.drawing = some d ∧ d.Wears s ∧ Scaled b d s [] v ∧ Scaled b d s sizes v' := by
  obtain ⟨d, hd, -⟩ := Option.map_eq_some_iff.mp k.root
  have hw : d.dress s = d := k.wears d hd
  refine ⟨d, hd, hw, ⟨k.box, k.scale.trans (finalScale_nil b).symm, d, hd, ?_⟩, ?_, ?_, d.dress _, ?_, rfl⟩
  · rw [finalScale_nil]
    exact congrArg Drawing.root hw.symm
  · rw [k.world]
    exact k.box
  · rw [k.world]
    rfl
  · rw [k.drawing, hd]
    rfl

/-! ### Whole runs -/

/-- Loads a visual for which sizes are asked before, while the document is waited for, and afterwards. -/
def Run.startSized (before during after : List (Value × Value)) : Run Unit := do
  setSizes before
  let content ← fetchDocument
  setSizes during
  unfold content
  setSizes after

theorem Fitting.Twins.targeting {target : Value × Value} (k : (unplaced b target).Twins w w') (size : Value × Value) :
    (unplaced b size).Twins w (w'.targeting size) := by
  refine ⟨?_, k.root, k.wears, k.box, k.scale, k.target⟩
  rw [k.world]
  rfl

/-- A visual is loaded whenever it is loaded without a size, and is fitted to the last size. -/
theorem startSized_scaled (before during after : List (Value × Value)) {w₁ : World} (hw : w.Unplaced)
    (hload : Run.start Run.play w = .ok () w₁) (spared : Sparing w w₁)
    (hsizes : ∀ size ∈ before ++ during ++ after, IsSize size) : ∃ d s a, w₁.drawing = some d ∧ d.Wears s ∧
      Run.startSized before during after w = .ok () a ∧
        Scaled w₁.visual.box d s (before ++ during ++ after) a := by
  rw [Run.start_eq] at hload
  obtain ⟨content, u, hfetch, hunfold⟩ := Run.bind_eq_ok.mp hload
  have hblind := Fitting.Blind.fetchDocument (t := unplaced w.visual.box (before.getLast?.getD (.null, .null)))
  obtain ⟨spared₁, spared₂⟩ := spared.split (hblind.later.leads hfetch) ((Later.unfold content).leads hunfold)
  have hbefore := Run.setSizes_unplaced hw.drawing before
  rw [hw.target] at hbefore
  obtain ⟨u', hfetch', k⟩ := hblind.leads (hw.twins _) hfetch spared₁
  have hduring := Run.setSizes_unplaced k.unplaced_drawing.2 during
  have htarget : during.getLast?.getD u'.visual.target = (before ++ during).getLast?.getD (.null, .null) := by
    have hremembered : u'.visual.target = before.getLast?.getD (.null, .null) := by rw [k.world]; rfl
    rw [hremembered, List.getLast?_append]
    cases during.getLast? <;> rfl
  rw [htarget] at hduring
  obtain ⟨box, id, s, v, hs, hunfold', k'⟩ := unfold_twins (k.targeting _)
    (fun size h => hsizes size (List.mem_append_left _ h)) rfl hunfold spared₂
  obtain ⟨d, hd, hworn, -, hscaled⟩ := k'.scaled
  obtain ⟨a, hafter, ha⟩ := hscaled.setSizes hs fun size h => hsizes size (List.mem_append_right _ h)
  have hbox : w₁.visual.box = box := k'.box
  refine ⟨d, s, a, hd, hworn, ?_, hbox ▸ ha⟩
  unfold Run.startSized
  rw [Run.bind_ok hbefore, Run.bind_ok hfetch', Run.bind_ok hduring, Run.bind_ok hunfold', hafter]

/-- Sizing commutes with loading: where a visual is loaded without a size, and no script reads or writes the style
of the root, it is loaded with sizes as well, however these are split into those asked for before, while the document
is waited for and afterwards. The scale and what the drawing shows are the same as when all are asked for afterwards.
The drawing is as it was loaded if its box is empty or no size has been asked for. Else its style gets the scale
for the last size as its transform. -/
theorem sizing_commutes {before during after : List (Value × Value)} {w₁ : World} (hw : w.Unplaced)
    (hload : Run.start Run.play w = .ok () w₁) (spared : ∀ e ∈ w₁.since w, e.sparesStyle = true)
    (hsizes : ∀ size ∈ before ++ during ++ after, IsSize size) :
    ∃ a b, Run.startSized before during after w = .ok () a ∧
      Run.startSized [] [] (before ++ during ++ after) w = .ok () b ∧
      a.visual.scale = b.visual.scale ∧ a.drawing.map (·.markup) = b.drawing.map (·.markup) ∧
      (w₁.visual.box.isEmpty = true ∨ before ++ during ++ after = [] →
        a.visual.scale = none ∧ a.drawing.map (·.markup) = w₁.drawing.map (·.markup)) ∧
      ∀ size, w₁.visual.box.isEmpty = false → (before ++ during ++ after).getLast? = some size →
        ∃ x d e, Run.scaleFor w₁.visual.box size.1 size.2 = .ok x ∧ a.visual.scale = some x ∧
          w₁.drawing = some d ∧ a.drawing = some e ∧
            e.style = d.style.put "transform" (some (Drawing.scaleText x.plainText)) := by
  have hsparing : Sparing w w₁ := by
    have hfetch := (Fitting.Blind.fetchDocument (t := unplaced .zero (.null, .null))).later
    rw [Run.start_eq] at hload
    obtain ⟨new, hnew⟩ := (Later.course.bind hfetch Later.unfold).leads hload
    rw [World.since_eq hnew] at spared
    exact ⟨new, hnew, spared⟩
  obtain ⟨d, s, a, hd, hworn, hrun, ha⟩ := startSized_scaled before during after hw hload hsparing hsizes
  obtain ⟨d', s', b, hd', hworn', hrun', hb⟩ :=
    startSized_scaled [] [] (before ++ during ++ after) hw hload hsparing hsizes
  obtain rfl : d = d' := Option.some.inj (hd.symm.trans hd')
  obtain rfl : s = s' := Option.some.inj (hworn.rootAttr?.symm.trans hworn'.rootAttr?)
  obtain ⟨hscale, hmarkup⟩ := ha.same hb rfl
  refine ⟨a, b, hrun, hrun', hscale, hmarkup, fun hnone => ?_, fun size hbox hlast => ?_⟩
  · have hfinal : finalScale w₁.visual.box (before ++ during ++ after) = none := by
      rcases hnone with hbox | hnil
      · exact if_pos hbox
      · rw [hnil, finalScale_nil]
    rw [hd]
    exact ha.unscaled hworn hfinal
  · obtain ⟨x, hx, hfinal⟩ := (hsizes size (List.mem_of_getLast? hlast)).scaleFor_ok hbox
    have hfinal' : finalScale w₁.visual.box (before ++ during ++ after) = some x := by
      obtain ⟨init, hinit⟩ := List.getLast?_eq_some_iff.mp hlast
      rw [hinit, finalScale_concat, hfinal]
    obtain ⟨hx', e, he, hstyle⟩ := ha.transformed hworn hfinal'
    exact ⟨x, d, e, hx, hx', hd, he, hstyle⟩

theorem World.unplaced_ofSetup (s : World.Setup) : (World.ofSetup s).Unplaced := ⟨rfl, rfl, rfl⟩

/-- A visual with a script that colors an element. -/
def coloredSetup : World.Setup where
  path := "panel"
  documents := [("panel", documentWith
    "\x7b\"tags\":[\x7b\"tag\":\"g\",\"stateRenderFunction\":\"element.attr('fill', 'red')\"\x7d]\x7d")]

set_option maxRecDepth 100000 in
/-- It is so for sizes asked for before, while the document is waited for, and afterwards. -/
theorem sizing_commutes_colored : ∃ a b,
    Run.startSized [(.int 8, .int 6)] [(.int 2, .int 5)] [(.int 40, .int 6)] (.ofSetup coloredSetup) = .ok () a ∧
      Run.startSized [] [] [(.int 8, .int 6), (.int 2, .int 5), (.int 40, .int 6)] (.ofSetup coloredSetup) = .ok () b ∧
      a.visual.scale = b.visual.scale ∧ a.drawing.map (·.markup) = b.drawing.map (·.markup) ∧
      a.visual.scale.isSome := by
  have hspares : ((Run.start Run.play (.ofSetup coloredSetup)).casesOn
      (fun _ w₁ => !w₁.visual.box.isEmpty && (w₁.since (.ofSetup coloredSetup)).all (·.sparesStyle))
      (fun _ _ => false) : Bool) = true := by decide +kernel
  cases hload : Run.start Run.play (.ofSetup coloredSetup) with
  | error f w₁ =>
    rw [hload] at hspares
    cases hspares
  | ok _ w₁ =>
    rw [hload] at hspares
    obtain ⟨hbox, spared⟩ := Bool.and_eq_true_iff.mp hspares
    have hsizes : ∀ size ∈ [((.int 8, .int 6) : Value × Value)] ++ [(.int 2, .int 5)] ++ [(.int 40, .int 6)],
        IsSize size := by
      simp only [List.cons_append, List.nil_append, List.forall_mem_cons]
      exact ⟨⟨by decide, by decide⟩, ⟨by decide, by decide⟩, ⟨by decide, by decide⟩, by simp⟩
    obtain ⟨a, b, ha, hb, hscale, hmarkup, -, htransform⟩ := sizing_commutes (World.unplaced_ofSetup coloredSetup)
      hload (List.all_eq_true.mp spared) hsizes
    obtain ⟨x, -, -, -, hx, -⟩ := htransform (.int 40, .int 6) (by simpa using hbox) rfl
    exact ⟨a, b, ha, hb, hscale, hmarkup, by rw [hx]; rfl⟩

end LiveSvg
