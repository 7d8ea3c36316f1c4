import LiveSvg.Proofs.Quotients
import LiveSvg.Proofs.Sizing
/-!
The scales that a visual gets in a run: each is the quotient of a side of a size that has been asked for and of a side
of the box of a drawing, and it is a number to scale by exactly if both are, and their quotient is.
-/

namespace LiveSvg

open Number (Binary64)
open Number.Binary64 (Side Quotient vanishing exceeding)
open Script (Datum)

variable {text : String} {p q x : Binary64} {b : Drawing.Box} {w a c : World} {asked : Value × Value → Prop}

/-! ### Sizes and boxes -/

theorem Drawing.sides_of_size? (h : Drawing.size? text = some (p, q)) : Side p ∧ Side q := by
  unfold Drawing.size? at h
  split at h
  · next width height _ =>
    obtain ⟨p', hp, h⟩ := Option.bind_eq_some_iff.mp h
    obtain ⟨q', hq, h⟩ := Option.bind_eq_some_iff.mp h
    dsimp only at h
    split at h
    · cases h
    · next hsides =>
      cases h
      rw [Bool.not_eq_true, Bool.or_eq_false_iff] at hsides
      exact ⟨Binary64.atMost_zero_iff.mp hsides.1, Binary64.atMost_zero_iff.mp hsides.2⟩
  · cases h

theorem Drawing.Box.sides_of_isEmpty (h : b.isEmpty = false) : Side b.width ∧ Side b.height := by
  obtain ⟨hw, hh⟩ := Bool.or_eq_false_iff.mp h
  exact ⟨Binary64.atMost_zero_iff.mp hw, Binary64.atMost_zero_iff.mp hh⟩

/-- The sides that decide on the scale of a box for a size: the widths where the size is higher than wide, else the
heights. -/
def Drawing.Box.deciding (b : Drawing.Box) (p q : Binary64) : Binary64 × Binary64 :=
  if p.compare? q = some .lt then (p, b.width) else (q, b.height)

theorem Drawing.Box.deciding_sides (hb : b.isEmpty = false) (hp : Side p) (hq : Side q) :
    Side (b.deciding p q).1 ∧ Side (b.deciding p q).2 := by
  obtain ⟨hw, hh⟩ := b.sides_of_isEmpty hb
  unfold deciding
  split
  · exact ⟨hp, hw⟩
  · exact ⟨hq, hh⟩

theorem Number.Binary64.Side.isZero (h : Side p) : p.isZero = false := by
  cases h with
  | positive h =>
    obtain ⟨m, e, hc, rfl, hm⟩ := Binary64.isPositive_iff.mp h
    exact beq_eq_false_iff_ne.mpr hm
  | _ => rfl

namespace Run

/-- The scale of a box for a size is the quotient of the sides that decide. -/
theorem scaleFor_sides (hb : b.isEmpty = false) :
    scaleFor b (.float p) (.float q) = .ok ((b.deciding p q).1.div (b.deciding p q).2) := by
  obtain ⟨hw, hh⟩ := b.sides_of_isEmpty hb
  have hratio : ∀ {x y : Binary64}, Side y → sideRatio (.float x) y = .ok (x.div y) := fun hy => by
    unfold sideRatio
    rw [hy.isZero]
    rfl
  unfold scaleFor Drawing.Box.deciding
  change (if p.compare? q = some .lt then sideRatio (.float p) b.width else sideRatio (.float q) b.height) = _
  split
  · exact hratio hw
  · exact hratio hh

end Run

/-! ### Runs -/

/-- Worlds of a visual for which steps are taken, documents are fetched and drawings unfolded in any order, while
every size that is asked for is of a certain kind. -/
inductive World.Sized (asked : Value × Value → Prop) : World → Prop where
  | setup (s : Setup) : Sized asked (ofSetup s)
  | step (s : Step) {w : World} : (∀ width height, s = .size width height → asked (width, height)) →
    Sized asked w → Sized asked (s.after w)
  | fetch {w : World} : Sized asked w → Sized asked (Run.fetchDocument.after w)
  | unfold (content : String) {w : World} : Sized asked w → Sized asked ((Run.unfold content).after w)

/-- The box is that of a drawing, the size is one that has been asked for, and the scale is the one that such a box
had for such a size. -/
structure World.Measured (asked : Value × Value → Prop) (w : World) : Prop where
  box : w.visual.box.isEmpty = true ∨ ∃ d : Drawing, w.visual.box = d.box
  target : w.visual.target = (.null, .null) ∨ asked w.visual.target
  scale : ∀ x, w.visual.scale = some x → ∃ (d : Drawing) (target : Value × Value), asked target ∧
    d.box.isEmpty = false ∧ Run.scaleFor d.box target.1 target.2 = .ok x

/-- The size and the scale of a visual are the same. -/
structure World.SameSize (a c : World) : Prop where
  box : c.visual.box = a.visual.box
  scale : c.visual.scale = a.visual.scale
  target : c.visual.target = a.visual.target

theorem World.SameSize.of_eq (h : c.visual = a.visual) : a.SameSize c := by
  constructor <;> rw [h]

/-- What happens around scripts changes the size of a visual in its own ways only. -/
theorem Stir.sameSize (h : Stir a c) : a.SameSize c ∨ Reshape a c := by
  cases h with
  | touch h => exact .inl (.of_eq h.visual)
  | beat h => exact .inl (.of_eq h.visual)
  | visual h => exact .inl ⟨h.box, h.scale, h.target⟩
  | shape h => exact .inr h
  | _ => exact .inl (.of_eq rfl)

namespace World.Measured

/-- Worlds stay measured. -/
abbrev Stays (asked : Value × Value → Prop) (a c : World) : Prop := a.Measured asked → c.Measured asked

theorem same (h : a.SameSize c) : Stays asked a c := fun i => by
  refine ⟨?_, ?_, ?_⟩
  · rw [h.box]
    exact i.box
  · rw [h.target]
    exact i.target
  · rw [h.scale]
    exact i.scale

theorem still (h : c.visual = a.visual) : Stays asked a c := same (.of_eq h)

theorem reshape (h : Reshape a c) : Stays asked a c := fun i => by
  cases h with
  | frame d => exact ⟨.inr ⟨d, rfl⟩, i.target, i.scale⟩
  | contain => exact ⟨i.box, i.target, i.scale⟩
  | @fit x hb hx =>
    refine ⟨i.box, i.target, fun y hy => ?_⟩
    obtain rfl : x = y := Option.some.inj hy
    obtain ⟨d, hd⟩ := i.box.resolve_left (Bool.eq_false_iff.mp hb)
    refine ⟨d, _, i.target.resolve_left fun hnull => ?_, hd ▸ hb, hd ▸ hx⟩
    rw [hnull] at hx
    cases hx

theorem calm (asked : Value × Value → Prop) : Calm (Stays asked) where
  toCourse := Course.keeps fun w => w.Measured asked
  stir h := h.sameSize.elim same reshape

theorem led (asked : Value × Value → Prop) : Led (Stays asked) :=
  (calm asked).led (fun _ _ => still rfl) (fun _ _ _ => still rfl) (fun _ _ _ _ => still rfl)
    (fun r c w => still (Run.store_visual r c w)) (fun _ => same ⟨rfl, rfl, rfl⟩) (fun _ _ _ _ => still rfl)
    fun _ _ _ _ _ => same ⟨rfl, rfl, rfl⟩

theorem adopting (asked : Value × Value → Prop) : Adopting (Stays asked) where
  toGentle := (calm asked).toGentle
  known _ _ _ _ _ := still rfl
  adopt _ _ _ _ _ _ := same ⟨rfl, rfl, rfl⟩
  clear _ := still rfl

theorem setUp (b : Behavior) : Along (Stays asked) (Run.setUp b) := by
  have C := calm asked
  refine C.bind C.get fun w => ?_
  dsimp only
  split
  · refine C.bind (C.touches (Run.load_touches _)) fun _ => C.bind (C.normalize _ _) fun _ => ?_
    refine C.bind (C.bind (C.ofExcept _) fun _ => C.bind (fun w => still rfl) fun _ => ?_) fun _ => ?_
    · exact C.bind (fun w => same ⟨rfl, rfl, rfl⟩) fun _ => fun w => still rfl
    · exact fun w => same ⟨rfl, rfl, rfl⟩
  · exact fun w => same ⟨rfl, rfl, rfl⟩
  · exact C.pure _
  · exact C.throw _

theorem setSize {target : Value × Value} (h : asked target) : Along (Stays asked) (Run.setSize target.1 target.2) := by
  have C := calm asked
  exact C.bind (fun w i => ⟨i.box, .inr h, i.scale⟩) fun _ => C.bind C.get fun _ => .ite C.resize (C.pure _)

theorem destroy : Along (Stays asked) Run.destroy := by
  have C := calm asked
  refine C.bind C.get fun w => .ite (C.pure _) ?_
  exact C.bind (fun w => same ⟨rfl, rfl, rfl⟩) fun _ => C.bind C.get fun _ => C.logEntry _

/-- Every step leaves worlds measured by which no size of another kind is asked for. -/
theorem step {s : Step} (hs : ∀ width height, s = .size width height → asked (width, height)) :
    Along (Stays asked) s.run := by
  by_cases hd : s = .destroy
  · subst hd
    exact destroy
  · refine (led asked).step_apart hd (fun width height k => ?_) fun _ => ?_
    · subst k
      exact setSize (hs width height rfl)
    · exact (led asked).turn (led asked).steady.plays fun _ _ => still rfl

theorem unfold (content : String) : Along (Stays asked) (Run.unfold content) :=
  (calm asked).bind ((adopting asked).loadContent setUp content) fun _ => (led asked).present

end World.Measured

theorem World.Sized.measured (h : w.Sized asked) : w.Measured asked := by
  induction h with
  | setup s =>
    have hzero : Drawing.Box.zero.isEmpty = true := by decide +kernel
    exact ⟨.inl hzero, .inl rfl, fun _ h => nomatch h⟩
  | step s hs _ ih => exact Measured.step hs _ ih
  | fetch _ ih => exact (Measured.adopting asked).fetchDocument _ ih
  | unfold content _ ih => exact Measured.unfold content _ ih

/-- A size as it is written for a command. -/
def Written (target : Value × Value) : Prop :=
  ∃ text p q, Drawing.size? text = some (p, q) ∧ target = (.float p, .float q)

/-- A drawing that has a size of its own gets a scale when a size is asked for. -/
theorem Step.size_scale (hp : Side p) (hq : Side q) (hd : w.drawing.isSome) (hb : w.visual.box.isEmpty = false) :
    ((Step.size (.float p) (.float q)).after w).visual.scale =
      some ((w.visual.box.deciding p q).1.div (w.visual.box.deciding p q).2) := by
  obtain ⟨d, hd⟩ := Option.isSome_iff_exists.mp hd
  have htruthy : ∀ {y : Binary64}, Side y → (Value.float y).truthy = true := fun hy => by
    rw [Value.truthy, hy.isZero]
    rfl
  have hscaling : Run.scaling (w.targeting (.float p, .float q)).visual =
      .ok (some ((w.visual.box.deciding p q).1.div (w.visual.box.deciding p q).2)) := by
    unfold Run.scaling World.targeting
    dsimp only
    rw [htruthy hp, htruthy hq, hb, Run.scaleFor_sides hb]
    rfl
  have hresize := Run.resize_eq (w := w.targeting (.float p, .float q)) hd
  rw [hscaling] at hresize
  have hsize : Run.setSize (.float p) (.float q) w = _ :=
    ((Run.setSize_eq (.float p, .float q) w).trans (if_pos (by rw [hd]; rfl))).trans hresize
  change (Run.after (Run.setSize (.float p) (.float q)) w).visual.scale = _
  rw [Run.after_eq, hsize]
  dsimp only
  -- whether the style can be written or not, the scale has been set by then
  cases d.setStyle "transform" _ <;> rfl

/-- What a run makes of the sizes that are asked for in it, where each is written as for a command: both sides are
positive numbers, unless one is infinite or a NaN. A drawing with a size of its own is scaled for such a size. Whatever
scale there is, it is the quotient of the sides that decide, and it is a positive number exactly if both sides are and
their quotient lies between the least and the greatest number; else it is zero, infinite or a NaN, and never
negative. -/
theorem scale_usable_iff (h : ∀ target, asked target → Written target) (hw : w.Sized asked) :
    (∀ width height, asked (width, height) → ∃ p q, width = .float p ∧ height = .float q ∧ Side p ∧ Side q) ∧
    (∀ p q, asked (.float p, .float q) → w.drawing.isSome → w.visual.box.isEmpty = false →
      ((Step.size (.float p) (.float q)).after w).visual.scale =
        some ((w.visual.box.deciding p q).1.div (w.visual.box.deciding p q).2)) ∧
    ∀ x, w.visual.scale = some x → ∃ (d : Drawing) (p q : Binary64), asked (.float p, .float q) ∧
      d.box.isEmpty = false ∧ Quotient (d.box.deciding p q).1 (d.box.deciding p q).2 x ∧
      (x.isPositive = true ↔ (d.box.deciding p q).1.isPositive = true ∧ (d.box.deciding p q).2.isPositive = true ∧
        vanishing < (d.box.deciding p q).1.value / (d.box.deciding p q).2.value ∧
        (d.box.deciding p q).1.value / (d.box.deciding p q).2.value < exceeding) := by
  have hsides : ∀ {target}, asked target → ∃ p q, target = (.float p, .float q) ∧ Side p ∧ Side q := by
    intro target ht
    obtain ⟨text, p, q, hsize, rfl⟩ := h target ht
    exact ⟨p, q, rfl, Drawing.sides_of_size? hsize⟩
  refine ⟨fun width height ht => ?_, fun p q ht hd hb => ?_, fun x hx => ?_⟩
  · obtain ⟨p, q, heq, hp, hq⟩ := hsides ht
    cases heq
    exact ⟨p, q, rfl, rfl, hp, hq⟩
  · obtain ⟨p', q', heq, hp, hq⟩ := hsides ht
    cases heq
    exact Step.size_scale hp hq hd hb
  · obtain ⟨d, target, ht, hb, hscale⟩ := hw.measured.scale x hx
    obtain ⟨p, q, rfl, hp, hq⟩ := hsides ht
    obtain ⟨hleft, hright⟩ := Drawing.Box.deciding_sides hb hp hq
    rw [Run.scaleFor_sides hb] at hscale
    cases hscale
    have hquotient := hleft.div hright
    exact ⟨d, p, q, ht, hb, hquotient, hquotient.isPositive_iff⟩

/-- The world in which a drawing with a view box has been unfolded, and a size been asked for. -/
def World.unfolded (p q : Binary64) : World :=
  (Step.size (.float p) (.float q)).after
    ((Run.unfold "<svg viewBox=\"0 0 4 3\"/>").after (.ofSetup { path := "" }))

theorem World.sized_unfolded (p q : Binary64) : (World.unfolded p q).Sized (· = (.float p, .float q)) :=
  .step _ (fun _ _ h => by cases h; rfl) (.unfold _ (.setup _))

/-- A drawing of four by three is scaled by two for eight by six, and heights decide. -/
theorem scale_usable_iff_double : (World.unfolded (.ofInt 8) (.ofInt 6)).visual.scale = some (.ofInt 2) ∧
    ∃ d : Drawing, d.box.isEmpty = false ∧ Quotient (.ofInt 6) d.box.height (.ofInt 2) ∧
      vanishing < (Binary64.ofInt 6).value / d.box.height.value := by
  have hsize : Drawing.size? "8x6" = some (.ofInt 8, .ofInt 6) := by decide +kernel
  have hscale : (World.unfolded (.ofInt 8) (.ofInt 6)).visual.scale = some (.ofInt 2) := by decide +kernel
  obtain ⟨-, -, hscales⟩ := scale_usable_iff (fun _ h => ⟨"8x6", _, _, hsize, h⟩) (World.sized_unfolded _ _)
  obtain ⟨d, p, q, ht, hb, hquotient, hiff⟩ := hscales _ hscale
  cases ht
  have hheights : d.box.deciding (.ofInt 8) (.ofInt 6) = (.ofInt 6, d.box.height) := if_neg (by decide +kernel)
  rw [hheights] at hquotient hiff
  exact ⟨hscale, d, hb, hquotient, (hiff.mp (by decide +kernel)).2.2.1⟩

/-- A height that is a NaN passes for one above zero, and the drawing is scaled by a NaN. -/
theorem scaled_by_nan : Drawing.size? "240xnan" = some (.ofInt 240, .nan) ∧
    (World.unfolded (.ofInt 240) .nan).visual.scale = some .nan ∧ Binary64.nan.isPositive = false := by
  have hsize : Drawing.size? "240xnan" = some (.ofInt 240, .nan) := by decide +kernel
  have hscale : (World.unfolded (.ofInt 240) .nan).visual.scale = some .nan := by decide +kernel
  exact ⟨hsize, hscale, rfl⟩

end LiveSvg
