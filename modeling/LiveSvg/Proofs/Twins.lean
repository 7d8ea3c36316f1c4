import LiveSvg.Proofs.Dressing
import LiveSvg.Proofs.Placement
import LiveSvg.Proofs.Values
/-!
Two worlds that differ in how the drawing is fitted: in the style of its root, and in what is said of the
scale. What neither reads nor writes that style comes to the same in both. It is blind for the difference.
-/

namespace LiveSvg

open Number (Binary64)
open Script (Datum Contents View)

variable {α β : Type} {w w' : World} {id : Nat}

/-! ### What leaves the style alone -/

/-- Whether a value is no name of the style. -/
def Script.Datum.sparesStyle : Datum → Bool
  | .text name => !Drawing.isStyleName name
  | _ => true

/-- Whether `attr` with some arguments neither reads nor writes the style of an element. -/
def Script.View.sparesStyle (v : View) (args : List Datum) : Bool :=
  match args with
  | [] => false
  | name :: more =>
    match name, v.members? name, more with
    | .null, _, _ => false
    | _, some members, _ => members.all (·.1.sparesStyle)
    | _, none, [] => name.sparesStyle
    | _, none, [_] => name.sparesStyle
    | _, none, _ => true

/-- Whether an element is the root of the drawing. -/
def Situation.isRoot (s : Situation) (id : Nat) : Bool := s.drawing.any (·.root.id == id)

/-- Whether what a script asks for neither reads nor writes the style of the root. -/
def Event.sparesStyle (e : Event) : Bool :=
  match e.deed with
  | .invoke (.element id) "attr" args => !e.before.isRoot id || e.before.view.sparesStyle args
  | .invoke .scene "style" [_] => false
  | .invoke .scene "set_style" [_, _] => false
  | .invoke .scene "scale" [_] => false
  | .invoke .scene "markup" [] => false
  | .effect n (.change (.attr args)) =>
    (e.before.animations[n]?).all fun a => !e.before.isRoot a.element || e.before.view.sparesStyle args
  | _ => true

/-! ### Worlds that are fitted differently -/

/-- What becomes of a drawing when it is fitted: the style of its root, the scale, and the size that has
been asked for. -/
structure Fit where
  style : String
  scale : Option Binary64
  target : Value × Value

/-- The same situation, fitted in a way of its own. -/
def Situation.fitted (s : Situation) (f : Fit) : Situation :=
  { s with
    drawing := s.drawing.map (·.dress f.style)
    visual := { s.visual with scale := f.scale, target := f.target } }

/-- The same drawing in two fits: its box, its root if it is there, and how it is fitted in each world. -/
structure Fitting where
  box : Drawing.Box
  root : Option Nat
  own : Fit
  other : Fit

namespace Fitting

variable {t : Fitting} {x x' y : Run α} {g g' : α → Run β}

/-- One world is like the other one, apart from how the drawing is fitted and from the past. -/
structure Twins (t : Fitting) (w w' : World) : Prop where
  same : w'.toSituation = w.toSituation.fitted t.other
  root : w.drawing.map (·.root.id) = t.root
  wears : ∀ d, w.drawing = some d → d.Wears t.own.style
  box : w.visual.box = t.box
  scale : w.visual.scale = t.own.scale
  target : w.visual.target = t.own.target

/-- Two results come to the same. -/
inductive Alike (t : Fitting) : EStateM.Result Failure World α → EStateM.Result Failure World α → Prop where
  | ok (a : α) {w w' : World} : t.Twins w w' → Alike t (.ok a w) (.ok a w')
  | error (f : Failure) {w w' : World} : t.Twins w w' → Alike t (.error f w) (.error f w')

/-- From two worlds on, computations come to the same if they are alike and the style is left alone. -/
def Meet (t : Fitting) (x x' : Run α) (w w' : World) : Prop :=
  ∃ new, (x.after w).past = new ++ w.past ∧
    ((∀ e ∈ new, e.sparesStyle = true) → t.Twins w w' → t.Alike (x w) (x' w'))

/-- Computations come to the same. -/
def Agree (t : Fitting) (x x' : Run α) : Prop := ∀ w w', t.Meet x x' w w'

/-- From two worlds on, a computation comes to the same. -/
def BlindAt (t : Fitting) (x : Run α) (w w' : World) : Prop := t.Meet x x w w'

/-- A computation comes to the same in worlds that are fitted differently. -/
def Blind (t : Fitting) (x : Run α) : Prop := t.Agree x x

theorem Twins.world (h : t.Twins w w') : w' = ⟨w.toSituation.fitted t.other, w'.past⟩ := by
  obtain ⟨s, past⟩ := w'
  rw [← h.same]

theorem Twins.isRoot (h : t.Twins w w') (hr : t.root = some id) : w.toSituation.isRoot id = true := by
  have hroot := h.root.trans hr
  obtain ⟨d, hd, rfl⟩ := Option.map_eq_some_iff.mp hroot
  unfold Situation.isRoot
  rw [hd, Option.any_some]
  exact beq_self_eq_true _

namespace Meet

theorem later (h : t.Meet x x' w w') : Later w (x.after w) := by
  obtain ⟨new, hn, -⟩ := h
  exact ⟨new, hn⟩

/-- Where the past goes on in any case, only worlds that are alike matter. -/
theorem of_later (hl : Later w (x.after w)) (h : t.Twins w w' → t.Meet x x' w w') : t.Meet x x' w w' := by
  by_cases k : t.Twins w w'
  · exact h k
  · obtain ⟨new, hn⟩ := hl
    exact ⟨new, hn, fun _ j => absurd j k⟩

/-- What is remembered leaves the style alone, or nothing is said. -/
theorem of_event {e : Event} (hl : ∃ new, (x.after w).past = new ++ e :: w.past)
    (h : e.sparesStyle = true → t.Twins w w' → t.Meet x x' w w') : t.Meet x x' w w' := by
  by_cases k : e.sparesStyle = true ∧ t.Twins w w'
  · exact h k.1 k.2
  · obtain ⟨new, hn⟩ := hl
    refine ⟨new ++ [e], by rw [hn, List.append_assoc]; rfl, fun p j => absurd ⟨p e (by simp), j⟩ k⟩

theorem bind (hx : t.Meet x x' w w') (hg : ∀ a u u', x w = .ok a u → t.Meet (g a) (g' a) u u') :
    t.Meet (x >>= g) (x' >>= g') w w' := by
  obtain ⟨new, hn, hk⟩ := hx
  cases hw : x w with
  | ok a u =>
    rw [Run.after_ok hw] at hn
    obtain ⟨more, hm, hl⟩ := hg a u (x'.after w') hw
    refine ⟨more ++ new, by rw [Run.after_bind_ok hw, hm, hn, List.append_assoc], fun p h => ?_⟩
    have hsame := hk (fun e he => p e (by simp [he])) h
    rw [hw] at hsame
    cases hw' : x' w' with
    | ok b u' =>
      rw [hw'] at hsame
      rw [Run.after_ok hw'] at hl
      cases hsame with
      | ok _ k =>
        rw [Run.bind_ok hw, Run.bind_ok hw']
        exact hl (fun e he => p e (by simp [he])) k
    | error f u' =>
      rw [hw'] at hsame
      cases hsame
  | error f u =>
    rw [Run.after_error hw] at hn
    refine ⟨new, by rw [Run.after_bind_error hw]; exact hn, fun p h => ?_⟩
    have hsame := hk p h
    rw [hw] at hsame
    cases hw' : x' w' with
    | ok b u' =>
      rw [hw'] at hsame
      cases hsame
    | error f' u' =>
      rw [hw'] at hsame
      cases hsame with
      | error _ k =>
        rw [Run.bind_error hw, Run.bind_error hw']
        exact .error f k

end Meet

namespace Agree

theorem bind (hx : t.Agree x x') (hg : ∀ a, t.Agree (g a) (g' a)) : t.Agree (x >>= g) (x' >>= g') :=
  fun w w' => (hx w w').bind fun a u u' _ => hg a u u'

end Agree

namespace Blind

theorem later (h : t.Blind x) : Along Later x := fun w => (h w w).later

theorem blindAt (h : t.Blind x) (w w' : World) : t.BlindAt x w w' := h w w'

theorem pure (a : α) : t.Blind (pure a : Run α) := fun _ _ => ⟨[], rfl, fun _ h => .ok a h⟩

theorem throw (f : Failure) : t.Blind (throw f : Run α) := fun _ _ => ⟨[], rfl, fun _ h => .error f h⟩

theorem ofExcept (r : Except Failure α) : t.Blind (Run.ofExcept r) := by
  cases r with
  | ok a => exact pure a
  | error f => exact throw f

theorem bind (hx : t.Blind x) (hg : ∀ a, t.Blind (g a)) : t.Blind (x >>= g) := Agree.bind hx hg

theorem ite {c : Prop} [Decidable c] (hx : t.Blind x) (hy : t.Blind y) : t.Blind (if c then x else y) := by
  split
  · exact hx
  · exact hy

theorem forM {l : List β} {f : β → Run Unit} (h : ∀ b ∈ l, t.Blind (f b)) : t.Blind (l.forM f) := by
  induction l with
  | nil => exact pure ()
  | cons b l ih => exact bind (h b (by simp)) fun _ => ih fun c hc => h c (by simp [hc])

theorem mapM {l : List β} {f : β → Run α} (h : ∀ b ∈ l, t.Blind (f b)) : t.Blind (l.mapM f) := by
  induction l with
  | nil =>
    rw [List.mapM_nil]
    exact pure []
  | cons b l ih =>
    rw [List.mapM_cons]
    exact bind (h b (by simp)) fun a => bind (ih fun c hc => h c (by simp [hc])) fun as => pure (a :: as)

end Blind

/-! ### Single operations -/

/-- Nothing has become of how the drawing is fitted, and nothing has come to pass. -/
structure Unfitted (w v : World) : Prop where
  past : v.past = w.past
  drawing : v.drawing = w.drawing
  box : v.visual.box = w.visual.box
  scale : v.visual.scale = w.visual.scale
  target : v.visual.target = w.visual.target

theorem Twins.congr {v v' : World} (h : t.Twins w w') (hd : v.drawing = w.drawing) (hb : v.visual.box = w.visual.box)
    (hs : v.visual.scale = w.visual.scale) (ht : v.visual.target = w.visual.target)
    (hv : v'.toSituation = v.toSituation.fitted t.other) : t.Twins v v' where
  same := hv
  root := hd ▸ h.root
  wears := hd ▸ h.wears
  box := hb.trans h.box
  scale := hs.trans h.scale
  target := ht.trans h.target

namespace BlindAt

theorem attempt (hx : t.BlindAt x w w') : t.BlindAt (Run.attempt x) w w' := by
  obtain ⟨new, hn, hk⟩ := hx
  refine ⟨new, by rw [Run.after_attempt]; exact hn, fun p h => ?_⟩
  have hsame := hk p h
  cases hw : x w with
  | ok a u =>
    cases hw' : x w' with
    | ok b u' =>
      rw [hw, hw'] at hsame
      cases hsame with
      | ok _ k =>
        rw [Run.attempt_ok hw, Run.attempt_ok hw']
        exact .ok _ k
    | error f u' =>
      rw [hw, hw'] at hsame
      cases hsame
  | error f u =>
    cases hw' : x w' with
    | ok b u' =>
      rw [hw, hw'] at hsame
      cases hsame
    | error f' u' =>
      rw [hw, hw'] at hsame
      cases hsame with
      | error _ k =>
        rw [Run.attempt_error hw, Run.attempt_error hw']
        exact .ok _ k

theorem map (hx : t.BlindAt x w w') (g : α → β) : t.BlindAt (g <$> x) w w' := by
  have hmap : g <$> x = x >>= fun a => Pure.pure (g a) := (bind_pure_comp g x).symm
  rw [hmap]
  exact Meet.bind hx fun a u u' _ => Blind.pure (g a) u u'

/-- What every item keeps holds of every world that the items are come to in. -/
theorem forM {J : World → Prop} {l : List β} {f : β → Run Unit} (hJ : ∀ b ∈ l, Along (fun u v => J u → J v) (f b))
    (h : ∀ b ∈ l, ∀ u u', J u → t.BlindAt (f b) u u') (j : J w) : t.BlindAt (l.forM f) w w' := by
  induction l generalizing w w' with
  | nil => exact Blind.pure () w w'
  | cons b l ih =>
    refine (h b (by simp) w w' j).bind fun _ u u' hu => ?_
    refine ih (fun c hc => hJ c (by simp [hc])) (fun c hc => h c (by simp [hc])) ?_
    exact (hJ b (by simp)).leads hu j

theorem get {g : World → Run α} (hg : ∀ past, g ⟨w.toSituation.fitted t.other, past⟩ = g w)
    (h : t.BlindAt (g w) w w') : t.BlindAt (get >>= g) w w' := by
  obtain ⟨new, hn, hk⟩ := h
  refine ⟨new, hn, fun p k => ?_⟩
  have hw' : g w' = g w := by
    rw [k.world]
    exact hg w'.past
  rw [Run.get_bind, Run.get_bind, hw']
  exact hk p k

end BlindAt

namespace Blind

theorem map (hx : t.Blind x) (g : α → β) : t.Blind (g <$> x) := fun w w' => BlindAt.map (hx w w') g

theorem discard (hx : t.Blind x) : t.Blind (discard x) := hx.map _

theorem attempt (hx : t.Blind x) : t.Blind (Run.attempt x) := fun w w' => BlindAt.attempt (hx w w')

theorem get {g : World → Run α} (hg : ∀ w past, g ⟨w.toSituation.fitted t.other, past⟩ = g w)
    (h : ∀ w, t.Blind (g w)) : t.Blind (get >>= g) := fun w w' => BlindAt.get (hg w) (h w w w')

/-- What has nothing to do with how the drawing is fitted comes to the same. -/
protected theorem modify {g : World → World} (hu : ∀ w, Unfitted w (g w))
    (hg : ∀ w past, (g ⟨w.toSituation.fitted t.other, past⟩).toSituation = (g w).toSituation.fitted t.other) :
    t.Blind (modify g : Run Unit) := by
  refine fun w w' => ⟨[], (hu w).past, fun _ h => .ok () ?_⟩
  refine h.congr (hu w).drawing (hu w).box (hu w).scale (hu w).target ?_
  rw [h.world]
  exact hg w w'.past

theorem modifyGet {g : World → α × World} (hu : ∀ w, Unfitted w (g w).2)
    (hg : ∀ w past, (g ⟨w.toSituation.fitted t.other, past⟩).1 = (g w).1 ∧
      (g ⟨w.toSituation.fitted t.other, past⟩).2.toSituation = (g w).2.toSituation.fitted t.other) :
    t.Blind (modifyGet g : Run α) := by
  refine fun w w' => ⟨[], (hu w).past, fun _ h => ?_⟩
  obtain ⟨hvalue, hworld⟩ := hg w w'.past
  rw [← h.world] at hvalue hworld
  have k : t.Twins (g w).2 (g w').2 := h.congr (hu w).drawing (hu w).box (hu w).scale (hu w).target hworld
  change t.Alike (.ok (g w).1 (g w).2) (.ok (g w').1 (g w').2)
  rw [hvalue]
  exact .ok _ k

theorem record (deed : Deed) : t.Blind (Run.record deed) := by
  refine fun w w' => ⟨[⟨deed, w.toSituation⟩], rfl, fun _ h => .ok () ?_⟩
  exact h.congr rfl rfl rfl rfl h.same

/-- What follows on a deed comes to the same if it does so when the deed leaves the style alone. -/
theorem recorded {deed : Deed} {x : Run α} (hl : Along Later x)
    (h : (⟨deed, w.toSituation⟩ : Event).sparesStyle = true → t.Twins w w' →
      ∀ u', t.BlindAt x ((Run.record deed).after w) u') : t.BlindAt (Run.record deed >>= fun _ => x) w w' := by
  refine Meet.of_event (hl ((Run.record deed).after w)) fun hs k => (record deed w w').bind fun _ u u' hu => ?_
  cases hu
  exact h hs k u'

theorem visual {f : Visual → Visual} (hb : ∀ v, (f v).box = v.box)
    (hf : ∀ v scale target, f { v with scale, target } = { f v with scale, target }) : t.Blind (Run.modifyVisual f) := by
  have hkept : ∀ v : Visual, (f v).scale = v.scale ∧ (f v).target = v.target := by
    intro v
    have hself : f v = { f v with scale := v.scale, target := v.target } := hf v v.scale v.target
    refine ⟨?_, ?_⟩ <;> rw [hself]
  refine .modify (fun w => ⟨rfl, rfl, hb w.visual, (hkept w.visual).1, (hkept w.visual).2⟩) fun w past => ?_
  exact congrArg (fun v => { w.toSituation.fitted t.other with visual := v }) (hf w.visual t.other.scale t.other.target)

theorem host (f : HostState → HostState) : t.Blind (Run.modifyHost f) :=
  .modify (fun _ => ⟨rfl, rfl, rfl, rfl, rfl⟩) fun _ _ => rfl

theorem clock {f : World → Clock Job} (hf : ∀ w past, f ⟨w.toSituation.fitted t.other, past⟩ = f w) :
    t.Blind (modify fun w => { w with clock := f w } : Run Unit) :=
  .modify (fun _ => ⟨rfl, rfl, rfl, rfl, rfl⟩) fun w past =>
    congrArg (fun clock => { w.toSituation.fitted t.other with clock }) (hf w past)

theorem animations {f : World → Array Animation} (hf : ∀ w past, f ⟨w.toSituation.fitted t.other, past⟩ = f w) :
    t.Blind (modify fun w => { w with animations := f w } : Run Unit) :=
  .modify (fun _ => ⟨rfl, rfl, rfl, rfl, rfl⟩) fun w past =>
    congrArg (fun animations => { w.toSituation.fitted t.other with animations }) (hf w past)

theorem logEntry (e : Log.Entry) : t.Blind (Run.logEntry e) :=
  .modify (fun _ => ⟨rfl, rfl, rfl, rfl, rfl⟩) fun _ _ => rfl

theorem logged (r : Log × Except Failure α) : t.Blind (Run.logged r) :=
  bind (.modify (fun _ => ⟨rfl, rfl, rfl, rfl, rfl⟩) fun _ _ => rfl) fun _ => ofExcept _

theorem note (n : Note) : t.Blind (Run.note n) :=
  .modify (fun _ => ⟨rfl, rfl, rfl, rfl, rfl⟩) fun _ _ => rfl

theorem soon (j : Job) : t.Blind (Run.soon j) :=
  .modify (fun _ => ⟨rfl, rfl, rfl, rfl, rfl⟩) fun _ _ => rfl

theorem wrong (message : String) : t.Blind (Run.wrong message : Run α) := throw _

theorem make (c : Contents) : t.Blind (Run.make c) :=
  modifyGet (fun _ => ⟨rfl, rfl, rfl, rfl, rfl⟩) fun _ _ => ⟨rfl, rfl⟩

theorem create (c : Contents) : t.Blind (Run.create c) := bind (make c) fun _ => pure _

theorem newList (items : List Datum) : t.Blind (Run.newList items) := create _

theorem load (v : Value) : t.Blind (Run.load v) :=
  modifyGet (fun _ => ⟨rfl, rfl, rfl, rfl, rfl⟩) fun _ _ => ⟨rfl, rfl⟩

theorem store (r : Script.Ref) (c : Contents) : t.Blind (Run.store r c) := by
  refine bind (record _) fun _ => .modify (fun w => ?_) fun w past => ?_
  · cases r <;> cases c <;> exact ⟨rfl, rfl, rfl, rfl, rfl⟩
  · cases r <;> cases c <;> rfl

end Blind

/-! ### Looking at a world -/

theorem elementText_dress (d : Drawing) (s : String) (id : Nat) :
    Situation.elementText (d.dress s) id = Situation.elementText d id := by
  unfold Situation.elementText
  rw [Drawing.valueOf?_dress (fun _ => by decide), Drawing.typeOf_dress]

/-- Scripts see the same of a situation however the drawing is fitted. -/
theorem view_fitted (s : Situation) (f : Fit) : (s.fitted f).view = s.view := by
  have hdescribe : (s.fitted f).describe = s.describe := by
    funext e
    unfold Situation.describe Situation.fitted
    cases hd : s.drawing with
    | none => cases e <;> rfl
    | some d =>
      cases e with
      | element id => exact elementText_dress d f.style id
      | _ => rfl
  unfold Situation.view
  rw [hdescribe]
  rfl

theorem BlindAt.view {g : View → Run α} (h : t.BlindAt (g w.view) w w') : t.BlindAt (Run.view >>= g) w w' := by
  have hg : t.BlindAt (MonadState.get >>= fun w : World => g w.view) w w' := by
    refine BlindAt.get (fun past => ?_) h
    change g (w.toSituation.fitted t.other).view = _
    rw [view_fitted]
  exact hg

theorem Blind.view : t.Blind Run.view := by
  refine Blind.get (fun w past => ?_) fun w => Blind.pure w.view
  change Pure.pure (w.toSituation.fitted t.other).view = _
  rw [view_fitted]

/-! ### The drawing -/

theorem drawing_none (h : w.drawing = none) (wanted : String) :
    Run.drawing wanted w = .error (Failure.absent wanted) w := by
  unfold Run.drawing
  rw [Run.get_bind, h]
  rfl

theorem Twins.drawing (h : t.Twins w w') : w'.drawing = w.drawing.map (·.dress t.other.style) :=
  congrArg Situation.drawing h.same

theorem Twins.rooted (h : t.Twins w w') {d : Drawing} (hd : w.drawing = some d) : some d.root.id = t.root := by
  rw [← h.root, hd]
  rfl

/-- What is done with a drawing comes to the same if it does with the drawing in either style. -/
theorem drawing_bind {wanted : String} {g g' : Drawing → Run α} (hl : Along Later (Run.drawing wanted >>= g))
    (h : ∀ d, some d.root.id = t.root → d.Wears t.own.style → t.Agree (g d) (g' (d.dress t.other.style))) :
    t.Agree (Run.drawing wanted >>= g) (Run.drawing wanted >>= g') := by
  refine fun w w' => Meet.of_later (hl w) fun k => ?_
  cases hd : w.drawing with
  | none =>
    have hd' : w'.drawing = none := by rw [k.drawing, hd]; rfl
    refine ⟨[], ?_, fun _ _ => ?_⟩
    · rw [Run.after_bind_error (drawing_none hd wanted), List.nil_append]
    · rw [Run.bind_error (drawing_none hd wanted), Run.bind_error (drawing_none hd' wanted)]
      exact .error _ k
  | some d =>
    have hd' : w'.drawing = some (d.dress t.other.style) := by rw [k.drawing, hd]; rfl
    obtain ⟨new, hn, hk⟩ := h d (k.rooted hd) (k.wears d hd) w w'
    refine ⟨new, ?_, fun p _ => ?_⟩
    · rw [Run.after_bind_ok (Run.drawing_eq wanted hd), hn]
    · rw [Run.bind_ok (Run.drawing_eq wanted hd), Run.bind_ok (Run.drawing_eq wanted hd')]
      exact hk p k

/-- What is only looked up in a drawing is the same in either style. -/
theorem Blind.drawing {wanted : String} {g : Drawing → Run α}
    (hg : ∀ d, some d.root.id = t.root → g (d.dress t.other.style) = g d) (h : ∀ d, t.Blind (g d)) :
    t.Blind (Run.drawing wanted >>= g) := by
  have hl : Along Later (Run.drawing wanted >>= g) :=
    Later.course.bind (later_driven.touches (Run.drawing_touches wanted)) fun d => (h d).later
  refine drawing_bind hl fun d hroot _ => ?_
  rw [hg d hroot]
  exact h d

/-- A drawing is put in the place of one with the same root. -/
theorem Agree.setDrawing {d : Drawing} (hroot : some d.root.id = t.root) (hw : d.Wears t.own.style) :
    t.Agree (Run.setDrawing d) (Run.setDrawing (d.dress t.other.style)) := by
  refine fun w w' => ⟨[⟨.draw d, w.toSituation⟩], rfl, fun _ k => .ok () ⟨?_, hroot, ?_, k.box, k.scale, k.target⟩⟩
  · rw [k.world]
    rfl
  · rintro e he
    cases he
    exact hw

/-- What goes on from a result goes on where there is one. -/
theorem Agree.ofExcept_bind {r : Except Failure α} (h : ∀ a, r = .ok a → t.Agree (g a) (g' a)) :
    t.Agree (Run.ofExcept r >>= g) (Run.ofExcept r >>= g') := by
  cases r with
  | ok a => exact h a rfl
  | error f => exact fun _ _ => ⟨[], rfl, fun _ k => .error f k⟩

/-- An operation that leaves root and style alone makes of a drawing the same in either style. -/
theorem Agree.redraw {d : Drawing} {f : Drawing → Except Failure Drawing} (hroot : some d.root.id = t.root)
    (hw : d.Wears t.own.style) (hf : ∀ s, f (d.dress s) = (f d).map (·.dress s))
    (hid : ∀ d', f d = .ok d' → d'.root.id = d.root.id) :
    t.Agree (Run.ofExcept (f d) >>= Run.setDrawing) (Run.ofExcept (f (d.dress t.other.style)) >>= Run.setDrawing) := by
  have hown := hf t.own.style
  rw [hw] at hown
  rw [hf t.other.style]
  cases hd : f d with
  | error e => exact fun _ _ => ⟨[], rfl, fun _ k => .error e k⟩
  | ok d' =>
    rw [hd] at hown
    exact setDrawing ((congrArg some (hid d' hd)).trans hroot) (Except.ok.inj hown).symm

end Fitting

end LiveSvg
