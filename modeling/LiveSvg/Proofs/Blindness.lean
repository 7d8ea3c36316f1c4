import LiveSvg.Proofs.Twins
/-!
What scripts can do is blind for how the drawing is fitted, as long as it leaves the style of the root alone.
-/

namespace LiveSvg.Fitting

open Number (Binary64)
open Script (Datum Contents View)

variable {t : Fitting} {w w' : World} {id : Nat}

namespace Blind

/-! ### Elements -/

theorem spared {d : Drawing} {name : String} (hroot : some d.root.id = t.root)
    (h : t.root = some id → (Datum.text name).sparesStyle = true) :
    d.root.id = id → Drawing.isStyleName name = false := by
  rintro rfl
  simpa [Datum.sparesStyle] using h hroot.symm

theorem text_of_nameText {name : Datum} {n : String} (h : World.nameText name = .ok n) : name = .text n := by
  cases name <;> cases h
  rfl

theorem getAttr {name : Datum} (h : t.root = some id → name.sparesStyle = true) : t.Blind (Run.getAttr id name) := by
  refine drawing_bind (later_driven.touches (Run.getAttr_touches id name)) fun d hroot _ => ?_
  refine Agree.ofExcept_bind fun n hn => ?_
  obtain rfl := text_of_nameText hn
  rw [Drawing.attr?_dress (spared hroot h)]
  exact bind (ofExcept _) fun _ => pure _

theorem setAttr {name : Datum} (h : t.root = some id → name.sparesStyle = true) (value : Datum) :
    t.Blind (Run.setAttr id name value) := by
  refine drawing_bind (later_driven.touches (Run.setAttr_touches id name value)) fun d hroot hw => ?_
  refine Agree.ofExcept_bind fun n hn => Agree.bind view fun v => Agree.bind (ofExcept _) fun text => ?_
  obtain rfl := text_of_nameText hn
  exact Agree.redraw (f := (·.setAttr id n text)) hroot hw (Drawing.setAttr_dress hw (spared hroot h) text)
    fun _ => Drawing.setAttr_root_id

theorem allAttrs (h : t.root ≠ some id) : t.Blind (Run.allAttrs id) := by
  refine drawing (fun d hroot => ?_) fun d => create _
  have hid : d.root.id ≠ id := by
    rintro rfl
    exact h hroot.symm
  rw [Drawing.attrs_dress hid]

/-- Attributes come to the same if they are not the style of the root. -/
theorem attr {args : List Datum} (h : t.root = some id → w.view.sparesStyle args = true) :
    t.BlindAt (Run.attr id args) w w' := by
  unfold Run.attr
  split
  · exact allAttrs (fun hr => Bool.false_ne_true (h hr)) w w'
  · refine BlindAt.view ?_
    split
    · exact allAttrs (fun hr => Bool.false_ne_true (h hr)) w w'
    · next members hne hm =>
      have hall : t.root = some id → ∀ m ∈ members, m.1.sparesStyle = true := fun hr => by
        simpa [View.sparesStyle, hm, hne] using h hr
      exact bind (forM fun m hmem => setAttr (fun hr => hall hr m hmem) _) (fun _ => pure _) w w'
    · next hne hm =>
      exact getAttr (fun hr => by simpa [View.sparesStyle, hm, hne] using h hr) w w'
    · next hne hm =>
      exact bind (setAttr (fun hr => by simpa [View.sparesStyle, hm, hne] using h hr) _) (fun _ => pure _) w w'
    · exact wrong _ w w'

theorem children (id : Nat) : t.Blind (Run.children id) := by
  refine drawing (fun d _ => ?_) fun d => newList _
  rw [Drawing.children_dress]

theorem parent (id : Nat) : t.Blind (Run.parent id) := by
  refine drawing_bind (later_driven.touches (Run.parent_touches id)) fun d _ _ => ?_
  have hid := Drawing.parent?_dress d t.other.style id
  cases h : d.parent? id <;> cases h' : (d.dress t.other.style).parent? id <;> rw [h, h'] at hid
  · exact pure _
  · cases hid
  · cases hid
  · next e e' =>
    have he : World.element e'.id = World.element e.id := congrArg World.element (Option.some.inj hid)
    change t.Agree (Pure.pure (World.element e.id)) (Pure.pure (World.element e'.id))
    rw [he]
    exact pure _

theorem putText (id : Nat) (text : Except Failure String) : t.Blind (Run.putText id text) := by
  refine drawing_bind (later_driven.touches (Run.putText_touches id text)) fun d hroot hw => ?_
  cases text with
  | ok s =>
    have hown := d.setText_dress id s t.own.style
    rw [hw] at hown
    dsimp only
    rw [d.setText_dress]
    refine Agree.bind (Agree.setDrawing ?_ (congrArg Prod.fst hown).symm) fun _ => ofExcept _
    rw [d.setText_root_id, hroot]
  | error f =>
    have hown := d.clearChildren_dress id t.own.style
    rw [hw] at hown
    dsimp only
    rw [d.clearChildren_dress]
    refine Agree.bind (Agree.setDrawing ?_ hown.symm) fun _ => throw f
    rw [d.clearChildren_root_id, hroot]

theorem setText (id : Nat) (value : Datum) : t.Blind (Run.setText id value) := by
  unfold Run.setText
  split
  · exact putText _ _
  · exact bind view fun _ => putText _ _

theorem text (id : Nat) (args : List Datum) : t.Blind (Run.text id args) := by
  unfold Run.text
  split
  · refine drawing (fun d _ => ?_) fun d => pure _
    rw [Drawing.text_dress]
  · exact bind (setText _ _) fun _ => pure _
  · exact wrong _

theorem setFont (fuel id : Nat) (font : Run.Font) : t.Blind (Run.setFont fuel id font) := by
  induction fuel generalizing font with
  | zero => exact throw _
  | succ fuel ih =>
    refine bind view fun v => ?_
    split
    · exact bind (ofExcept _) fun _ => ih _
    · refine forM fun p hp => ?_
      have hname : (Datum.text p.1).sparesStyle = true := by
        simp only [List.mem_cons, List.not_mem_nil, or_false] at hp
        rcases hp with rfl | rfl | rfl | rfl <;> rfl
      dsimp only
      split
      · exact pure _
      · exact setAttr (fun _ => hname) _

theorem font (id : Nat) (args : List Datum) : t.Blind (Run.font id args) := by
  unfold Run.font
  split
  · exact bind (wrong _) fun _ => bind (setFont _ _ _) fun _ => pure _
  · exact bind (setFont _ _ _) fun _ => pure _

theorem fill (id : Nat) (args : List Datum) : t.Blind (Run.fill id args) := by
  have hname : (Datum.text "fill").sparesStyle = true := by decide
  unfold Run.fill
  split
  · exact getAttr fun _ => hname
  · exact getAttr fun _ => hname
  · exact bind (setAttr (fun _ => hname) _) fun _ => pure _
  · exact wrong _

theorem needKey (d : Datum) : t.Blind (Run.needKey d) := ite (wrong _) (pure _)

theorem listenersOf (id : Nat) : t.Blind (Run.listenersOf id) := get (fun _ _ => rfl) fun _ => pure _

theorem setListeners (id : Nat) (all : List (Datum × List Datum)) : t.Blind (Run.setListeners id all) :=
  .modify (fun _ => ⟨rfl, rfl, rfl, rfl, rfl⟩) fun _ _ => rfl

theorem listeners (id : Nat) (trigger : Datum) : t.Blind (Run.listeners id trigger) :=
  bind (needKey _) fun _ => bind (listenersOf _) fun _ => pure _

theorem listen (id : Nat) (trigger handler : Datum) : t.Blind (Run.listen id trigger handler) :=
  bind (needKey _) fun _ => bind (listenersOf _) fun _ => bind (record _) fun _ => setListeners _ _

theorem ignore (id : Nat) (trigger : Datum) : t.Blind (Run.ignore id trigger) :=
  bind (needKey _) fun _ => bind (listenersOf _) fun _ => bind (record _) fun _ => setListeners _ _

/-! ### The drawing as a whole -/

theorem tagValue (d : Datum) : t.Blind (Run.tagValue d) := by
  refine bind view fun v => ?_
  split
  · exact pure _
  · exact pure _
  · exact pure _

theorem findByTag (tag : Value) : t.Blind (Run.findByTag tag) := drawing (fun _ _ => rfl) fun _ => ofExcept _

theorem tagOf (d : Datum) : t.Blind (Run.tagOf d) := by
  unfold Run.tagOf
  split
  · refine drawing (fun d _ => ?_) fun _ => pure _
    rw [Drawing.valueOf?_dress fun _ => by decide]
  · exact throw _

theorem setRoot {base : String} (hb : (⟨none, base⟩ : Drawing.Key) ≠ Drawing.styleKey) (value : Datum) :
    t.Blind (Run.setRoot base value) := by
  refine bind (ofExcept _) fun text => ?_
  have hl : Along Later (Run.drawing "node" >>= fun d => Run.ofExcept (d.putRoot base text) >>= Run.setDrawing) :=
    later_driven.bind (later_driven.touches (Run.drawing_touches _)) fun _ =>
      later_driven.bind (later_driven.ofExcept _) fun d => later_driven.touches (Run.setDrawing_touches d)
  refine drawing_bind hl fun d hroot hw => ?_
  exact Agree.redraw (f := (·.putRoot base text)) hroot hw (Drawing.put_dress hw (fun _ => hb) text)
    fun _ => Drawing.put_root_id

theorem size (width height : Datum) : t.Blind (Run.size width height) :=
  bind (setRoot (by decide) _) fun _ => setRoot (by decide) _

theorem mount : t.Blind Run.mount := .modify (fun _ => ⟨rfl, rfl, rfl, rfl, rfl⟩) fun _ _ => rfl

theorem taggedElements : t.Blind Run.taggedElements := drawing (fun _ _ => rfl) fun _ => newList _

/-! ### Animations -/

theorem animation (n : Nat) : t.Blind (Run.animation n) := by
  refine get (fun _ _ => rfl) fun w => ?_
  split
  · exact pure _
  · exact throw _

theorem setAnimation (n : Nat) (a : Animation) : t.Blind (Run.setAnimation n a) :=
  .modify (fun _ => ⟨rfl, rfl, rfl, rfl, rfl⟩) fun _ _ => rfl

theorem waiting (duration delay : Datum) : t.Blind (Run.waiting duration delay) :=
  bind view fun _ => bind (ofExcept _) fun _ => by
    split
    · exact wrong _
    · refine bind (ofExcept _) fun _ => bind (ofExcept _) fun _ => ?_
      split
      · exact pure _
      · exact wrong _

theorem addAnimation (id : Nat) (duration delay : Datum) (seconds : Option Binary64) :
    t.Blind (Run.addAnimation id duration delay seconds) := by
  refine get (fun _ _ => rfl) fun w => bind (record _) fun _ => ?_
  cases seconds with
  | none => exact modifyGet (fun _ => ⟨rfl, rfl, rfl, rfl, rfl⟩) fun _ _ => ⟨rfl, rfl⟩
  | some seconds => exact modifyGet (fun _ => ⟨rfl, rfl, rfl, rfl, rfl⟩) fun _ _ => ⟨rfl, rfl⟩

theorem animate (id : Nat) (duration delay : Datum) : t.Blind (Run.animate id duration delay) := by
  refine get (fun _ _ => rfl) fun w => ?_
  split
  · exact bind ((waiting _ _).map _) fun _ => addAnimation _ _ _ _
  · exact bind (pure _) fun _ => addAnimation _ _ _ _

theorem running (id : Nat) : t.Blind (Run.running id) := get (fun _ _ => rfl) fun _ => pure _

theorem changeOf (args : List Datum) : t.Blind (Run.changeOf args) := by
  unfold Run.changeOf
  split
  · refine bind view fun _ => ?_
    split
    · exact pure _
    · exact pure _
  · refine bind view fun _ => ?_
    split
    · exact pure _
    · exact pure _
  · exact wrong _

/-- What an animation brings about comes to the same if what it does it by does, where the style is left alone. -/
theorem effect {n : Nat} {e : Effect} {x : Run Unit} (hl : Along Later x)
    (h : (⟨.effect n e, w.toSituation⟩ : Event).sparesStyle = true → t.Twins w w' →
      ∀ u', t.BlindAt x ((Run.record (.effect n e)).after w) u') : t.BlindAt (Run.effect n e x) w w' := by
  have hrest : Along Later (Run.attempt x >>= fun result => Run.record (.effected n e result) >>= fun _ =>
      Run.ofExcept result) :=
    later_driven.bind hl.attempt fun _ => later_driven.bind (record (t := t) _).later fun _ => later_driven.ofExcept _
  refine recorded hrest fun hs k u' => ?_
  exact (BlindAt.attempt (h hs k u')).bind fun _ v v' _ => bind (record _) (fun _ => ofExcept _) v v'

theorem applyChange {c : Change} (h : ∀ args, c = .attr args → t.root = some id → w.view.sparesStyle args = true) :
    t.BlindAt (Run.applyChange id c) w w' := by
  cases c with
  | attr args => exact BlindAt.map (attr (h args rfl)) _
  | fill color => exact (fill id [color]).discard w w'

/-- A change of the element of an animation. -/
theorem change {n : Nat} {a : Animation} (ha : w.animations[n]? = some a) (c : Change) :
    t.BlindAt (Run.change n a.element c) w w' := by
  refine effect (later_driven.touches (Run.applyChange_touches _ c)) fun hs k u' => applyChange fun args hc hr => ?_
  subst hc
  unfold Event.sparesStyle at hs
  dsimp only at hs
  rw [ha, Option.all_some, k.isRoot hr] at hs
  exact hs

theorem queue (n : Nat) (c : Change) : t.Blind (Run.queue n c) := by
  refine fun w w' => (animation n w w').bind fun a u u' hu => ?_
  obtain ⟨rfl, ha⟩ := Run.animation_some hu
  refine (record _ u u').bind fun _ v v' hv => ?_
  cases hv
  split
  · exact change (w := (Run.record (.queue n c)).after u) ha c
  · exact setAnimation _ _ _ _

/-- Changes of elements leave animations alone. -/
theorem plot_animations : Plot fun a b => b.animations = a.animations where
  refl _ := rfl
  trans h k := k.trans h
  grow _ _ _ := rfl
  draw _ _ := rfl

theorem change_animations (n id : Nat) (c : Change) : Along (fun a b => b.animations = a.animations) (Run.change n id c) :=
  plot_animations.effect (fun _ => rfl) (fun _ _ => rfl) (plot_animations.applyChange id c)

section

variable {play : Player} (hp : ∀ act, t.Blind (play act))
include hp

theorem callBack (n : Nat) (callback : Datum) : t.Blind (Run.callBack play n callback) := fun _ _ =>
  effect (hp _).discard.later fun _ _ _ => (hp _).discard _ _

theorem finish (n : Nat) : t.Blind (Run.finish play n) := by
  refine fun w w' => (animation n w w').bind fun a u u' hu => ?_
  obtain ⟨rfl, ha⟩ := Run.animation_some hu
  split
  · exact pure _ _ _
  refine (record _ u u').bind fun _ v v' hv => ?_
  cases hv
  refine Meet.bind (clock (fun _ _ => rfl) _ v') fun _ v v' hv => ?_
  cases hv
  refine (setAnimation n _ _ v').bind fun _ v v' hv => ?_
  cases hv
  have hrest : t.Blind (do
      modify fun w => { w with animations := w.animations.modify n fun a => { a with changes := [] } }
      a.callbacks.forM (Run.callBack play n)
      modify fun w =>
        { w with animations := w.animations.modify n fun a => { a with callbacks := [], isRunning := false } }) :=
    bind (animations fun _ _ => rfl) fun _ => bind (forM fun _ _ => callBack hp _ _) fun _ => animations fun _ _ => rfl
  refine Meet.bind (BlindAt.forM (J := fun w => ∃ b, w.animations[n]? = some b ∧ b.element = a.element)
    (fun c _ u h => ?_) (fun c _ u u' h => ?_) ?_) fun _ v v' _ => hrest v v'
  · rwa [change_animations n a.element c u]
  · obtain ⟨b, hb, he⟩ := h
    rw [← he]
    exact change hb c
  · obtain ⟨hn, -⟩ := Array.getElem?_eq_some_iff.mp ha
    exact ⟨_, Array.getElem?_setIfInBounds_self_of_lt hn, rfl⟩

theorem stop (n : Nat) : t.Blind (Run.stop play n) := bind (record _) fun _ => finish hp n

theorem finishAll (id : Nat) : t.Blind (Run.finishAll play id) := bind (running id) fun _ => forM fun _ _ => stop hp _

theorem afterwards (n : Nat) (callback : Datum) : t.Blind (Run.afterwards play n callback) := by
  refine bind (animation n) fun a => bind (record _) fun _ => ?_
  split
  · exact callBack hp _ _
  · exact setAnimation _ _

end

/-! ### The context -/

theorem needElement (d : Datum) (wanted : String) : t.Blind (Run.needElement d wanted) := by
  unfold Run.needElement
  split
  · exact pure _
  · exact throw _

theorem elementsOf (d : Datum) : t.Blind (Run.elementsOf d) := bind view fun _ => pure _

theorem formatted (value : Datum) (options : List Datum) : t.Blind (Run.formatted value options) := by
  refine bind view fun v => ?_
  split
  · exact pure _
  · refine bind (ofExcept _) fun _ => ?_
    split
    · exact pure _
    · exact pure _

theorem formatValue (args : List Datum) : t.Blind (Run.formatValue args) := by
  unfold Run.formatValue
  split
  · exact wrong _
  · exact ite (wrong _) (formatted _ _)

theorem textTarget? (id : Nat) : t.Blind (Run.textTarget? id) := by
  refine drawing (fun d _ => ?_) fun d => ?_
  · simp only [Drawing.typeOf_dress, Drawing.children_dress]
  · split
    · split
      · exact pure _
      · exact pure _
    · exact ite (pure _) (pure _)

theorem setTexts (elements value : Datum) : t.Blind (Run.setTexts elements value) := by
  refine bind (elementsOf _) fun _ => forM fun _ _ => bind (needElement _ _) fun _ => bind (textTarget? _) fun target => ?_
  split
  · exact setText _ _
  · exact pure _

theorem fontOf (description : Datum) : t.Blind (Run.fontOf description) := by
  refine bind view fun v => ?_
  split
  · exact throw _
  · dsimp only
    split
    · exact bind (pure _) fun _ => pure _
    · exact bind (pure _) fun _ => pure _
    · exact bind (ofExcept _) fun _ => bind (ofExcept _) fun _ => bind (pure _) fun _ => pure _

theorem setFonts (elements description color : Datum) : t.Blind (Run.setFonts elements description color) := by
  refine bind (elementsOf _) fun _ => forM fun e _ => bind (needElement _ _) fun id => ?_
  refine drawing (fun d _ => ?_) fun d => ?_
  · rw [Drawing.typeOf_dress]
  · have hcolor : t.Blind (do if (← Run.view).truthy color then Functor.discard (Run.fill id [color]) : Run Unit) :=
      bind view fun v => ite (fill _ _).discard (pure _)
    split
    · refine bind view fun v => ?_
      split
      · exact bind (fontOf _) fun _ => bind (setFont _ _ _) fun _ => hcolor
      · exact hcolor
    · exact pure _

theorem setEnabled (elements : Datum) (isEnabled : Bool) : t.Blind (Run.setEnabled elements isEnabled) :=
  bind (elementsOf _) fun _ => forM fun _ _ => bind (needElement _ _) fun _ => setAttr (fun _ => by decide) _

/-! ### Values and passes -/

theorem keyOf (d : Datum) : t.Blind (Run.keyOf d) := bind (needKey _) fun _ => pure _

theorem report (f : Failure) : t.Blind (Run.report f) :=
  get (fun _ _ => rfl) fun _ => bind (logEntry _) fun _ => ite (visual (fun _ => rfl) fun _ _ _ => rfl) (pure _)

theorem setBusy (busy : Bool) : t.Blind (Run.setBusy busy) := visual (fun _ => rfl) fun _ _ _ => rfl

theorem normalize (value : Datum) (type : Value) : t.Blind (Run.normalize value type) := by
  unfold Run.normalize
  split
  · split
    · exact load _
    · exact wrong _
    · exact wrong _
    · exact pure _
  · exact pure _

theorem behavior? (id : Datum) : t.Blind (Run.behavior? id) := get (fun _ _ => rfl) fun _ => pure _

theorem callAction (event id value : Datum) (observer : Observer) : t.Blind (Run.callAction event id value observer) := by
  refine get (fun _ _ => rfl) fun w => ite (pure _) ?_
  refine bind (record _) fun _ => bind (behavior? _) fun b => ?_
  split
  · exact pure _
  · refine get (fun _ _ => rfl) fun w => ?_
    dsimp only
    split
    · split
      · exact pure _
      · exact bind (setBusy true) fun _ => bind (soon _) fun _ => pure _
    · split
      · exact bind (host _) fun _ => pure _
      · exact bind (throw _) fun _ => pure _
    · exact pure _

section

variable {play : Player} (hp : ∀ act, t.Blind (play act))
include hp

theorem script (l : Launch) (act : Script.Act Datum) : t.Blind (Run.script play l act) :=
  bind (record _) fun _ => bind (hp act).attempt fun _ => bind (record _) fun _ => pure _

theorem renderOne (l : Launch) (p : Script.Program) (target : Datum) (label : String) :
    t.Blind (Run.renderOne play l p target label) := by
  refine bind (script hp _ _) fun result => ?_
  split
  · exact pure _
  · exact logEntry _

theorem renderTag (ps : Script.Programs) (u : Tag) : t.Blind (Run.renderTag play ps u) := by
  unfold Run.renderTag
  split
  · exact throw _
  · exact bind (findByTag _) fun ids => forM fun id _ => renderOne hp _ _ _ _

theorem render : t.Blind (Run.render play) := by
  refine get (fun w past => ?_) fun w => ?_
  · cases hd : w.drawing <;> cases hp : w.visual.programs <;> simp only [Situation.fitted, hd, hp] <;> rfl
  · split
    · refine ite (pure _) (bind (visual (fun _ => rfl) fun _ _ _ => rfl) fun _ => ?_)
      exact bind (renderOne hp _ _ _ _) fun _ => forM fun u _ => renderTag hp _ u
    · exact pure _

theorem takeValue (id : Value) (value : Datum) : t.Blind (Run.takeValue play id value) := by
  refine get (fun w past => ?_) fun w => bind (ofExcept _) fun key => ?_
  · simp only [view_fitted]
    rfl
  · dsimp only
    split
    · refine bind (ofExcept _) fun changed => ite (bind (record _) fun _ => bind ?_ fun _ => render hp) (pure _)
      exact .modify (fun _ => ⟨rfl, rfl, rfl, rfl, rfl⟩) fun _ _ => rfl
    · refine bind (pure _) fun changed => ite (bind (record _) fun _ => bind ?_ fun _ => render hp) (pure _)
      exact .modify (fun _ => ⟨rfl, rfl, rfl, rfl, rfl⟩) fun _ _ => rfl

theorem pushValue (id : Value) (cell : Cell Datum Value) (value : Datum) : t.Blind (Run.pushValue play id cell value) := by
  refine bind (record _) fun _ => ?_
  dsimp only
  exact bind (visual (fun _ => rfl) fun _ _ _ => rfl) fun _ => forM fun _ _ => takeValue hp _ _

theorem setValue (id value : Datum) : t.Blind (Run.setValue play id value) := by
  refine get (fun w past => ?_) fun w => ite (pure _) (bind (keyOf _) fun id => ?_)
  · simp only [view_fitted]
    rfl
  · split
    · exact pure _
    · split
      · exact pure _
      · refine ite ?_ (pure _)
        exact bind (ofExcept _) fun _ => ite (pushValue hp _ _ _) (pure _)

theorem propose (id value : Datum) : t.Blind (Run.propose play id value) := bind (record _) fun _ => setValue hp _ _

theorem runAction (n : Nat) (event : Datum) : t.Blind (Run.runAction play n event) := by
  refine get (fun _ _ => rfl) fun w => ite (pure _) ?_
  split
  · exact pure _
  · refine bind (script hp _ _) fun result => ?_
    split
    · exact pure _
    · exact bind (logEntry _) fun _ => report _

theorem fire (id : Nat) (trigger event : Datum) : t.Blind (Run.fire play id trigger event) :=
  bind (listeners _ _) fun _ => forM fun _ _ => (hp _).discard

theorem animateNext (e duration : Datum) : t.Blind (Run.animateNext play e duration) :=
  bind (needElement _ _) fun _ => bind (finishAll hp _) fun _ => bind (animate _ _ _) fun _ => pure _

end

/-! ### Members -/

theorem colorOf (n : Nat) : t.Blind (Run.colorOf n) := by
  refine get (fun _ _ => rfl) fun w => ?_
  split
  · exact pure _
  · exact throw _

theorem field (e : Script.Entity) (name : String) : t.Blind (Run.field e name) := by
  unfold Run.field
  split
  case h_20 =>
    refine bind (colorOf _) fun c => ?_
    split
    · exact pure _
    · exact pure _
    · exact pure _
    · exact throw _
  all_goals first
    | exact pure _
    | exact throw _
    | exact drawing (fun _ _ => rfl) fun _ => pure _
    | exact drawing (fun _ _ => by rw [Drawing.typeOf_dress]) fun _ => pure _
    | exact bind (animation _) fun _ => pure _
    | exact bind (colorOf _) fun _ => pure _
    | exact bind (colorOf _) fun _ => newList _
    | exact get (fun _ _ => rfl) fun _ => pure _

theorem member (e : Script.Entity) (name : String) : t.Blind (Run.member e name) := ite (pure _) (field e name)

section

variable {play : Player} (hp : ∀ act, t.Blind (play act))
include hp

theorem updateColor (n : Nat) (value : Datum) : t.Blind (Run.updateColor play n value) := by
  refine bind (colorOf n) fun c => bind (script hp _ _) fun result => bind (ofExcept _) fun current => ?_
  exact bind (.modify (fun _ => ⟨rfl, rfl, rfl, rfl, rfl⟩) fun _ _ => rfl) fun _ => pure _

theorem invokeElement (name : String) (args : List Datum)
    (h : name = "attr" → t.root = some id → w.view.sparesStyle args = true) :
    t.BlindAt (Run.invokeElement play id name args) w w' := by
  unfold Run.invokeElement
  split
  · exact attr (h rfl)
  · exact children _ w w'
  · exact parent _ w w'
  · exact text _ _ w w'
  · exact font _ _ w w'
  · exact fill _ _ w w'
  · exact bind (listen _ _ _) (fun _ => pure _) w w'
  · exact bind (ignore _ _) (fun _ => pure _) w w'
  · exact bind (listeners _ _) (fun _ => newList _) w w'
  · exact bind (fire hp _ _ _) (fun _ => pure _) w w'
  · exact bind (fire hp _ _ _) (fun _ => pure _) w w'
  · exact pure _ w w'
  · exact bind (animate _ _ _) (fun _ => pure _) w w'
  · exact bind (animate _ _ _) (fun _ => pure _) w w'
  · exact bind (animate _ _ _) (fun _ => pure _) w w'
  · exact wrong _ w w'

omit hp

theorem invokeScene {name : String} {args : List Datum} {s : Situation}
    (h : (⟨.invoke .scene name args, s⟩ : Event).sparesStyle = true) : t.Blind (Run.invokeScene name args) := by
  unfold Run.invokeScene
  split
  · exact taggedElements
  · exact bind (tagValue _) fun _ => bind (findByTag _) fun _ => newList _
  · exact tagOf _
  · exact drawing (fun _ _ => by rw [Drawing.box_dress]) fun _ => pure _
  · exact bind (size _ _) fun _ => pure _
  · cases h
  · cases h
  · cases h
  · exact bind mount fun _ => pure _
  · exact throw _
  · cases h
  · exact wrong _

include hp

theorem invokeApi (name : String) (args : List Datum) : t.Blind (Run.invokeApi play name args) := by
  unfold Run.invokeApi
  split
  · exact formatValue _
  · exact bind (setTexts _ _) fun _ => pure _
  · exact bind (setFonts _ _ _) fun _ => pure _
  · exact bind (setFonts _ _ _) fun _ => pure _
  · exact animateNext hp _ _
  · exact bind (setEnabled _ _) fun _ => pure _
  · exact bind (setEnabled _ _) fun _ => pure _
  · exact callAction _ _ _ _
  · exact callAction _ _ _ _
  · exact callAction _ _ _ _
  · exact bind (propose hp _ _) fun _ => pure _
  · exact wrong _

theorem invokeAnimation (n : Nat) (name : String) (args : List Datum) : t.Blind (Run.invokeAnimation play n name args) := by
  unfold Run.invokeAnimation
  dsimp only
  split
  · exact bind (changeOf _) fun _ => bind (queue _ _) fun _ => pure _
  · exact bind (queue _ _) fun _ => pure _
  · exact bind (afterwards hp _ _) fun _ => pure _
  · exact bind (stop hp _) fun _ => pure _
  · exact wrong _

theorem invoke {e : Script.Entity} {name : String} {args : List Datum} (k : t.Twins w w')
    (h : (⟨.invoke e name args, w.toSituation⟩ : Event).sparesStyle = true) (v' : World) :
    t.BlindAt (Run.invoke play e name args) ((Run.record (.invoke e name args)).after w) v' := by
  unfold Run.invoke
  split
  · next id =>
    refine invokeElement hp _ _ fun hname hr => ?_
    subst hname
    change (!w.toSituation.isRoot id || w.view.sparesStyle args) = true at h
    rw [k.isRoot hr] at h
    exact h
  · exact invokeScene h _ v'
  · exact invokeApi hp _ _ _ v'
  · exact invokeAnimation hp _ _ _ _ v'
  · exact bind (finishAll hp _) (fun _ => pure _) _ v'
  · exact updateColor hp _ _ _ v'
  · refine blindAt (bind ?_ fun _ => pure _) _ v'
    exact .modify (fun _ => ⟨rfl, rfl, rfl, rfl, rfl⟩) fun _ _ => rfl
  · exact wrong _ _ v'

theorem apply (e : Script.Entity) (args : List Datum) : t.Blind (Run.apply play e args) := by
  unfold Run.apply
  split
  · exact bind (runAction hp _ _) fun _ => pure _
  · exact bind (note _) fun _ => pure _
  · exact bind (note _) fun _ => pure _
  · exact wrong _

theorem answer (q : Script.Ask) : t.Blind (Run.answer play q) := by
  cases q with
  | view => exact view
  | create c => exact make c
  | store r c => exact store r c
  | get e name => exact (member e name).attempt
  | invoke e name args =>
    have hl : Along Later (Run.attempt (Run.invoke play e name args)) :=
      (later_driven.steady.toUpheld.obeyed.invoke (fun act => (hp act).later) e name args).attempt
    exact fun w w' => recorded hl fun hs k v' => BlindAt.attempt (invoke hp k hs v')
  | apply e args => exact (apply hp e args).attempt

omit hp

/-- Scripts are blind for how the drawing is fitted, however deep they run one another. -/
theorem playWithin (levels : Nat) (act : Script.Act Datum) : t.Blind (Run.playWithin levels act) := by
  induction levels generalizing act with
  | zero => exact throw _
  | succ levels ih =>
    change t.Blind (act.run (Run.answer (Run.playWithin levels)) MonadExcept.throw)
    induction act with
    | done a => exact pure a
    | fail f => exact throw f
    | ask q next ih' => exact bind (answer ih q) ih'

theorem plays (act : Script.Act Datum) : t.Blind (Run.play act) := playWithin _ act

end

end Blind

end LiveSvg.Fitting
