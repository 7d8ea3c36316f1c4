import LiveSvg.Proofs.Pass
import LiveSvg.Proofs.Styling
import LiveSvg.Proofs.Typed
/-!
Loading a visual. Once its document is there, what is in the way of loading it is a descriptor whose
fields are not what they are for; overrides and scripts never are.
-/

namespace LiveSvg

open Script (Datum Programs)
open Settings (Table Entry)

variable {α β : Type}

/-! ### Computations that do not fail -/

/-- A computation has a result wherever something holds, and that holds of what is left by it. -/
def Completes (I : World → Prop) (x : Run α) : Prop := ∀ w, I w → ∃ a w', x w = .ok a w' ∧ I w'

namespace Completes

variable {I : World → Prop} {x : Run α}

theorem pure (a : α) : Completes I (pure a) := fun w i => ⟨a, w, rfl, i⟩

theorem bind {g : α → Run β} (hx : Completes I x) (hg : ∀ a, Completes I (g a)) : Completes I (x >>= g) := by
  intro w i
  obtain ⟨a, w', h, i'⟩ := hx w i
  obtain ⟨b, w'', h', i''⟩ := hg a w' i'
  exact ⟨b, w'', by rw [Run.bind_ok h, h'], i''⟩

theorem get_bind {g : World → Run α} (h : ∀ w, I w → Completes I (g w)) : Completes I (get >>= g) :=
  fun w i => h w i w i

theorem modify {g : World → World} (h : ∀ w, I w → I (g w)) : Completes I (modify g : Run Unit) :=
  fun w i => ⟨(), g w, rfl, h w i⟩

theorem ite {c : Prop} [Decidable c] {y : Run α} (hx : Completes I x) (hy : Completes I y) :
    Completes I (if c then x else y) := by
  split
  · exact hx
  · exact hy

theorem forM {l : List β} {f : β → Run Unit} (h : ∀ b ∈ l, Completes I (f b)) : Completes I (l.forM f) := by
  induction l with
  | nil => exact pure ()
  | cons b l ih =>
    have hrest : ∀ c ∈ l, Completes I (f c) := fun c hc => h c (List.mem_cons_of_mem _ hc)
    exact bind (h b List.mem_cons_self) fun _ => ih hrest

theorem mapM {l : List β} {f : β → Run α} (h : ∀ b ∈ l, Completes I (f b)) : Completes I (l.mapM f) := by
  induction l with
  | nil =>
    rw [List.mapM_nil]
    exact pure []
  | cons b l ih =>
    have hrest : ∀ c ∈ l, Completes I (f c) := fun c hc => h c (List.mem_cons_of_mem _ hc)
    rw [List.mapM_cons]
    exact bind (h b List.mem_cons_self) fun _ => bind (ih hrest) fun _ => pure _

/-- Where a computation goes along a relation by which something is kept, it is enough that it has a result. -/
theorem of_along {R : World → World → Prop} (hx : Along R x) (hR : ∀ {a b}, R a b → I a → I b)
    (h : ∀ w, I w → ∃ a w', x w = .ok a w') : Completes I x := by
  intro w i
  obtain ⟨a, w', hw⟩ := h w i
  exact ⟨a, w', hw, hR (hx.leads hw) i⟩

end Completes

/-! ### The first state -/

theorem Run.drawing_ok {w : World} (wanted : String) (h : w.drawing.isSome) : ∃ d, Run.drawing wanted w = .ok d w := by
  obtain ⟨d, hd⟩ := Option.isSome_iff_exists.mp h
  refine ⟨d, ?_⟩
  unfold Run.drawing
  rw [Run.get_bind, hd]
  rfl

/-- How a visual stands when it is put in place: drawn, with its descriptor, settings and programs, and a
host with no names of its own. -/
structure Sits (d : Descriptor) (t : Table Entry) (ps : Programs) (w : World) : Prop where
  descriptor : w.visual.descriptor = d
  settings : w.visual.settings = t
  programs : w.visual.programs = some ps
  isTranslated : w.host.naming.isTranslated = false
  drawn : w.drawing.isSome

namespace Sits

open Run

variable {d : Descriptor} {t : Table Entry} {ps : Programs} {a b w : World}

theorem touch (h : Touch a b) (i : Sits d t ps a) : Sits d t ps b := by
  cases h with
  | draw d => exact { i with drawn := rfl }
  | _ => exact { i with }

theorem of_touches {x : Run α} (hx : Along Touches x) (h : ∀ w, Sits d t ps w → ∃ a w', x w = .ok a w') :
    Completes (Sits d t ps) x := by
  have hkeeps : ∀ {a b : World}, Touches a b → Sits d t ps a → Sits d t ps b :=
    Touches.lift (Course.keeps _) touch
  exact .of_along hx hkeeps h

theorem drawing (wanted : String) : Completes (Sits d t ps) (drawing wanted) := by
  refine of_touches (drawing_touches _) fun w i => ?_
  obtain ⟨drawn, hd⟩ := drawing_ok wanted i.drawn
  exact ⟨drawn, w, hd⟩

theorem setTags : Completes (Sits d t ps) setTags := by
  refine (drawing _).bind fun _ => (Completes.mapM fun _ _ => ?_).bind fun _ => .modify fun _ i => { i with }
  exact (of_touches (newList_touches _) fun _ _ => ⟨_, _, rfl⟩).bind fun _ => .pure _

theorem addColor (c : Color) : Completes (Sits d t ps) (addColor c) :=
  .get_bind fun _ _ => (Completes.modify fun _ i => { i with }).bind fun _ => .pure _

theorem propertyValue (id : Datum) : Completes (Sits d t ps) (propertyValue id) := by
  have hcolor : ∀ p value, Completes (Sits d t ps) (colorProperty p value) := by
    intro p value
    refine (of_touches view_touches fun _ _ => ⟨_, _, rfl⟩).bind fun v => ?_
    split
    · exact (of_touches (logged_touches _) fun _ _ => ⟨_, _, rfl⟩).bind fun _ => addColor _
    · exact (of_touches (logEntry_touches _) fun _ _ => ⟨_, _, rfl⟩).bind fun _ => addColor _
  have htext : ∀ value, Completes (Sits d t ps) (textProperty value) := by
    intro value
    refine .get_bind fun w i => ?_
    dsimp only
    rw [i.isTranslated]
    exact .pure _
  have hdefault : ∀ p, Completes (Sits d t ps) (defaultProperty p) := fun p =>
    .ite (.pure _) <| .ite (.pure _) <| .ite (.pure _) <| .ite (addColor _) (.pure _)
  refine .get_bind fun w _ => ?_
  dsimp only
  split
  · exact .pure _
  · split
    · exact hdefault _
    · exact .ite (hcolor _ _) (.ite (htext _) (.pure _))

theorem of_ok {r : Except Failure α} (h : ∃ a, r = .ok a) : Completes (Sits d t ps) (Run.ofExcept r) := by
  obtain ⟨a, rfl⟩ := h
  exact .pure a

theorem keyDatum_ok {id : Value} (h : Descriptor.isName id) : ∃ key, keyDatum id = .ok key := by
  cases id with
  | list xs => cases h
  | object ms => cases h
  | _ => exact ⟨_, rfl⟩

theorem setProperty {p : Property} (h : Descriptor.isName p.id) : Completes (Sits d t ps) (setProperty p) :=
  (propertyValue _).bind fun _ => (of_ok (keyDatum_ok h)).bind fun _ => .modify fun _ i => { i with }

theorem findByTag {tag : Value} (h : Drawing.isSought tag) : Completes (Sits d t ps) (findByTag tag) :=
  (drawing _).bind fun drawn => of_ok (drawn.findByValue_sought h)

theorem setCursor (id : Nat) : Completes (Sits d t ps) (setAttr id (.text "cursor") (.text "pointer")) := by
  refine of_touches (setAttr_touches _ _ _) fun w i => ?_
  obtain ⟨drawn, hd⟩ := drawing_ok "node" i.drawn
  obtain ⟨drawn', hd'⟩ := Drawing.setAttr_cursor drawn id
  refine ⟨(), (setDrawing drawn').after w, ?_⟩
  unfold Run.setAttr
  rw [bind_ok hd]
  change (Run.ofExcept (drawn.setAttr id "cursor" (some "pointer")) >>= setDrawing) w = _
  rw [hd']
  rfl

theorem wireTag {u : Tag} (h : u.isTyped) : Completes (Sits d t ps) (wireTag u) := by
  have hwire : ∀ tag elements trigger program, Completes (Sits d t ps) (wire tag elements trigger program) := by
    intro tag elements trigger program
    refine .get_bind fun _ _ => (Completes.modify fun _ i => { i with }).bind fun _ => .forM fun id _ => ?_
    exact (setCursor id).bind fun _ => of_touches (listen_touches _ _ _) fun _ _ => ⟨_, _, rfl⟩
  have hsought : Drawing.isSought u.name := by
    simp only [Tag.isTyped, Bool.and_eq_true] at h
    exact h.1.1
  unfold Run.wireTag
  split
  · exact .pure _
  · exact .pure _
  · exact .get_bind fun _ _ => (findByTag hsought).bind fun _ => .forM fun _ _ => hwire _ _ _ _

theorem normalize (value : Datum) {type : Value} (h : Descriptor.isName type) :
    Completes (Sits d t ps) (normalize value type) := by
  unfold Run.normalize
  split
  · split
    · exact of_touches (load_touches _) fun _ _ => ⟨_, _, rfl⟩
    · cases h
    · cases h
    · exact .pure _
  · exact .pure _

theorem seed {id : Value} (h : Descriptor.isName id) (initial : Datum) : Completes (Sits d t ps) (seed id initial) :=
  (of_ok (keyDatum_ok h)).bind fun _ => (Completes.modify fun _ i => { i with }).bind fun _ =>
    (Completes.modify fun _ i => { i with }).bind fun _ => .modify fun _ i => { i with }

/-- A behavior is set up by settings of its kind. -/
theorem setUp {b : Behavior} {e : Entry} (keyed : b.isKeyed) (he : t.get? b.id = some e)
    (suits : Settings.Suits b.kind e) : Completes (Sits d t ps) (setUp b) := by
  obtain ⟨v, hv⟩ := suits
  refine .get_bind fun w i => ?_
  dsimp only
  rw [i.settings, he]
  unfold Behavior.isKeyed at keyed
  cases hk : b.kind with
  | value valueType default valueId =>
    rw [hk] at hv keyed
    obtain ⟨s, -, rfl⟩ := Option.map_eq_some_iff.mp hv
    obtain ⟨htype, hid⟩ := Bool.and_eq_true_iff.mp keyed
    refine (of_touches (load_touches _) fun _ _ => ⟨_, _, rfl⟩).bind fun _ => (normalize _ htype).bind fun _ => ?_
    exact (seed hid _).bind fun _ => .modify fun _ i => { i with }
  | action dataType constant function =>
    rw [hk] at hv
    obtain ⟨s, -, rfl⟩ := Option.map_eq_some_iff.mp hv
    exact .modify fun _ i => { i with }
  | widget => exact .pure _

end Sits

/-! ### The drawing in its place -/

/-- Whether a value is a size that can be asked for: none, or a number that a float can be. -/
def Value.isMeasure : Value → Bool
  | .null | .bool _ | .float _ => true
  | .int n => !(Number.Binary64.ofInt n).isInfinite
  | _ => false

namespace Run

open Drawing (Carried)
open Number (Binary64 Canonical)

variable {w : World} {drawn : Drawing}

/-- What is zero is not above zero. -/
theorem atMost_of_isZero {x : Binary64} (h : x.isZero) : x.atMost (.zero false) := by
  have hplace : ∀ negative e hc, (Binary64.finite negative 0 e hc).place? = some (.point 0 (2 ^ (-e).toNat)) := by
    intro negative e hc
    cases negative <;> simp [Binary64.place?, Binary64.ratio?]
  cases x with
  | finite negative m e hc =>
    obtain rfl : m = 0 := by simpa [Binary64.isZero] using h
    have hcanonical : Canonical 0 (-1074) := by decide
    have hzero : Binary64.zero false = .finite false 0 (-1074) hcanonical := by
      unfold Binary64.zero Binary64.ofParts
      exact dif_pos hcanonical
    have hequal : (Binary64.finite negative 0 e hc).compare? (.zero false) = some .eq := by
      rw [hzero, Binary64.compare?, hplace, hplace]
      exact congrArg some (Binary64.Place.compare_point.mpr (by rw [Int.zero_mul, Int.zero_mul]))
    rw [Binary64.atMost, hequal]
    simp
  | _ => cases h

theorem toFloat_int {n : Int} (h : (Binary64.ofInt n).isInfinite = false) :
    Script.Operation.toFloat (.int n) = .ok (.ofInt n) := if_neg (Bool.eq_false_iff.mp h)

theorem measure_ok {v : Value} (h : v.isMeasure) (ht : v.truthy) :
    ∃ n x, v.numeric? = some n ∧ Script.Operation.toFloat n = .ok x := by
  cases v with
  | null => cases ht
  | bool b =>
    obtain rfl : b = true := ht
    have hone : (Binary64.ofInt 1).isInfinite = false := by decide +kernel
    exact ⟨.int 1, _, rfl, toFloat_int hone⟩
  | int n => exact ⟨.int n, _, rfl, toFloat_int (by simpa [Value.isMeasure] using h)⟩
  | float x => exact ⟨_, _, rfl, rfl⟩
  | _ => cases h

theorem sideRatio_ok {n : Value.Numeric} {x side : Binary64} (hn : Script.Operation.toFloat n = .ok x)
    (hs : side.atMost (.zero false) = false) : ∃ y, sideRatio n side = .ok y := by
  have hzero : ¬ side.isZero = true := by
    intro hz
    rw [atMost_of_isZero hz] at hs
    cases hs
  refine ⟨x.div side, ?_⟩
  unfold sideRatio
  rw [hn]
  exact if_neg hzero

theorem scaleFor_ok {box : Drawing.Box} {width height : Value} (hb : box.isEmpty = false) (hw : width.isMeasure)
    (hh : height.isMeasure) (tw : width.truthy) (th : height.truthy) : ∃ x, scaleFor box width height = .ok x := by
  obtain ⟨w, x, hw, hx⟩ := measure_ok hw tw
  obtain ⟨h, y, hh, hy⟩ := measure_ok hh th
  obtain ⟨hwidth, hheight⟩ := Bool.or_eq_false_iff.mp hb
  unfold scaleFor
  rw [hw, hh]
  dsimp only
  split
  · exact sideRatio_ok hx hwidth
  · exact sideRatio_ok hy hheight

theorem scale_ok (hd : w.drawing = some drawn) (hc : drawn.Carried) (factor : Binary64) :
    ∃ w', scale (.float factor) w = .ok () w' := by
  have htext : Drawing.isCarried (Drawing.scaleText factor.plainText) = true := by
    unfold Drawing.scaleText
    rw [Drawing.isCarried_append, Drawing.isCarried_append, Drawing.isCarried_plainText]
    decide
  obtain ⟨d, hs, -⟩ := Drawing.setStyle_ok hc "transform" _ (by decide) htext
  have hdraw : drawing "node" w = .ok drawn w := by
    unfold drawing
    rw [get_bind, hd]
    rfl
  refine ⟨(setDrawing d).after w, ?_⟩
  change setStyle (.text "transform") (.text (Drawing.scaleText factor.plainText)) w = _
  unfold setStyle
  rw [bind_ok hdraw]
  change (Run.ofExcept (drawn.setStyle "transform" (some (Drawing.scaleText factor.plainText))) >>= setDrawing) w = _
  rw [hs]
  rfl

theorem resize_ok (hd : w.drawing = some drawn) (hc : drawn.Carried) (hw : w.visual.target.1.isMeasure)
    (hh : w.visual.target.2.isMeasure) : ∃ w', resize w = .ok () w' := by
  unfold resize
  rw [get_bind]
  dsimp only
  split
  · exact ⟨w, rfl⟩
  · next hsize =>
    simp only [Bool.or_eq_true, Bool.not_eq_true', Bool.and_eq_false_iff, not_or, Bool.not_eq_false] at hsize
    obtain ⟨⟨tw, th⟩, hb⟩ := hsize
    obtain ⟨factor, hf⟩ := scaleFor_ok (Bool.eq_false_iff.mpr hb) hw hh tw th
    rw [hf]
    exact scale_ok (w := { w with visual := { w.visual with scale := some factor } }) hd hc factor

theorem prepared_ok (hc : drawn.Carried) : ∃ d, prepared drawn = .ok d ∧ d.Carried := by
  obtain ⟨d₁, h₁, c₁⟩ := Drawing.setStyle_ok hc "overflow" "visible" (by decide) (by decide)
  obtain ⟨d₂, h₂, c₂⟩ := Drawing.setStyle_ok c₁ "user-select" "none" (by decide) (by decide)
  refine ⟨d₂, ?_, c₂⟩
  unfold prepared
  rw [h₁]
  exact h₂

theorem naturallySized_ok (hc : drawn.Carried) (box : Drawing.Box) : ∃ d, naturallySized drawn box = .ok d ∧ d.Carried := by
  unfold naturallySized
  split
  · exact ⟨drawn, rfl, hc⟩
  · obtain ⟨d₁, h₁, c₁⟩ := Drawing.putRoot_ok hc "width" (by decide) (Drawing.isCarried_plainText box.width)
    obtain ⟨d₂, h₂, c₂⟩ := Drawing.putRoot_ok c₁ "height" (by decide) (Drawing.isCarried_plainText box.height)
    refine ⟨d₂, ?_, c₂⟩
    rw [h₁]
    exact h₂

theorem bind_succeeds {x : Run α} {g : α → Run β} {u : World} {a : α} (h : x w = .ok a u)
    (hg : ∃ b w', g a u = .ok b w') : ∃ b w', (x >>= g) w = .ok b w' := by
  obtain ⟨b, w', hg⟩ := hg
  exact ⟨b, w', by rw [bind_ok h, hg]⟩

theorem shown_ok (hd : w.drawing = some drawn) (hc : drawn.Carried) (hw : w.visual.target.1.isMeasure)
    (hh : w.visual.target.2.isMeasure) :
    ∃ u w', (do if (← get).visual.hasContainer then mount
                resize : Run Unit) w = .ok u w' := by
  rw [get_bind]
  split
  · obtain ⟨w', hw'⟩ := resize_ok (w := { w with mounts := w.mounts + 1, isMounted := true }) hd hc hw hh
    exact bind_succeeds (a := ()) rfl ⟨(), w', hw'⟩
  · obtain ⟨w', hw'⟩ := resize_ok hd hc hw hh
    exact ⟨(), w', hw'⟩

/-- The drawing of a document without its descriptors can be put in its place. -/
theorem prepareScene_ok (root : Option (Markup.Element Unit))
    (hroot : ∀ e, root = some e → ∀ a ∈ e.head.attrs, Drawing.isCarried a.value = true)
    (hw : w.visual.target.1.isMeasure) (hh : w.visual.target.2.isMeasure) : ∃ u w', prepareScene root w = .ok u w' := by
  have hc : ∀ first, (drawingOf first root).Carried := by
    intro first
    cases root with
    | none => exact fun a ha => by cases ha
    | some e => exact Drawing.carried_ofElement (e := Document.strip e) (hroot e rfl) _ _
  obtain ⟨d₁, h₁, c₁⟩ := prepared_ok (hc ((w.drawing.map (·.next)).getD 0))
  obtain ⟨d₂, h₂, c₂⟩ := naturallySized_ok c₁ d₁.box
  unfold prepareScene
  rw [get_bind]
  dsimp only
  rw [h₁]
  refine bind_succeeds (a := d₁) (u := w) rfl (bind_succeeds (a := ()) rfl ?_)
  rw [h₂]
  refine bind_succeeds (a := d₂) rfl (bind_succeeds (a := ()) rfl (bind_succeeds (a := ()) rfl ?_))
  exact @shown_ok _ { d₂ with loose := _ } rfl c₂ hw hh

/-! ### Taking a descriptor on -/

theorem loadLiterals_ok (entries : List (Value × Entry)) (w : World) : ∃ l w', loadLiterals entries w = .ok l w' := by
  induction entries generalizing w with
  | nil => exact ⟨[], w, rfl⟩
  | cons e rest ih =>
    obtain ⟨id, entry⟩ := e
    cases entry with
    | literal v =>
      obtain ⟨l, w', hl⟩ := ih { w with memory := (w.memory.load v).2 }
      exact bind_succeeds (a := (w.memory.load v).1) rfl (bind_succeeds (a := l) (u := w') hl ⟨_, _, rfl⟩)
    | _ => exact ih w

/-- What is said of the size of the visual, and what its host calls things, before it is put in place. -/
structure Prior (a b : World) : Prop where
  naming : b.host.naming = a.host.naming
  target : b.visual.target = a.visual.target

theorem Prior.knowing : Knowing Prior where
  refl _ := ⟨rfl, rfl⟩
  trans h k := ⟨k.naming.trans h.naming, k.target.trans h.target⟩
  grow _ _ _ := ⟨rfl, rfl⟩
  log _ _ := ⟨rfl, rfl⟩
  known _ _ _ _ := ⟨rfl, rfl⟩

theorem Prior.adopt (d : Descriptor) : Along Prior (adopt d) :=
  knowing.adopted (fun _ _ _ _ _ _ => ⟨rfl, rfl⟩) d

theorem logged_succeeds {r : Log × Except Failure α} {a : α} (h : r.2 = .ok a) (w : World) :
    logged r w = .ok a { w with log := w.log ++ r.1 } := by
  obtain ⟨log, result⟩ := r
  cases h
  rfl

/-- A descriptor is taken on whatever the overrides say: every behavior gets settings of its kind, and every
tag a script that renders it. -/
theorem adopt_succeeds {d : Descriptor} (named : d.Named) (typed : d.Typed) {os : List (String × Value)}
    (ho : Settings.overridesOf w.visual.overrides = .ok os) :
    ∃ u w', adopt d w = .ok u w' := by
  obtain ⟨t, ht, -⟩ := Settings.resolve_suits named typed ho
  obtain ⟨ps, hps, -⟩ := Programs.ofDescriptor_ok named typed
  unfold adopt
  refine bind_succeeds (a := ()) rfl (bind_succeeds rfl (bind_succeeds (logged_succeeds ht _) ?_))
  obtain ⟨l, w₁, hl⟩ := loadLiterals_ok t _
  refine bind_succeeds hl (bind_succeeds (a := ()) rfl ?_)
  exact bind_succeeds (logged_succeeds hps _) ⟨_, _, rfl⟩

/-! ### The first pass -/

/-- What scripts do never takes the drawing away. -/
theorem drawn_driven : Driven fun a b => a.drawing.isSome → b.drawing.isSome := by
  have C : Calm fun a b => a.drawing.isSome → b.drawing.isSome :=
    { toCourse := Course.keeps fun w => w.drawing.isSome
      stir := fun h => (Kept.calm.stir h).drawing }
  exact C.driven (fun _ _ => id) (fun _ _ => id) (fun _ _ _ => id) (fun _ _ _ _ => id)
    (fun r c w h => by rw [store_drawing]; exact h) (fun _ => id) (fun _ _ _ _ => id) fun _ _ _ _ _ => id

/-- A render script is run to its end, and its failure goes no further. -/
theorem renderOne_completes (l : Launch) (p : Script.Program) (target : Datum) (label : String) :
    Completes (fun w => w.drawing.isSome) (renderOne play l p target label) := by
  have hscript : ∀ act, Along (fun a b => a.drawing.isSome → b.drawing.isSome) (script play l act) :=
    drawn_driven.toCalm.script (fun _ => id) (fun _ _ => id) drawn_driven.steady.plays
  refine .of_along (drawn_driven.toMild.renderOne hscript p target label) (fun h => h) fun w _ => ?_
  obtain ⟨r, hr⟩ := script_ok play l (p.call [target, .entity .context]) w
  refine bind_succeeds hr ?_
  cases r with
  | ok d => exact ⟨_, _, rfl⟩
  | error f => exact ⟨_, _, rfl⟩

theorem findByTag_completes {tag : Value} (h : Drawing.isSought tag) :
    Completes (fun w => w.drawing.isSome) (findByTag tag) := by
  intro w hd
  obtain ⟨drawn, hdraw⟩ := drawing_ok "xpath" hd
  obtain ⟨ids, hids⟩ := Drawing.findByValue_sought drawn h
  refine ⟨ids, w, ?_, hd⟩
  unfold findByTag
  rw [bind_ok hdraw, hids]
  rfl

/-- A pass over a visual that is drawn is completed, whatever its scripts do. -/
theorem render_completes {d : Descriptor} {ps : Programs} (typed : d.Typed) (hd : w.visual.descriptor = d)
    (hps : w.visual.programs = some ps) (hrenders : ∀ t ∈ d.tags, (ps.renders.get? t.name).isSome)
    (hdrawn : w.drawing.isSome) : ∃ u w', render play w = .ok u w' := by
  have htag : ∀ t ∈ d.tags, Completes (fun w => w.drawing.isSome) (renderTag play ps t) := by
    intro t ht
    obtain ⟨p, hp⟩ := Option.isSome_iff_exists.mp (hrenders t ht)
    have hsought : Drawing.isSought t.name := by
      have htyped := typed.tags t ht
      simp only [Tag.isTyped, Bool.and_eq_true] at htyped
      exact htyped.1.1
    unfold renderTag
    rw [hp]
    exact (findByTag_completes hsought).bind fun _ => .forM fun _ _ => renderOne_completes _ _ _ _
  obtain ⟨drawn, hdraw⟩ := Option.isSome_iff_exists.mp hdrawn
  unfold render
  rw [get_bind, hdraw, hps]
  dsimp only
  split
  · exact ⟨(), w, rfl⟩
  · refine bind_succeeds (a := ()) rfl ?_
    have hpass := (renderOne_completes .root ps.root (.entity .scene) "state_render").bind fun _ =>
      Completes.forM (l := w.visual.descriptor.tags) (hd ▸ htag)
    obtain ⟨u, w', h, -⟩ := hpass { w with visual := { w.visual with renders := w.visual.renders + 1 } } hdrawn
    exact ⟨u, w', h⟩

theorem startAcquisition_ok (w : World) : ∃ u w', startAcquisition w = .ok u w' := by
  unfold startAcquisition
  rw [get_bind]
  split
  · exact ⟨_, _, rfl⟩
  · exact ⟨_, _, rfl⟩

/-! ### Loading -/

theorem fetchDocument_ok {content : String} (hc : Value.Members.get? w.host.documents w.visual.path = some content) :
    ∃ u, fetchDocument w = .ok content u ∧ u.visual = w.visual ∧ u.host.naming = w.host.naming := by
  refine ⟨{ w with host := { w.host with fetched := w.host.fetched ++ [w.visual.path] } }, ?_, rfl, rfl⟩
  unfold fetchDocument
  rw [get_bind]
  refine (bind_ok rfl).trans ?_
  rw [get_bind, hc]
  rfl

theorem fetchDocument_absent (hc : Value.Members.get? w.host.documents w.visual.path = none) :
    ∃ u, fetchDocument w = .error ⟨.transport, "Document not found: " ++ w.visual.path⟩ u := by
  refine ⟨{ w with host := { w.host with fetched := w.host.fetched ++ [w.visual.path] } }, ?_⟩
  unfold fetchDocument
  rw [get_bind]
  refine (bind_ok rfl).trans ?_
  rw [get_bind, hc]
  rfl

theorem withLog_ok (r : Log × α) (w : World) :
    ∃ u, withLog r w = .ok r.2 u ∧ u.visual = w.visual ∧ u.host.naming = w.host.naming :=
  ⟨_, logged_succeeds rfl w, rfl, rfl⟩

theorem descriptorOf_ok {root : Option (Markup.Element Unit)} {d : Descriptor} (hd : Document.descriptorIn root = .ok d)
    (w : World) : ∃ u, descriptorOf root w = .ok d u ∧ u.visual = w.visual ∧ u.host.naming = w.host.naming := by
  cases root with
  | none =>
    cases hd
    exact ⟨w, rfl, rfl, rfl⟩
  | some e => exact ⟨_, logged_succeeds hd w, rfl, rfl⟩

/-- What the root of a document carries has been read from markup, and can be written there again. -/
theorem isCarried_of_read {content : String} {e : Markup.Element Unit} (h : Markup.read (.text content) = some e) :
    ∀ a ∈ e.head.attrs, Drawing.isCarried a.value = true :=
  fun a ha => ((Markup.read_eq_some h).legible.1.attrs a ha).writable

theorem naming_framed : Framed fun a b => b.host.naming = a.host.naming where
  refl _ := rfl
  trans h k := k.trans h
  grow _ _ _ := rfl
  draw _ _ := rfl
  mount _ _ _ := rfl
  shape h := by cases h <;> rfl

theorem firstState_ok {d : Descriptor} {t : Table Entry} {ps : Programs} (named : d.Named) (typed : d.Typed)
    (suits : ∀ b ∈ d.behaviors, ∃ e, t.get? b.id = some e ∧ Settings.Suits b.kind e) (i : Sits d t ps w) :
    ∃ u w', firstState w = .ok u w' ∧ Sits d t ps w' := by
  have hbehaviors : Completes (Sits d t ps) (d.behaviors.forM setUp) := .forM fun b hb => by
    obtain ⟨e, he, hs⟩ := suits b hb
    exact Sits.setUp (typed.keyed b hb) he hs
  have hfirst : Completes (Sits d t ps) firstState := by
    refine (Completes.modify fun _ i => { i with }).bind fun _ => (Completes.modify fun _ i => { i with }).bind fun _ => ?_
    refine Sits.setTags.bind fun _ => .get_bind fun w i => ?_
    dsimp only
    rw [i.descriptor]
    refine (Completes.forM fun p hp => Sits.setProperty (named.properties p hp)).bind fun _ => ?_
    exact (Completes.forM fun u hu => Sits.wireTag (typed.tags u hu)).bind fun _ => hbehaviors
  exact hfirst w i

theorem place_succeeds {content : String} {d : Descriptor}
    (hc : Value.Members.get? w.host.documents w.visual.path = some content)
    (hd : (Document.descriptorOf (.text content)).2 = .ok d) (typed : d.Typed) {os : List (String × Value)}
    (ho : Settings.overridesOf w.visual.overrides = .ok os) (hn : w.host.naming.isTranslated = false)
    (hw : w.visual.target.1.isMeasure) (hh : w.visual.target.2.isMeasure) :
    ∃ t ps w', place w = .ok () w' ∧ Sits d t ps w' ∧ ∀ t ∈ d.tags, (ps.renders.get? t.name).isSome := by
  rw [Document.descriptorOf_eq] at hd
  have named := Document.descriptorIn_named hd
  have hread : (Document.read (.text content)).2 = Markup.read (.text content) := by
    unfold Document.read
    cases Markup.read (.text content) <;> rfl
  rw [← hread] at hd
  obtain ⟨t, ht, suits⟩ := Settings.resolve_suits named typed ho
  obtain ⟨ps, hps, hrenders⟩ := Programs.ofDescriptor_ok named typed
  obtain ⟨w₁, h₁, v₁, n₁⟩ := fetchDocument_ok hc
  obtain ⟨w₂, h₂, v₂, n₂⟩ := withLog_ok (Document.read (.text content)) w₁
  obtain ⟨w₃, h₃, v₃, n₃⟩ := descriptorOf_ok hd w₂
  have hv : w₃.visual = w.visual := v₃.trans (v₂.trans v₁)
  have hnaming : w₃.host.naming = w.host.naming := n₃.trans (n₂.trans n₁)
  rw [← hv] at ho hw hh
  obtain ⟨_, w₄, h₄⟩ := adopt_succeeds named typed ho
  have hprior := (Prior.adopt d).leads h₄
  obtain ⟨hdescriptor, hsettings, ps', hps', hprograms⟩ := adopt_ok h₄
  rw [← hprior.target] at hw hh
  obtain ⟨_, w₅, h₅⟩ := prepareScene_ok (Document.read (.text content)).2
    (fun e he => isCarried_of_read (hread.symm.trans he)) hw hh
  have hspared := (Spared.placing.prepareScene _).leads h₅
  have hsits : Sits d t ps w₅ := by
    refine ⟨hspared.descriptor.trans hdescriptor, ?_, ?_, ?_, prepareScene_drawn h₅⟩
    · rw [hspared.settings]
      rw [hv, ht] at hsettings
      exact (Except.ok.inj hsettings).symm
    · rw [hspared.programs, hprograms]
      rw [hps] at hps'
      rw [Except.ok.inj hps']
    · rw [(naming_framed.prepareScene _).leads h₅, hprior.naming, hnaming, hn]
  obtain ⟨_, w₆, h₆, hsits'⟩ := firstState_ok named typed suits hsits
  refine ⟨t, ps, w₆, ?_, hsits', hrenders⟩
  unfold place loadContent
  rw [bind_ok h₁, bind_ok h₂, bind_ok h₃, bind_ok h₄, bind_ok h₅, h₆]

end Run

/-- Loading a visual fails where its document is not there. Once the document is there, and its descriptor is
read and has fields that are what they are for, loading does not fail: whatever the overrides say, whatever
scripts do, whatever has been done to the visual before. -/
theorem loading_succeeds (w : World) (hn : w.host.naming.isTranslated = false) (hw : w.visual.target.1.isMeasure)
    (hh : w.visual.target.2.isMeasure) {os : List (String × Value)}
    (ho : w.visual.overrides = .object os ∨ w.visual.overrides = .null)
    (hd : ∀ content, Value.Members.get? w.host.documents w.visual.path = some content →
      ∃ d, (Document.descriptorOf (.text content)).2 = .ok d ∧ d.isTyped = true) :
    (∃ w', Run.start Run.play w = .error ⟨.transport, "Document not found: " ++ w.visual.path⟩ w') ∧
        Value.Members.get? w.host.documents w.visual.path = none ∨
      ∃ w₁ w', Run.place w = .ok () w₁ ∧ Run.start Run.play w = .ok () w' ∧ w₁.Follows w' ∧
        (∃ content, Value.Members.get? w.host.documents w.visual.path = some content ∧
          (Document.descriptorOf (.text content)).2 = .ok w₁.visual.descriptor) := by
  have hos : ∃ os, Settings.overridesOf w.visual.overrides = .ok os := by
    rcases ho with ho | ho
    · exact ⟨os, by rw [ho, Settings.overridesOf_object]⟩
    · exact ⟨[], by rw [ho]; rfl⟩
  obtain ⟨os, hos⟩ := hos
  cases hc : Value.Members.get? w.host.documents w.visual.path with
  | none =>
    obtain ⟨w', h⟩ := Run.fetchDocument_absent hc
    exact .inl ⟨⟨w', Run.bind_error (Run.bind_error h)⟩, rfl⟩
  | some content =>
    obtain ⟨d, hof, typed⟩ := hd content hc
    have typed := Descriptor.typed_of_isTyped typed
    obtain ⟨t, ps, w₁, hplace, sits, hrenders⟩ := Run.place_succeeds hc hof typed hos hn hw hh
    obtain ⟨u, w₂, hrender⟩ := Run.render_completes typed sits.descriptor sits.programs hrenders sits.drawn
    obtain ⟨_, w₃, hbegin⟩ := Run.startAcquisition_ok w₂
    obtain ⟨_, w', hpresent⟩ : ∃ u w', Run.present Run.play w₁ = .ok u w' := by
      unfold Run.present
      refine Run.bind_succeeds hrender (Run.bind_succeeds hbegin ?_)
      exact ⟨_, _, rfl⟩
    have hstart : Run.start Run.play w = .ok () w' := by
      unfold Run.start
      rw [Run.bind_ok hplace, hpresent]
    exact .inr ⟨w₁, w', hplace, hstart, .present hpresent, content, rfl, by rw [sits.descriptor, hof]⟩

/-- A document with a descriptor and an element that carries a tag. -/
def documentWith (descriptor : String) : String :=
  "<svg width='4' height='3' xmlns:t='https://thingsboard.io/svg'><t:metadata>" ++ descriptor ++
    "</t:metadata><g t:tag='g'/></svg>"

/-- A descriptor whose scripts fail, or are none. -/
def panelText : String :=
  "\x7b\"stateRenderFunction\":\"ctx.api.set_value('v', 1 / 0)\"," ++
    "\"tags\":[\x7b\"tag\":\"g\",\"stateRenderFunction\":\"return (\",\"actions\":\x7b\"x\":\x7b\x7d\x7d\x7d]," ++
    "\"behavior\":[\x7b\"id\":\"a\",\"type\":\"action\"\x7d,\x7b\"id\":\"w\",\"type\":\"widgetAction\"\x7d," ++
    "\x7b\"id\":1,\"type\":\"value\",\"valueId\":\"v\"\x7d]," ++
    "\"properties\":[\x7b\"id\":\"p\",\"type\":\"color-settings\"\x7d]\x7d"

/-- A visual whose overrides do not fit. -/
def panelSetup : World.Setup where
  path := "panel"
  overrides := .object [("a", .int 5), ("w", .object [("type", .int 7)]), ("p", .list [])]
  documents := [("panel", documentWith panelText)]

set_option maxRecDepth 100000 in
/-- It is so when scripts fail and overrides do not fit. -/
theorem loading_succeeds_panel : ∃ w₁ w', Run.place (.ofSetup panelSetup) = .ok () w₁ ∧
    Run.start Run.play (.ofSetup panelSetup) = .ok () w' ∧ w₁.Follows w' := by
  have htyped : (match (Document.descriptorOf (.text (documentWith panelText))).2 with
    | .ok d => d.isTyped
    | .error _ => false) = true := by decide +kernel
  have hd : ∀ content, Value.Members.get? panelSetup.documents panelSetup.path = some content →
      ∃ d, (Document.descriptorOf (.text content)).2 = .ok d ∧ d.isTyped = true := by
    intro content hc
    obtain rfl : documentWith panelText = content := Option.some.inj hc
    cases hof : (Document.descriptorOf (.text (documentWith panelText))).2 with
    | error f =>
      rw [hof] at htyped
      cases htyped
    | ok d =>
      rw [hof] at htyped
      exact ⟨d, rfl, htyped⟩
  rcases loading_succeeds (.ofSetup panelSetup) rfl rfl rfl (.inl rfl) hd with ⟨-, habsent⟩ | ⟨w₁, w', hp, hs, hf, -⟩
  · cases habsent
  · exact ⟨w₁, w', hp, hs, hf⟩

/-- Descriptors that have something else where a text or a name is to be, a tag that cannot be looked for, or
a behavior named as a property is. -/
def untypedTexts : List String :=
  ["\x7b\"stateRenderFunction\":5\x7d", "\x7b\"tags\":[\x7b\"tag\":\"g\",\"stateRenderFunction\":5\x7d]\x7d",
    "\x7b\"tags\":[\x7b\"tag\":\"g\",\"actions\":\x7b\"x\":\x7b\"actionFunction\":5\x7d\x7d\x7d]\x7d",
    "\x7b\"tags\":[\x7b\"tag\":\"\x5cu0000\"\x7d]\x7d",
    "\x7b\"behavior\":[\x7b\"id\":\"a\",\"type\":\"action\",\"valueToDataType\":5\x7d]\x7d",
    "\x7b\"behavior\":[\x7b\"id\":\"a\",\"type\":\"action\",\"valueToDataFunction\":5\x7d]\x7d",
    "\x7b\"behavior\":[\x7b\"id\":\"a\",\"type\":\"value\",\"valueId\":[]\x7d]\x7d",
    "\x7b\"behavior\":[\x7b\"id\":\"a\",\"type\":\"value\",\"valueId\":\"v\",\"valueType\":[]\x7d]\x7d",
    "\x7b\"behavior\":[\x7b\"id\":\"a\",\"type\":\"value\",\"valueId\":\"v\"\x7d]," ++
      "\"properties\":[\x7b\"id\":\"a\",\"type\":\"number\"\x7d]\x7d"]

/-- Whether a document with a descriptor is there and is read, and cannot be loaded all the same. -/
def Unloadable (source : String) : Prop :=
  ∃ d f w', (Document.descriptorOf (.text (documentWith source))).2 = .ok d ∧
    Run.start Run.play (.ofSetup { panelSetup with documents := [("panel", documentWith source)] }) = .error f w' ∧
      f.cause ≠ .transport

/-- The failure that a run ends with. -/
def failureOf (r : EStateM.Result Failure World Unit) : Option Failure :=
  r.casesOn (fun _ _ => none) fun f _ => some f

set_option maxRecDepth 100000 in
/-- Each of these descriptors is read, and makes loading fail. -/
theorem untyped_unloadable : untypedTexts.Forall Unloadable := by
  have hall : untypedTexts.all (fun source =>
      (Document.descriptorOf (.text (documentWith source))).2.toOption.isSome &&
        (failureOf (Run.start Run.play
          (.ofSetup { panelSetup with documents := [("panel", documentWith source)] }))).any
            (·.cause != .transport)) = true := by decide +kernel
  refine List.forall_iff_forall_mem.mpr fun source hs => ?_
  have hfails := List.all_eq_true.mp hall source hs
  rw [Bool.and_eq_true, Option.any_eq_true] at hfails
  obtain ⟨hread, f, hf, hcause⟩ := hfails
  unfold Unloadable
  cases hd : (Document.descriptorOf (.text (documentWith source))).2 with
  | error g =>
    rw [hd] at hread
    cases hread
  | ok d =>
    cases hr : Run.start Run.play (.ofSetup { panelSetup with documents := [("panel", documentWith source)] }) with
    | ok b w' =>
      rw [hr] at hf
      cases hf
    | error g w' =>
      rw [hr] at hf
      cases hf
      exact ⟨d, f, w', rfl, rfl, bne_iff_ne.mp hcause⟩

end LiveSvg
