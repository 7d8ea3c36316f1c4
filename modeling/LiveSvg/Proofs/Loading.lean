import LiveSvg.Proofs.Refusals
import LiveSvg.Proofs.Since
/-!
Putting a visual in place: what its parts leave alone, and what there is when it has succeeded.
-/

namespace LiveSvg

open Script (Datum)

variable {w w' : World}

/-- What the visual has been told to be stays the same; it stays ready and drawn. -/
structure Kept (a b : World) : Prop where
  overrides : b.visual.overrides = a.visual.overrides
  descriptor : b.visual.descriptor = a.visual.descriptor
  settings : b.visual.settings = a.visual.settings
  programs : b.visual.programs = a.visual.programs
  isDestroyed : b.visual.isDestroyed = a.visual.isDestroyed
  renders : b.visual.renders = a.visual.renders
  isReady : a.visual.isReady = true → b.visual.isReady = true
  drawing : a.drawing.isSome → b.drawing.isSome

/-- The values that scripts see stay the same as well. -/
structure Spared (a b : World) : Prop extends Kept a b where
  values : b.values = a.values

theorem Kept.calm : Calm Kept where
  refl _ := ⟨rfl, rfl, rfl, rfl, rfl, rfl, id, id⟩
  trans h k := ⟨k.overrides.trans h.overrides, k.descriptor.trans h.descriptor,
    k.settings.trans h.settings, k.programs.trans h.programs, k.isDestroyed.trans h.isDestroyed,
    k.renders.trans h.renders, k.isReady ∘ h.isReady, k.drawing ∘ h.drawing⟩
  stir h := ⟨h.alike.overrides, h.alike.descriptor, h.alike.settings, h.alike.programs,
    h.alike.isDestroyed, h.alike.renders, h.alike.isReady.trans, fun k => by
      rcases h.past with ⟨-, hd⟩ | ⟨_, -, ⟨-, hd⟩ | ⟨d, -, hd⟩⟩
      · rwa [hd]
      · rwa [hd]
      · rw [hd]; rfl⟩

theorem Spared.of_eq {a b : World} (hv : b.values = a.values) (h : b.visual = a.visual)
    (hd : b.drawing = a.drawing) : Spared a b where
  overrides := by rw [h]
  descriptor := by rw [h]
  settings := by rw [h]
  programs := by rw [h]
  isDestroyed := by rw [h]
  renders := by rw [h]
  isReady := by rw [h]; exact id
  drawing := by rw [hd]; exact id
  values := hv

theorem Spared.calm : Calm Spared where
  refl w := ⟨Kept.calm.refl w, rfl⟩
  trans h k := ⟨Kept.calm.trans h.toKept k.toKept, k.values.trans h.values⟩
  stir h := ⟨Kept.calm.stir h, h.values⟩

theorem Framed.prepareScene {R : World → World → Prop} (F : Framed R) (root : Option (Markup.Element Unit)) :
    Along R (Run.prepareScene root) := by
  refine F.bind F.get fun w => F.bind (F.ofExcept _) fun d => ?_
  refine F.bind (fun w => F.shape (.frame w d)) fun _ =>
    F.bind (F.ofExcept _) fun d => F.bind (fun w => F.draw w _) fun _ => ?_
  refine F.bind (fun w => F.mount w w.mounts false) fun _ => F.bind F.get fun w => ?_
  split
  · exact F.bind (fun w => F.mount w _ true) fun _ => F.resize
  · exact F.resize

/-- A relation that can be composed and holds of what is done to make tags and properties known to
scripts. -/
structure Knowing (R : World → World → Prop) : Prop extends Course R where
  grow (w : World) {m : Script.Memory} : w.memory.Grows m → R w { w with memory := m }
  log (w : World) (log : Log) : R w { w with log }
  known (w : World) (colors : Array Color) (tags properties : Script.Members) :
    R w { w with colors, tags, properties }

namespace Knowing

open Run

variable {R : World → World → Prop} (K : Knowing R)
include K

theorem view : Along R view := K.bind K.get fun _ => K.pure _

theorem logged {α : Type} (r : Log × Except Failure α) : Along R (logged r) :=
  K.bind (fun w => K.log w _) fun _ => K.ofExcept _

theorem newList (items : List Datum) : Along R (newList items) :=
  K.bind (.modifyGet fun w => K.grow w (Script.Memory.add_grows _ _)) fun _ => K.pure _

theorem load (v : Value) : Along R (load v) := .modifyGet fun w => K.grow w (Script.Memory.load_grows _ v)

theorem addColor (c : Color) : Along R (addColor c) :=
  K.bind K.get fun _ => K.bind (fun w => K.known w _ _ _) fun _ => K.pure _

theorem propertyValue (id : Datum) : Along R (propertyValue id) := by
  have hc : ∀ p value, Along R (colorProperty p value) := fun p value => by
    refine K.bind K.view fun v => ?_
    split
    · exact K.bind (K.logged _) fun _ => K.addColor _
    · exact K.bind (fun w => K.log w _) fun _ => K.addColor _
  have ht : ∀ value, Along R (textProperty value) := fun value => by
    refine K.bind K.get fun w => .ite (K.bind (K.ofExcept _) fun r => ?_) (K.pure _)
    split
    · exact K.pure _
    · exact K.pure _
  have hd : ∀ p, Along R (defaultProperty p) := fun p =>
    .ite (K.pure _) <| .ite (K.pure _) <| .ite (K.pure _) <|
      .ite (K.addColor _) (K.pure _)
  refine K.bind K.get fun w => ?_
  dsimp only
  split
  · exact K.pure _
  · split
    · exact hd _
    · exact .ite (hc _ _) <| .ite (ht _) (K.pure _)

theorem setProperty (p : Property) : Along R (setProperty p) :=
  K.bind (K.propertyValue _) fun _ => K.bind (K.ofExcept _) fun _ => fun w => K.known w _ _ _

theorem setTags : Along R setTags := by
  refine K.bind (K.bind K.get fun w => ?_) fun d => K.bind (K.mapM ?_) fun _ => ?_
  · split
    · exact K.pure _
    · exact K.throw _
  · exact fun _ _ => K.bind (K.newList _) fun _ => K.pure _
  · exact fun w => K.known w _ _ _

theorem normalize (value : Datum) (type : Value) : Along R (normalize value type) := by
  unfold Run.normalize
  split
  · split
    · exact K.load _
    · exact K.throw _
    · exact K.throw _
    · exact K.pure _
  · exact K.pure _

theorem loadLiterals (entries : List (Value × Settings.Entry)) : Along R (loadLiterals entries) := by
  induction entries with
  | nil => exact K.pure _
  | cons e rest ih =>
    obtain ⟨id, entry⟩ := e
    cases entry with
    | literal v => exact K.bind (K.load _) fun _ => K.bind ih fun _ => K.pure _
    | _ => exact ih

/-- Taking a descriptor on goes along such a relation if what it makes of the visual does. -/
theorem adopted (ha : ∀ (w : World) descriptor settings literals programs isReady,
      R w { w with visual := { w.visual with descriptor, settings, literals, programs, isReady } })
    (d : Descriptor) : Along R (adopt d) := by
  refine K.bind (fun w => ha w d _ _ _ _) fun _ => K.bind K.get fun w => ?_
  refine K.bind (K.logged _) fun s => K.bind (K.loadLiterals _) fun l => ?_
  refine K.bind (fun w => ha w _ s l _ _) fun _ => ?_
  exact K.bind (K.logged _) fun p => fun w => ha w _ _ _ (some p) _

end Knowing

/-- A relation that can be composed and holds of what is done to put a visual in place, apart from its
behaviors. -/
structure Placing (R : World → World → Prop) : Prop extends Gentle R where
  known (w : World) (colors : Array Color) (handlers : Array Handler)
    (tags properties : Script.Members) : R w { w with colors, handlers, tags, properties }

namespace Placing

open Run

variable {R : World → World → Prop} (P : Placing R)
include P

theorem knowing : Knowing R where
  toCourse := P.toCourse
  grow w _ h := P.touch (.grow w h)
  log w log := P.touch (.log w log)
  known w _ _ _ := P.known w _ _ _ _

theorem setProperty (p : Property) : Along R (setProperty p) := P.knowing.setProperty p

theorem setTags : Along R setTags := P.knowing.setTags

theorem wireTag (t : Tag) : Along R (wireTag t) := by
  have hw : ∀ tag elements trigger program, Along R (wire tag elements trigger program) :=
    fun tag elements trigger program => P.bind P.get fun _ =>
      P.bind (fun w => P.known w _ _ _ _) fun _ => P.forM fun _ _ =>
        P.bind (P.touches (setAttr_touches _ _ _)) fun _ => P.touches (listen_touches _ _ _)
  unfold Run.wireTag
  split
  · exact P.pure _
  · exact P.pure _
  · exact P.bind P.get fun _ => P.bind (P.touches (findByTag_touches _)) fun _ =>
      P.forM fun _ _ => hw _ _ _ _

theorem prepareScene (root : Option (Markup.Element Unit)) : Along R (prepareScene root) := P.framed.prepareScene root

theorem loadLiterals (entries : List (Value × Settings.Entry)) : Along R (loadLiterals entries) :=
  P.knowing.loadLiterals entries

theorem fetchDocument : Along R fetchDocument := by
  refine P.bind P.get fun w => P.bind (P.modifyHost fun _ => rfl) fun _ =>
    P.bind P.get fun w => ?_
  split
  · exact P.pure _
  · exact P.throw _

theorem descriptorOf (root : Option (Markup.Element Unit)) : Along R (descriptorOf root) := by
  cases root with
  | none => exact P.pure _
  | some e => exact P.touches (logged_touches _)

end Placing

/-- A relation that also holds of what is done with a new descriptor, before its behaviors are set up. -/
structure Adopting (R : World → World → Prop) : Prop extends Placing R where
  adopt (w : World) (descriptor : Descriptor) (settings : Settings.Table Settings.Entry)
    (literals : Settings.Table Datum) (programs : Option Script.Programs) (isReady : Bool) :
    R w { w with visual := { w.visual with descriptor, settings, literals, programs, isReady } }
  clear (w : World) : R w { w with values := [], tags := [], properties := [] }

theorem Adopting.adopted {R : World → World → Prop} (A : Adopting R) (d : Descriptor) :
    Along R (Run.adopt d) := A.knowing.adopted A.adopt d

theorem Spared.placing : Placing Spared where
  toGentle := Spared.calm.toGentle
  known _ _ _ _ _ := .of_eq rfl rfl rfl

namespace Run

open Spared (calm placing)

theorem setUp_kept (b : Behavior) : Along Kept (setUp b) := by
  have C := Kept.calm
  refine C.bind C.get fun w => ?_
  dsimp only
  split
  · refine C.bind (C.touches (load_touches _)) fun _ => C.bind (C.normalize _ _) fun _ =>
      C.bind (C.bind (C.ofExcept _) fun _ => ?_) fun _ => fun _ => ⟨rfl, rfl, rfl, rfl, rfl, rfl, id, id⟩
    exact C.bind (fun _ => ⟨rfl, rfl, rfl, rfl, rfl, rfl, id, id⟩) fun _ =>
      C.bind (fun _ => ⟨rfl, rfl, rfl, rfl, rfl, rfl, id, id⟩) fun _ => fun _ => ⟨rfl, rfl, rfl, rfl, rfl, rfl, id, id⟩
  · exact fun _ => ⟨rfl, rfl, rfl, rfl, rfl, rfl, id, id⟩
  · exact C.pure _
  · exact C.throw _

theorem logged_ok {α : Type} {r : Log × Except Failure α} {a : α} (h : logged r w = .ok a w') :
    r.2 = .ok a ∧ Spared w w' := by
  refine ⟨?_, (calm.touches (logged_touches r)).leads h⟩
  obtain ⟨log, result⟩ := r
  cases result with
  | ok b => cases h; rfl
  | error f => cases h

theorem adopt_ok {d : Descriptor} (h : adopt d w = .ok () w') :
    w'.visual.descriptor = d ∧ (Settings.resolve d w.visual.overrides).2 = .ok w'.visual.settings ∧
      ∃ ps, (Script.Programs.ofDescriptor d).start.2 = .ok ps ∧ w'.visual.programs = some ps := by
  obtain ⟨_, w₁, h₁, h⟩ := bind_eq_ok.mp h
  cases h₁
  obtain ⟨_, w₂, h₂, h⟩ := bind_eq_ok.mp h
  cases h₂
  obtain ⟨settings, w₃, h₃, h⟩ := bind_eq_ok.mp h
  obtain ⟨hs, k₃⟩ := logged_ok h₃
  obtain ⟨literals, w₄, h₄, h⟩ := bind_eq_ok.mp h
  have k₄ := calm.trans k₃ ((placing.loadLiterals _).leads h₄)
  obtain ⟨_, w₅, h₅, h⟩ := bind_eq_ok.mp h
  cases h₅
  obtain ⟨programs, w₆, h₆, h⟩ := bind_eq_ok.mp h
  obtain ⟨hp, k₆⟩ := logged_ok h₆
  cases h
  refine ⟨?_, ?_, programs, hp, rfl⟩
  · exact k₆.descriptor.trans k₄.descriptor
  · exact hs.trans (congrArg _ k₆.settings.symm)

theorem prepareScene_drawn {root : Option (Markup.Element Unit)} (h : prepareScene root w = .ok () w') :
    w'.drawing.isSome := by
  obtain ⟨_, w₁, h₁, h⟩ := bind_eq_ok.mp h
  obtain ⟨_, w₂, h₂, h⟩ := bind_eq_ok.mp h
  obtain ⟨_, w₃, h₃, h⟩ := bind_eq_ok.mp h
  obtain ⟨_, w₄, h₄, h⟩ := bind_eq_ok.mp h
  obtain ⟨_, w₅, h₅, h⟩ := bind_eq_ok.mp h
  cases h₅
  have k : Along Spared (do
      modify fun w => { w with isMounted := false }
      if (← get).visual.hasContainer then mount
      resize : Run Unit) := by
    refine calm.bind (fun _ => .of_eq rfl rfl rfl) fun _ => calm.bind calm.get fun w => ?_
    split
    · exact calm.bind (calm.touches mount_touches) fun _ => calm.resize
    · exact calm.resize
  exact (k.leads h).drawing rfl

/-- What holds of the empty descriptor and of all that are read holds of the one in a document. -/
theorem descriptorOf_spec {P : Descriptor → Prop} (he : P .empty)
    (hp : ∀ {text d}, Descriptor.parse text = .ok d → P d) {root : Option (Markup.Element Unit)} {d : Descriptor}
    (h : descriptorOf root w = .ok d w') : P d := by
  cases root with
  | none =>
    cases h
    exact he
  | some e =>
    obtain ⟨hd, -⟩ := logged_ok h
    unfold Document.descriptor at hd
    split at hd
    · cases hd
      exact he
    · split at hd
      · next hparse =>
        cases hd
        exact hp hparse
      · dsimp only at hd
        split at hd
        · cases hd
          exact he
        · cases hd

theorem descriptorOf_distinct {root : Option (Markup.Element Unit)} {d : Descriptor}
    (h : descriptorOf root w = .ok d w') : d.Distinct :=
  descriptorOf_spec ⟨by simp [Descriptor.empty], by simp [Descriptor.empty]⟩ Descriptor.parse_distinct h

/-- How a visual is put in place: from a world in which it has its descriptor, settings, programs and
drawing, but no values, its behaviors are set up. -/
theorem place_ok (h : place w = .ok () w') : ∃ w₁, (∀ {R}, Adopting R → R w w₁) ∧ Kept w₁ w' ∧
    w₁.values = [] ∧ w₁.drawing.isSome ∧ w₁.visual.programs.isSome ∧ w₁.visual.isReady = true ∧
      w₁.visual.descriptor.Distinct ∧
        (Settings.resolve w₁.visual.descriptor w.visual.overrides).2 = .ok w₁.visual.settings ∧
          w₁.visual.descriptor.behaviors.forM setUp w₁ = .ok () w' := by
  obtain ⟨content, w₁, h₁, h⟩ := bind_eq_ok.mp h
  have k₁ := placing.fetchDocument.leads h₁
  obtain ⟨root, w₂, h₂, h⟩ := bind_eq_ok.mp h
  have k₂ := calm.trans k₁ ((calm.touches (logged_touches _)).leads h₂)
  obtain ⟨d, w₃, h₃, h⟩ := bind_eq_ok.mp h
  have k₃ := calm.trans k₂ ((placing.descriptorOf _).leads h₃)
  obtain ⟨_, w₄, h₄, h⟩ := bind_eq_ok.mp h
  obtain ⟨hd, hs, ps, -, hp⟩ := adopt_ok h₄
  obtain ⟨_, w₅, h₅, h⟩ := bind_eq_ok.mp h
  have k₅ := (placing.prepareScene _).leads h₅
  have hdrawn := prepareScene_drawn h₅
  obtain ⟨_, w₆, h₆, h⟩ := bind_eq_ok.mp h
  cases h₆
  obtain ⟨_, w₆, h₆, h⟩ := bind_eq_ok.mp h
  cases h₆
  obtain ⟨_, w₇, h₇, h⟩ := bind_eq_ok.mp h
  have k₇ := placing.setTags.leads h₇
  obtain ⟨_, w₈, h₈, h⟩ := bind_eq_ok.mp h
  cases h₈
  obtain ⟨_, w₉, h₉, h⟩ := bind_eq_ok.mp h
  have k₉ := calm.trans k₇ ((calm.forM fun p _ => placing.setProperty p).leads h₉)
  obtain ⟨_, w₁₀, h₁₀, h⟩ := bind_eq_ok.mp h
  have k := calm.trans k₉ ((calm.forM fun t _ => placing.wireTag t).leads h₁₀)
  have hk : w₁₀.visual.descriptor = d := k.descriptor.trans (k₅.descriptor.trans hd)
  rw [show w₇.visual.descriptor = w₁₀.visual.descriptor from k₇.descriptor.trans k.descriptor.symm] at h
  refine ⟨w₁₀, fun {R} A => ?_, (Kept.calm.forM fun b _ => setUp_kept b).leads h, k.values, ?_, ?_,
    k.isReady rfl, ?_, ?_, h⟩
  · have l₄ := A.trans (A.trans (A.trans (A.fetchDocument.leads h₁)
      ((A.touches (logged_touches _)).leads h₂)) ((A.descriptorOf _).leads h₃))
      ((A.adopted d).leads h₄)
    have l₇ := A.trans (A.trans (A.trans l₄ ((A.prepareScene _).leads h₅)) (A.clear w₅))
      (A.trans (A.adopt _ _ _ _ _ true) (A.setTags.leads h₇))
    exact A.trans (A.trans l₇ ((A.forM fun p _ => A.setProperty p).leads h₉))
      ((A.forM fun t _ => A.wireTag t).leads h₁₀)
  · exact k.drawing hdrawn
  · rw [k.programs]
    exact (congrArg Option.isSome (k₅.programs.trans hp)).trans rfl
  · rw [hk]
    exact descriptorOf_distinct h₃
  · rw [hk, k.settings]
    exact (congrArg (fun o => (Settings.resolve d o).2) k₃.overrides.symm).trans
      (hs.trans (congrArg _ k₅.settings.symm))

/-- A visual in place is drawn, ready and has its programs. -/
theorem place_stands (h : place w = .ok () w') :
    w'.drawing.isSome ∧ w'.visual.programs.isSome ∧ w'.visual.isReady = true := by
  obtain ⟨w₁, -, k, -, hd, hp, hr, -⟩ := place_ok h
  exact ⟨k.drawing hd, by rw [k.programs]; exact hp, k.isReady hr⟩

end Run

end LiveSvg
