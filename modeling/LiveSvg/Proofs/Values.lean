import LiveSvg.Proofs.Since
/-!
What becomes of a new value: which cell takes it, and whether scripts get to see it.
-/

namespace LiveSvg

open Script (Act Datum Members)

variable {R : World → World → Prop} {play : Player}

namespace Situation

/-- Whether a value is found to differ from another one. -/
def differ (s : Situation) (old value : Datum) : Bool :=
  match s.view.differ old value with
  | .ok b => b
  | .error _ => false

/-- The cell that takes a new value, with its id. -/
def taker? (s : Situation) (id value : Datum) : Option (Value × Cell Datum Value) :=
  if s.visual.isDestroyed || !id.isKey then none
  else
    match id.plain? with
    | none => none
    | some id =>
      match s.visual.cells.get? id with
      | none => none
      | some cell =>
        if !cell.isClosed && s.differ cell.value value then some (id, cell) else none

theorem taker?_eq_some {s : Situation} {id value : Datum} {v : Value} {cell : Cell Datum Value}
    (h : s.taker? id value = some (v, cell)) :
    s.visual.cells.get? v = some cell ∧ s.differ cell.value value = true := by
  unfold taker? at h
  split at h
  · cases h
  · split at h
    · cases h
    · split at h
      · cases h
      · rename_i c hc
        split at h
        · rename_i hd
          cases h
          simp only [Bool.and_eq_true] at hd
          exact ⟨hc, hd.2⟩
        · cases h

/-- The key under which scripts get to see a new value; none if it is nothing new to them. -/
def changed? (s : Situation) (id : Value) (value : Datum) : Option Datum :=
  match Run.keyDatum id with
  | .error _ => none
  | .ok key =>
    match Members.get? s.values key with
    | none => some key
    | some old => if s.differ old value then some key else none

theorem changed?_of_differ {s : Situation} {id : Value} {key old value : Datum}
    (hk : Run.keyDatum id = .ok key) (ho : Members.get? s.values key = some old)
    (hd : s.differ old value) : s.changed? id value = some key := by
  unfold changed?
  rw [hk]
  dsimp only
  rw [ho]
  exact if_pos hd

end Situation

/-- The world in which a cell has taken a new value, before anyone is told. -/
def World.given (w : World) (id : Value) (cell : Cell Datum Value) (value : Datum) : World :=
  { w with
    past := ⟨.take id value, w.toSituation⟩ :: w.past
    visual := { w.visual with cells := w.visual.cells.set id (cell.next value).1 } }

/-- The world in which scripts see a new value. -/
def World.changed (w : World) (id : Value) (key value : Datum) : World :=
  { w with
    past := ⟨.change id value, w.toSituation⟩ :: w.past
    values := Members.set w.values key value }

namespace Run

theorem setValue_after (play : Player) (id value : Datum) (w : World) :
    (setValue play id value).after w =
      match w.taker? id value with
      | some (id, cell) => (pushValue play id cell value).after w
      | none => w := by
  unfold setValue Situation.taker? keyOf needKey Situation.differ
  rw [after_get_bind]
  cases w.visual.isDestroyed with
  | true => rfl
  | false =>
    cases id.isKey with
    | false => rfl
    | true =>
      cases id.plain? with
      | none => rfl
      | some v =>
        cases hc : w.visual.cells.get? v with
        | none => simp [hc]
        | some cell =>
          cases ho : cell.isClosed
          · rcases hd : w.view.differ cell.value value with f | b
            · simp [hc, ho, hd]
            · cases b <;> simp [hc, ho, hd]
          · simp [hc, ho]

theorem pushValue_after (play : Player) (id : Value) (cell : Cell Datum Value) (value : Datum)
    (w : World) :
    (pushValue play id cell value).after w =
      ((cell.next value).2.forM fun subscriber => takeValue play subscriber value).after
        (w.given id cell value) := rfl

theorem takeValue_after (play : Player) (id : Value) (value : Datum) (w : World) :
    (takeValue play id value).after w =
      match w.changed? id value with
      | some key => (render play).after (w.changed id key value)
      | none => w := by
  unfold takeValue Situation.changed? Situation.differ
  rw [after_get_bind]
  cases keyDatum id with
  | error f => rfl
  | ok key =>
    cases hg : Members.get? w.values key with
    | none => simp [hg]; rfl
    | some old =>
      rcases hd : w.view.differ old value with f | b
      · simp [hg, hd]
      · cases b <;> simp [hg, hd]
        rfl

end Run

namespace Gentle

variable (G : Gentle R)
include G

theorem takeValue (hc : ∀ w id key value, R w (World.changed w id key value))
    (hr : Along R (Run.render play)) (id : Value) (value : Datum) :
    Along R (Run.takeValue play id value) := by
  intro w
  rw [Run.takeValue_after]
  cases w.changed? id value with
  | none => exact G.refl w
  | some key => exact G.trans (hc _ _ _ _) (hr _)

theorem setValue
    (hc : ∀ (w : World) (id : Value) (cell : Cell Datum Value) (value : Datum),
      w.visual.cells.get? id = some cell → R w (w.given id cell value))
    (ht : ∀ id value, Along R (Run.takeValue play id value)) (id value : Datum) :
    Along R (Run.setValue play id value) := by
  intro w
  rw [Run.setValue_after]
  cases hk : w.taker? id value with
  | none => exact G.refl w
  | some found =>
    obtain ⟨hg, -⟩ := Situation.taker?_eq_some hk
    dsimp only
    rw [Run.pushValue_after]
    exact G.trans (hc w _ _ _ hg) (G.forM (fun _ _ => ht _ _) _)

end Gentle

namespace Calm

variable (C : Calm R)
include C

/-- A relation that holds of every change there is, whoever makes it, is kept to by whole runs in which no size
is asked for. -/
theorem led (hd : ∀ l, Along R (Run.record (.start l)))
    (he : ∀ l result, Along R (Run.record (.finish l result)))
    (ha : ∀ batch getter result, Along R (Run.record (.acquire batch getter result)))
    (hst : ∀ r c, Along R (Run.store r c))
    (hr : Along R (Run.modifyVisual fun v => { v with renders := v.renders + 1 }))
    (hv : ∀ w id key value, R w (World.changed w id key value))
    (hc : ∀ (w : World) (id : Value) (cell : Cell Datum Value) (value : Datum),
      w.visual.cells.get? id = some cell → R w (w.given id cell value)) :
    Led R where
  toCalm := C
  store := hst
  script hp _ _ := C.script (hd _) (he _) hp
  acquire := ha
  value hp := C.setValue hc (C.takeValue hv (C.render (fun _ => C.script (hd _) (he _) hp) hr))
  render hp := C.render (fun _ => C.script (hd _) (he _) hp) hr

/-- A relation that holds of such changes and when a size is asked for is kept to by whole runs. -/
theorem driven (aim : Aimed R) (hd : ∀ l, Along R (Run.record (.start l)))
    (he : ∀ l result, Along R (Run.record (.finish l result)))
    (ha : ∀ batch getter result, Along R (Run.record (.acquire batch getter result)))
    (hst : ∀ r c, Along R (Run.store r c))
    (hr : Along R (Run.modifyVisual fun v => { v with renders := v.renders + 1 }))
    (hv : ∀ w id key value, R w (World.changed w id key value))
    (hc : ∀ (w : World) (id : Value) (cell : Cell Datum Value) (value : Datum),
      w.visual.cells.get? id = some cell → R w (w.given id cell value)) :
    Driven R := { C.led hd he ha hst hr hv hc with aim }

end Calm

/-! ### Whole runs -/

/-- Whether the visual of a world has not been destroyed. -/
def World.isLive (w : World) : Prop := w.visual.isDestroyed = false

/-- Nothing that has come to pass is forgotten. -/
theorem later_driven : Driven Later := by
  have C : Calm Later :=
    { toCourse := Later.course
      stir := fun h => by
        rcases h.past with ⟨hp, -⟩ | ⟨deed, hp, -⟩
        · exact ⟨[], hp⟩
        · exact ⟨[_], hp⟩ }
  exact C.driven (fun _ _ => ⟨[], rfl⟩) (fun _ _ => ⟨[_], rfl⟩) (fun _ _ _ => ⟨[_], rfl⟩) (fun _ _ _ _ => ⟨[_], rfl⟩)
    (fun r c w => ⟨[_], Run.store_past r c w⟩)
    (fun _ => ⟨[], rfl⟩) (fun _ _ _ _ => ⟨[_], rfl⟩) fun _ _ _ _ _ => ⟨[_], rfl⟩

/-- What a change around scripts keeps of a visual, and taking and showing values keeps as well, is
kept by whole runs. -/
theorem kept_driven {α : Type} {f : Visual → α} (hf : ∀ {v v' : Visual}, v.Alike v' → f v' = f v)
    (hr : ∀ v : Visual, f { v with renders := v.renders + 1 } = f v)
    (hc : ∀ (v : Visual) cells, f { v with cells } = f v) :
    Driven fun a b => f b.visual = f a.visual := by
  have C : Calm fun a b => f b.visual = f a.visual :=
    { refl := fun _ => rfl, trans := fun h k => k.trans h, stir := fun h => hf h.alike }
  exact C.driven (fun _ _ => hf { Visual.Alike.rfl with }) (fun _ _ => rfl) (fun _ _ _ => rfl) (fun _ _ _ _ => rfl)
    (fun r c w => congrArg f (Run.store_visual r c w)) (fun _ => hr _) (fun _ _ _ _ => rfl) fun _ _ _ _ _ => hc _ _

/-- Part of a visual is the same in one world as in an earlier one, and was so all the time. -/
def Throughout {α : Type} (f : Visual → α) (a b : World) : Prop :=
  f b.visual = f a.visual ∧ ∃ new, b.past = new ++ a.past ∧ ∀ e ∈ new, f e.before.visual = f a.visual

namespace Throughout

variable {α : Type} {f : Visual → α}

theorem silent {a b : World} (hp : b.past = a.past) (hv : f b.visual = f a.visual) : Throughout f a b :=
  ⟨hv, [], hp, fun _ h => absurd h List.not_mem_nil⟩

theorem event {a b : World} {deed : Deed} (hp : b.past = ⟨deed, a.toSituation⟩ :: a.past)
    (hv : f b.visual = f a.visual) : Throughout f a b :=
  ⟨hv, [_], hp, fun e h => by rw [List.mem_singleton.mp h]⟩

theorem course (f : Visual → α) : Course (Throughout f) where
  refl _ := silent rfl rfl
  trans := by
    rintro a b c ⟨hb, new, hn, h⟩ ⟨hc, more, hm, k⟩
    refine ⟨hc.trans hb, more ++ new, by rw [hm, hn, List.append_assoc], fun e he => ?_⟩
    rcases List.mem_append.mp he with he | he
    · exact (k e he).trans hb
    · exact h e he

/-- What is kept by whole runs was so all the time. -/
theorem driven (hf : ∀ {v v' : Visual}, v.Alike v' → f v' = f v)
    (hr : ∀ v : Visual, f { v with renders := v.renders + 1 } = f v)
    (hc : ∀ (v : Visual) cells, f { v with cells } = f v) : Driven (Throughout f) := by
  have C : Calm (Throughout f) :=
    { toCourse := course f
      stir := fun h => by
        rcases h.past with ⟨hp, -⟩ | ⟨deed, hp, -⟩
        · exact silent hp (hf h.alike)
        · exact event hp (hf h.alike) }
  exact C.driven (fun _ _ => silent rfl (hf { Visual.Alike.rfl with })) (fun _ _ => event rfl rfl)
    (fun _ _ _ => event rfl rfl) (fun _ _ _ _ => event rfl rfl)
    (fun r c w => event (Run.store_past r c w) (congrArg f (Run.store_visual r c w)))
    (fun _ => silent rfl (hr _)) (fun _ _ _ _ => event rfl rfl)
    fun _ _ _ _ _ => event rfl (hc _ _)

end Throughout

/-- Nothing but destroying a visual destroys it. -/
theorem live_driven : Driven fun a b => b.visual.isDestroyed = a.visual.isDestroyed :=
  kept_driven (fun h => h.isDestroyed) (fun _ => rfl) fun _ _ => rfl

/-- A visual keeps its descriptor. -/
theorem descriptor_driven : Driven fun a b => b.visual.descriptor = a.visual.descriptor :=
  kept_driven (fun h => h.descriptor) (fun _ => rfl) fun _ _ => rfl

theorem destroy_not_live (w : World) : ¬ (Step.destroy.after w).isLive := by
  unfold Step.after Step.run Run.destroy World.isLive
  rw [Run.after_get_bind]
  cases h : w.visual.isDestroyed with
  | true => simp [h]
  | false => exact Bool.noConfusion

/-- A visual that is live after a step was live before, and the step has not destroyed it. -/
theorem Step.live_before {s : Step} {w : World} (h : (s.after w).isLive) : w.isLive ∧ s ≠ .destroy := by
  have hs : s ≠ .destroy := by
    rintro rfl
    exact destroy_not_live w h
  exact ⟨(live_driven.step hs (fun _ => live_driven.turn live_driven.steady.plays fun _ _ => rfl) w).symm.trans
    h, hs⟩

theorem World.Follows.presented {w₁ w : World} (h : w₁.Follows w) :
    ∃ w₂, Run.present Run.play w₁ = .ok () w₂ := by
  induction h with
  | present h => exact ⟨_, h⟩
  | step _ _ ih => exact ih

/-- What is kept to by steps leads from a visual that has been shown to every live world that
follows. -/
theorem World.Follows.course (C : Course R) (hs : ∀ s, s ≠ .destroy → Along R (Step.run s))
    {w₁ w : World} (h : w₁.Follows w) (live : w.isLive) :
    ∃ w₂, Run.present Run.play w₁ = .ok () w₂ ∧ w₂.isLive ∧ R w₂ w := by
  induction h with
  | present h => exact ⟨_, h, live, C.refl _⟩
  | step s _ ih =>
    obtain ⟨lw, h⟩ := Step.live_before live
    obtain ⟨w₂, h₂, l₂, r⟩ := ih lw
    exact ⟨w₂, h₂, l₂, C.trans r (hs s h _)⟩

theorem Driven.follows (D : Driven R) (hw : ∀ j, Along R (Run.record (.work j))) {w₁ w : World}
    (h : w₁.Follows w) (live : w.isLive) : R w₁ w := by
  have hs : ∀ s, s ≠ .destroy → Along R (Step.run s) :=
    fun s h => D.step h fun _ => D.turn D.steady.plays hw
  obtain ⟨w₂, h₂, -, r⟩ := h.course D.toCourse hs live
  exact D.trans (D.present.leads h₂) r

/-- What destroying a visual goes along as well is kept to whether or not the visual is live. -/
theorem Driven.follows_any (D : Driven R) (hw : ∀ j, Along R (Run.record (.work j))) (hd : Along R Run.destroy)
    {w₁ w : World} (h : w₁.Follows w) : R w₁ w := by
  induction h with
  | present h => exact D.present.leads h
  | step s _ ih =>
    refine D.trans ih ?_
    by_cases hs : s = .destroy
    · subst hs
      exact hd _
    · exact D.step hs (fun _ => D.turn D.steady.plays hw) _

/-! ### Runs that can be tried out -/

/-- Whether a deed neither assigns into the values that scripts see, nor gives one, nor changes the
drawing. -/
def Deed.isTame : Deed → Bool
  | .store .values _ => false
  | .propose .. => false
  | .draw _ => false
  | _ => true

/-- Tests what some steps lead to once a visual has been put in place and shown. -/
def World.Setup.leads (s : Setup) (steps : List Step) (test : World → World → Bool) : Bool :=
  match Run.place (ofSetup s) with
  | .ok _ w₁ =>
    match Run.present Run.play w₁ with
    | .ok _ w => test w₁ (steps.foldl (fun w s => s.after w) w)
    | .error .. => false
  | .error .. => false

theorem World.Follows.steps {w₁ w : World} (h : w₁.Follows w) (steps : List Step) :
    w₁.Follows (steps.foldl (fun w s => s.after w) w) := by
  induction steps generalizing w with
  | nil => exact h
  | cons s steps ih => exact ih (h.step s)

theorem World.Setup.leads_ok (s : Setup) (steps : List Step) (test : World → World → Bool)
    (h : s.leads steps test = true) : ∃ w₁ w, Run.place (ofSetup s) = .ok () w₁ ∧ w₁.Follows w ∧
      test w₁ w = true := by
  unfold leads at h
  cases hp : Run.place (ofSetup s) with
  | error f w => rw [hp] at h; cases h
  | ok _ w₁ =>
    rw [hp] at h
    dsimp only at h
    cases hs : Run.present Run.play w₁ with
    | error f w => rw [hs] at h; cases h
    | ok _ w =>
      rw [hs] at h
      exact ⟨w₁, _, rfl, (Follows.present hs).steps steps, h⟩

end LiveSvg
