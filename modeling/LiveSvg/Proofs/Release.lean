import LiveSvg.Proofs.Silence
/-!
What destroying a visual lets go of. All that the visual has set up by then is let go of for good. A
visual that is still waiting for its document has set up nothing yet; when its document comes all the
same, it sets up what no one will let go of.
-/

namespace LiveSvg

open Script (Datum)

variable {R : World → World → Prop} {a b c w : World}

/-! ### Parts -/

/-- What a visual has of its own: cells, getters and setters. -/
def Visual.parts (v : Visual) : Settings.Table (Cell Datum Value) × Array Getter × Array Setter :=
  (v.cells, v.getters, v.setters)

/-- Nothing that the visual has of its own is in use any more. -/
structure World.Released (w : World) : Prop where
  loading : w.visual.loading.isClosed = true
  cells : ∀ e ∈ w.visual.cells, e.2.isClosed = true
  getters : ∀ g ∈ w.visual.getters, g.isDestroyed = true
  setters : ∀ s ∈ w.visual.setters, s.isDestroyed = true

/-- What one visual has let go of is in the same place in another one, and still let go of. -/
structure Visual.Leaves (v v' : Visual) : Prop where
  cells (n : Nat) {id : Value} {cell : Cell Datum Value} : v.cells[n]? = some (id, cell) →
    cell.isClosed = true → ∃ cell', v'.cells[n]? = some (id, cell') ∧ cell'.isClosed = true
  getters (n : Nat) {g : Getter} : v.getters[n]? = some g → v'.getters[n]? = some g
  setters (n : Nat) {s : Setter} : v.setters[n]? = some s → v'.setters[n]? = some s

namespace Visual.Leaves

theorem of_eq {v v' : Visual} (h : v'.parts = v.parts) : v.Leaves v' := by
  obtain ⟨hc, hp⟩ := Prod.mk.inj h
  obtain ⟨hg, hs⟩ := Prod.mk.inj hp
  refine ⟨fun n _ cell he closed => ⟨cell, ?_, closed⟩, fun n g h => ?_, fun n s h => ?_⟩
  · rw [hc]
    exact he
  · rw [hg]
    exact h
  · rw [hs]
    exact h

theorem trans {v v' v'' : Visual} (h : v.Leaves v') (k : v'.Leaves v'') : v.Leaves v'' where
  cells n _ _ hn closed := by
    obtain ⟨cell, hcell, hc⟩ := h.cells n hn closed
    exact k.cells n hcell hc
  getters n _ hg := k.getters n (h.getters n hg)
  setters n _ hs := k.setters n (h.setters n hs)

end Visual.Leaves

namespace Settings.Table

variable {α : Type}

/-- Setting a name leaves every entry in its place, the one with that name apart. -/
theorem getElem?_set_of (t : Table α) (name : Value) (x : α) {n : Nat} {e : Value × α}
    (h : t[n]? = some e) :
    (t.set name x)[n]? = some e ∨ t.get? name = some e.2 ∧ (t.set name x)[n]? = some (e.1, x) := by
  induction t generalizing n with
  | nil => cases h
  | cons f t ih =>
    obtain ⟨k, y⟩ := f
    rw [set, get?]
    by_cases hk : Descriptor.sameName k name
    · rw [if_pos hk, if_pos hk]
      cases n with
      | zero =>
        cases h
        exact .inr ⟨rfl, rfl⟩
      | succ n => exact .inl h
    · rw [if_neg hk, if_neg hk]
      cases n with
      | zero => exact .inl h
      | succ n => exact ih h

end Settings.Table

/-- What is added at the end leaves all else in its place. -/
theorem getElem?_push_of {α : Type} {xs : Array α} {n : Nat} {x : α} (h : xs[n]? = some x) (y : α) :
    (xs.push y)[n]? = some x := by
  obtain ⟨hn, hx⟩ := Array.getElem?_eq_some_iff.mp h
  rw [Array.getElem?_push_lt hn, hx]

/-! ### A destroyed visual -/

/-- From a destroyed visual one comes to a destroyed visual with the same parts. -/
def Resting (a b : World) : Prop := a.isGone → b.isGone ∧ b.visual.parts = a.visual.parts

/-- From a destroyed visual one comes to a destroyed visual that has taken up nothing again. -/
def Leaving (a b : World) : Prop := a.isGone → b.isGone ∧ a.visual.Leaves b.visual

namespace Resting

theorem course : Course Resting where
  refl _ g := ⟨g, rfl⟩
  trans h k g := ⟨(k (h g).1).1, (k (h g).1).2.trans (h g).2⟩

theorem of_eq (hd : b.visual.isDestroyed = a.visual.isDestroyed)
    (hl : b.visual.loading = a.visual.loading) (hp : b.visual.parts = a.visual.parts) : Resting a b :=
  fun g => ⟨⟨hd.trans g.destroyed, by rw [hl]; exact g.closed⟩, hp⟩

theorem fading (h : Fading a b) : Resting a b := fun g =>
  (h g).lift course (fun s => by cases s <;> exact of_eq rfl rfl rfl) g

theorem mild : Mild Resting where
  toCourse := course
  touch h := by cases h <;> exact of_eq rfl rfl rfl
  beat h := by cases h <;> exact of_eq rfl rfl rfl
  host _ _ _ := of_eq rfl rfl rfl
  shape h := by cases h <;> exact of_eq rfl rfl rfl

theorem placing : Placing Resting where
  toGentle := mild.toGentle
  known _ _ _ _ _ := of_eq rfl rfl rfl

theorem upheld : Upheld Resting where
  toMild := mild
  store r c w := by
    refine of_eq ?_ ?_ ?_ <;> rw [Run.store_visual]
  action _ n event := (Fading.runAction n event).mono fading
  color hp n value := mild.updateColor n value (mild.script (fun _ => of_eq rfl rfl rfl)
    (fun _ _ => of_eq rfl rfl rfl) hp)
  propose _ id value := course.bind (fun _ => of_eq rfl rfl rfl) fun _ =>
    (Fading.setValue id value).mono fading
  call event id value observer := (Fading.callAction event id value observer).mono fading

theorem muffled : Muffled Resting where
  toCourse := course
  fading := fading
  fire := upheld.fire upheld.plays
  finish := mild.finish upheld.plays

theorem step (s : Step) : Along Resting s.run := by
  cases s with
  | script act => exact (upheld.plays act).discard
  | host change => exact fun _ => of_eq rfl rfl rfl
  | _ => exact muffled.step trivial

end Resting

/-! ### Loading -/

namespace Run

/-- What loading does once the document has come. -/
def unfold (content : String) : Run Unit := do
  loadContent content
  present play

theorem start_eq : start play = fetchDocument >>= unfold := by
  unfold start place
  rw [bind_assoc]
  rfl

end Run

theorem Adopting.loadContent (A : Adopting R) (hs : ∀ b, Along R (Run.setUp b)) (content : String) :
    Along R (Run.loadContent content) := by
  refine A.bind (A.touches (Run.logged_touches _)) fun root => ?_
  refine A.bind (A.descriptorOf _) fun d => A.bind (A.adopted d) fun _ => ?_
  refine A.bind (A.prepareScene _) fun _ => A.bind A.clear fun _ => ?_
  refine A.bind (fun w => A.adopt w _ _ _ _ true) fun _ => A.bind A.setTags fun _ => ?_
  refine A.bind A.get fun w => A.bind (A.forM fun p _ => A.setProperty p) fun _ => ?_
  exact A.bind (A.forM fun t _ => A.wireTag t) fun _ => A.forM fun b _ => hs b

namespace Leaving

theorem course : Course Leaving where
  refl _ g := ⟨g, .of_eq rfl⟩
  trans h k g := ⟨(k (h g).1).1, (h g).2.trans (k (h g).1).2⟩

theorem resting (h : Resting a b) : Leaving a b := fun g => ⟨(h g).1, .of_eq (h g).2⟩

theorem adopting : Adopting Leaving where
  toCourse := course
  touch h := resting (Resting.placing.touch h)
  host _ _ h := resting (Resting.placing.host _ h)
  shape h := resting (Resting.placing.shape h)
  known _ _ _ _ _ := resting (Resting.placing.known _ _ _ _ _)
  adopt _ _ _ _ _ _ := resting (.of_eq rfl rfl rfl)
  clear _ := resting (.of_eq rfl rfl rfl)

theorem record (deed : Deed) : Along Leaving (Run.record deed) := fun _ =>
  resting (.of_eq rfl rfl rfl)

/-- A value gets a new cell, or leaves the closed cell that it has as it is. -/
theorem seed (id : Value) (initial : Datum) : Along Leaving (Run.seed id initial) := by
  refine course.bind (course.ofExcept _) fun _ => course.bind (record _) fun _ =>
    course.bind (fun w g => ?_) fun _ => fun w => resting (.of_eq rfl rfl rfl)
  refine ⟨⟨g.destroyed, g.closed⟩, fun n i cell hn closed => ?_, fun _ _ h => h, fun _ _ h => h⟩
  rcases Settings.Table.getElem?_set_of w.visual.cells id _ hn with h | ⟨hget, h⟩
  · exact ⟨cell, h, closed⟩
  · refine ⟨_, h, ?_⟩
    rw [hget]
    dsimp only
    unfold Cell.reset
    rw [if_pos closed]
    exact closed

theorem setUp (b : Behavior) : Along Leaving (Run.setUp b) := by
  have C := course
  refine C.bind C.get fun w => ?_
  dsimp only
  split
  · refine C.bind (adopting.touches (Run.load_touches _)) fun _ =>
      C.bind (adopting.normalize _ _) fun _ => C.bind (seed _ _) fun _ => fun w g => ?_
    exact ⟨⟨g.destroyed, g.closed⟩, fun _ _ cell hn hc => ⟨cell, hn, hc⟩,
      fun _ _ h => getElem?_push_of h _, fun _ _ h => h⟩
  · exact fun w g => ⟨⟨g.destroyed, g.closed⟩, fun _ _ cell hn hc => ⟨cell, hn, hc⟩, fun _ _ h => h,
      fun _ _ h => getElem?_push_of h _⟩
  · exact C.pure _
  · exact C.throw _

theorem startAcquisition : Along Leaving Run.startAcquisition := by
  have C := course
  refine C.bind C.get fun w => .ite (C.pure _) (C.bind C.get fun w => ?_)
  refine C.bind (record _) fun _ => C.bind ((Fading.setBusy true).mono (resting ∘ Resting.fading)) fun _ => ?_
  exact C.bind (fun w => resting (.of_eq rfl rfl rfl)) fun _ => fun w => resting (.of_eq rfl rfl rfl)

theorem unfold (content : String) : Along Leaving (Run.unfold content) := by
  have C := course
  have hf : ∀ {a b}, Fading a b → Leaving a b := fun h => resting (Resting.fading h)
  refine C.bind (adopting.loadContent setUp content) fun _ => ?_
  exact C.bind (Fading.render.mono hf) fun _ => C.bind startAcquisition fun _ =>
    C.bind C.get fun _ => (Fading.logEntry _).mono hf

end Leaving

/-! ### Whole runs -/

/-- Worlds that come after another one, as the visual is used, asks for its document and is unfolded
from a document that has come, in any order; and whether it has been unfolded. -/
inductive World.Onward (a : World) : Bool → World → Prop where
  | refl : Onward a false a
  | step (s : Step) {unfolded : Bool} {w : World} : Onward a unfolded w → Onward a unfolded (s.after w)
  | fetch {unfolded : Bool} {w : World} : Onward a unfolded w →
    Onward a unfolded (Run.fetchDocument.after w)
  | unfold (content : String) {unfolded : Bool} {w : World} : Onward a unfolded w →
    Onward a true ((Run.unfold content).after w)

theorem World.Onward.leaving {unfolded : Bool} (h : a.Onward unfolded b) :
    Leaving a b ∧ (unfolded = false → Resting a b) := by
  have fetch := Resting.placing.fetchDocument
  induction h with
  | refl => exact ⟨Leaving.course.refl a, fun _ => Resting.course.refl a⟩
  | step s _ ih =>
    exact ⟨Leaving.course.trans ih.1 (Leaving.resting (Resting.step s _)),
      fun hu => Resting.course.trans (ih.2 hu) (Resting.step s _)⟩
  | fetch _ ih =>
    exact ⟨Leaving.course.trans ih.1 (Leaving.resting (fetch _)),
      fun hu => Resting.course.trans (ih.2 hu) (fetch _)⟩
  | unfold content _ ih =>
    exact ⟨Leaving.course.trans ih.1 (Leaving.unfold content _), fun hu => by cases hu⟩

/-- All that the visual of one world has of its own is let go of in another one. -/
structure World.FreedIn (w b : World) : Prop where
  loading : b.visual.loading.isClosed = true
  cells (n : Nat) {id : Value} {cell : Cell Datum Value} : w.visual.cells[n]? = some (id, cell) →
    ∃ cell', b.visual.cells[n]? = some (id, cell') ∧ cell'.isClosed = true
  getters (n : Nat) {g : Getter} : w.visual.getters[n]? = some g →
    b.visual.getters[n]? = some { g with isDestroyed := true }
  setters (n : Nat) {s : Setter} : w.visual.setters[n]? = some s →
    b.visual.setters[n]? = some { s with isDestroyed := true }

/-- Destroying a visual lets go of all that it has at that time. -/
theorem World.isLive.freed (live : w.isLive) :
    (Step.destroy.after w).Released ∧ w.FreedIn (Step.destroy.after w) := by
  unfold Step.after Step.run Run.destroy
  rw [Run.after_get_bind, show w.visual.isDestroyed = false from live]
  have closed : ∀ cell : Cell Datum Value, cell.complete.isClosed = true :=
    fun cell => cell.complete_drains.2
  refine ⟨⟨w.visual.loading.complete_drains.2, fun e he => ?_, fun g hg => ?_, fun s hs => ?_⟩,
    w.visual.loading.complete_drains.2, fun n id cell h => ⟨cell.complete, ?_, closed cell⟩,
    fun n g h => ?_, fun n s h => ?_⟩
  · obtain ⟨⟨id, cell⟩, -, rfl⟩ := List.mem_map.mp he
    exact closed cell
  · obtain ⟨g, -, rfl⟩ := Array.mem_map.mp hg
    rfl
  · obtain ⟨s, -, rfl⟩ := Array.mem_map.mp hs
    rfl
  · exact List.getElem?_map.trans (by rw [h]; rfl)
  · exact Array.getElem?_map.trans (by rw [h]; rfl)
  · exact Array.getElem?_map.trans (by rw [h]; rfl)

/-- Once a visual has been destroyed, whatever it had set up by then is let go of and stays so, in
whatever order it is used, destroyed again and loaded. As long as it is not loaded from a document that
comes later, nothing that it has is in use any more. -/
theorem freed_for_good {unfolded : Bool} (live : w.isLive)
    (h : (Step.destroy.after w).Onward unfolded b) :
    w.FreedIn b ∧ (unfolded = false → b.Released) := by
  obtain ⟨released, freed⟩ := live.freed
  obtain ⟨leaving, resting⟩ := h.leaving
  obtain ⟨gone, leaves⟩ := leaving live.destroyed.1
  refine ⟨⟨gone.closed, fun n id cell hn => ?_, fun n g hg => leaves.getters n (freed.getters n hg),
    fun n s hs => leaves.setters n (freed.setters n hs)⟩, fun hu => ?_⟩
  · obtain ⟨cell', h', closed⟩ := freed.cells n hn
    exact leaves.cells n h' closed
  · obtain ⟨hc, hp⟩ := Prod.mk.inj (resting hu live.destroyed.1).2
    obtain ⟨hg, hs⟩ := Prod.mk.inj hp
    refine ⟨gone.closed, ?_, ?_, ?_⟩
    · rw [hc]
      exact released.cells
    · rw [hg]
      exact released.getters
    · rw [hs]
      exact released.setters

theorem World.Onward.steps {unfolded : Bool} (h : a.Onward unfolded b) (steps : List Step) :
    a.Onward unfolded (steps.foldl (fun w s => s.after w) b) := by
  induction steps generalizing b with
  | nil => exact h
  | cons s steps ih => exact ih (h.step s)

set_option maxRecDepth 100000 in
/-- It is so when the switch is destroyed while its value is being acquired and something is sent, and
is used and destroyed once more afterwards. -/
theorem freed_for_good_switch : ∃ w₁ w b : World, w₁.Placed ∧ w₁.Follows w ∧ w.isLive ∧
    (Step.destroy.after w).Onward false b ∧ w.visual.cells.length = 1 ∧ w.visual.getters.size = 1 ∧
      w.visual.setters.size = 1 ∧ w.FreedIn b ∧ b.Released := by
  obtain ⟨w₁, w, hp, hf, ht⟩ := World.Setup.leads_ok switchSetup
    [.call .null (.int 2) (.int 5) ⟨true, true, false⟩, .turn] (fun _ w =>
      !w.visual.isDestroyed && w.visual.cells.length == 1 && w.visual.getters.size == 1 &&
        w.visual.setters.size == 1) (by decide +kernel)
  simp only [Bool.and_eq_true, Bool.not_eq_true', beq_iff_eq] at ht
  obtain ⟨⟨⟨live, cells⟩, getters⟩, setters⟩ := ht
  have hb := World.Onward.refl (a := Step.destroy.after w) |>.steps
    [.turn, .set (.text "v") (.int 7), .destroy, .turn, .turn]
  obtain ⟨freed, released⟩ := freed_for_good live hb
  exact ⟨w₁, w, _, ⟨_, .setup switchSetup, hp⟩, hf, live, hb, cells, getters, setters, freed, released rfl⟩

/-- The visual is destroyed, and yet a cell, a getter and a setter of it are in use. -/
def World.isLeaking (w : World) : Bool :=
  w.visual.isDestroyed && w.visual.cells.any (!·.2.isClosed) &&
    w.visual.getters.any (!·.isDestroyed) && w.visual.setters.any (!·.isDestroyed)

theorem World.isLeaking.not_released (h : w.isLeaking = true) : ¬ w.Released := by
  unfold isLeaking at h
  simp only [Bool.and_eq_true] at h
  obtain ⟨⟨⟨-, cells⟩, -⟩, -⟩ := h
  intro r
  obtain ⟨e, he, unclosed⟩ := List.any_eq_true.mp cells
  rw [r.cells e he] at unclosed
  cases unclosed

set_option maxRecDepth 100000 in
/-- When the switch is destroyed before it is loaded, or while it waits for its document, and its
document comes all the same, what it sets up stays in use, and destroying it again changes nothing. -/
theorem unreleased_when_late :
    let early := (Run.start Run.play).after (Step.destroy.after (World.ofSetup switchSetup))
    (early.isLeaking = true ∧ ¬ early.Released) ∧
    ∃ content w, Run.fetchDocument (World.ofSetup switchSetup) = .ok content w ∧ w.isLive ∧
      let late := Step.destroy.after ((Run.unfold content).after (Step.destroy.after w))
      late.isLeaking = true ∧ ¬ late.Released := by
  have hearly : ((Run.start Run.play).after
      (Step.destroy.after (World.ofSetup switchSetup))).isLeaking = true := by decide +kernel
  refine ⟨⟨hearly, World.isLeaking.not_released hearly⟩, ?_⟩
  have h : (match Run.fetchDocument (World.ofSetup switchSetup) with
    | .ok content w => !w.visual.isDestroyed &&
      (Step.destroy.after ((Run.unfold content).after (Step.destroy.after w))).isLeaking
    | .error _ _ => false) = true := by decide +kernel
  cases hf : Run.fetchDocument (World.ofSetup switchSetup) with
  | error f w =>
    rw [hf] at h
    cases h
  | ok content w =>
    rw [hf] at h
    simp only [Bool.and_eq_true, Bool.not_eq_true'] at h
    exact ⟨content, w, rfl, h.1, h.2, World.isLeaking.not_released h.2⟩

end LiveSvg
