import LiveSvg.World.Step
/-!
What happens in a world goes along a relation when the relation leads from every world to what is
left of it, whether there is a failure or not. Relations that can be composed are gone along by a
computation when its parts go along them.
-/

namespace LiveSvg

variable {α β : Type} {R S : World → World → Prop} {w : World}

/-- A computation leads every world along a relation. -/
def Along (R : World → World → Prop) (x : Run α) : Prop := ∀ w, R w (x.after w)

/-- A relation that holds of a world and itself, and from one world to a third one by a second. -/
structure Course (R : World → World → Prop) : Prop where
  refl (w : World) : R w w
  trans {a b c : World} : R a b → R b c → R a c

namespace Run

theorem after_eq (x : Run α) (w : World) : x.after w = match x w with
    | .ok _ w => w
    | .error _ w => w := rfl

theorem after_ok {x : Run α} {a : α} {w' : World} (h : x w = .ok a w') : x.after w = w' := by
  rw [after_eq, h]

theorem after_error {x : Run α} {f : Failure} {w' : World} (h : x w = .error f w') :
    x.after w = w' := by
  rw [after_eq, h]

theorem bind_ok {x : Run α} {g : α → Run β} {a : α} {w' : World} (h : x w = .ok a w') :
    (x >>= g) w = g a w' := by
  change EStateM.bind x g w = _
  simp [EStateM.bind, h]

theorem bind_error {x : Run α} {g : α → Run β} {f : Failure} {w' : World} (h : x w = .error f w') :
    (x >>= g) w = .error f w' := by
  change EStateM.bind x g w = _
  simp [EStateM.bind, h]

theorem after_bind_ok {x : Run α} {g : α → Run β} {a : α} {w' : World} (h : x w = .ok a w') :
    (x >>= g).after w = (g a).after w' := by
  rw [after_eq, bind_ok h, after_eq]

theorem after_bind_error {x : Run α} {g : α → Run β} {f : Failure} {w' : World}
    (h : x w = .error f w') : (x >>= g).after w = w' :=
  after_error (bind_error h)

theorem after_bind_pure (x : Run α) (g : α → β) (w : World) :
    (x >>= fun a => pure (g a)).after w = x.after w := by
  cases h : x w with
  | ok a w' => rw [after_bind_ok h, after_ok h]; rfl
  | error f w' => rw [after_bind_error h, after_error h]

theorem after_map (g : α → β) (x : Run α) (w : World) : (g <$> x).after w = x.after w := by
  change Run.after (EStateM.map g x) w = _
  rw [after_eq, after_eq]
  cases h : x w <;> simp only [EStateM.map, h]

theorem get_bind (g : World → Run α) (w : World) : ((get : Run World) >>= g) w = g w w := rfl

/-! ### What single operations leave -/

@[simp] theorem after_pure (a : α) (w : World) : (pure a : Run α).after w = w := rfl

@[simp] theorem after_throw (f : Failure) (w : World) : (throw f : Run α).after w = w := rfl

@[simp] theorem after_modify (g : World → World) (w : World) : (modify g : Run Unit).after w = g w := rfl

@[simp] theorem after_pure_bind (a : α) (g : α → Run β) (w : World) :
    ((pure a : Run α) >>= g).after w = (g a).after w := rfl

@[simp] theorem after_throw_bind (f : Failure) (g : α → Run β) (w : World) :
    ((throw f : Run α) >>= g).after w = w := rfl

@[simp] theorem after_get_bind (g : World → Run α) (w : World) :
    ((get : Run World) >>= g).after w = (g w).after w := rfl

@[simp] theorem after_modify_bind (f : World → World) (g : Unit → Run α) (w : World) :
    ((modify f : Run Unit) >>= g).after w = (g ()).after (f w) := rfl

@[simp] theorem after_record_bind (deed : Deed) (g : Unit → Run α) (w : World) :
    (record deed >>= g).after w =
      (g ()).after { w with past := ⟨deed, w.toSituation⟩ :: w.past } := rfl

@[simp] theorem after_modifyVisual_bind (f : Visual → Visual) (g : Unit → Run α) (w : World) :
    (modifyVisual f >>= g).after w = (g ()).after { w with visual := f w.visual } := rfl

@[simp] theorem after_ofExcept_ok_bind (a : α) (g : α → Run β) (w : World) :
    (ofExcept (.ok a) >>= g).after w = (g a).after w := rfl

@[simp] theorem after_ofExcept_error_bind (f : Failure) (g : α → Run β) (w : World) :
    (ofExcept (.error f) >>= g).after w = w := rfl

theorem after_ite {c : Prop} [Decidable c] (x y : Run α) (w : World) :
    (if c then x else y).after w = if c then x.after w else y.after w := by
  split <;> rfl

/-! ### Sequences -/

/-- What a sequence succeeds with is what its parts succeed with, one after the other. -/
theorem bind_eq_ok {x : Run α} {g : α → Run β} {b : β} {w' : World} :
    (x >>= g) w = .ok b w' ↔ ∃ a w₁, x w = .ok a w₁ ∧ g a w₁ = .ok b w' := by
  cases h : x w with
  | ok a w₁ =>
    rw [bind_ok h]
    constructor
    · exact fun k => ⟨a, w₁, rfl, k⟩
    · rintro ⟨_, _, ⟨⟩, k⟩
      exact k
  | error f w₁ => simp [bind_error h]

/-- Where a list of things has been done, each of them has been. -/
theorem forM_eq_ok {l : List β} {f : β → Run Unit} {w' : World} (h : l.forM f w = .ok () w') {b : β}
    (hb : b ∈ l) : ∃ u u', f b u = .ok () u' := by
  induction l generalizing w with
  | nil => cases hb
  | cons c l ih =>
    obtain ⟨_, w₁, h₁, h⟩ := bind_eq_ok.mp h
    rcases List.mem_cons.mp hb with rfl | hb
    · exact ⟨_, _, h₁⟩
    · exact ih h hb

theorem attempt_ok {x : Run α} {a : α} {w' : World} (h : x w = .ok a w') :
    attempt x w = .ok (.ok a) w' := by
  have hx : EStateM.bind x (fun a => EStateM.pure (.ok a : Except Failure α)) w = .ok (.ok a) w' := by
    simp only [EStateM.bind, EStateM.pure, h]
  change EStateM.tryCatch (EStateM.bind x fun a => EStateM.pure (Except.ok a)) _ w = _
  delta EStateM.tryCatch
  rw [hx]

theorem attempt_error {x : Run α} {f : Failure} {w' : World} (h : x w = .error f w') :
    attempt x w = .ok (.error f) w' := by
  have hx : EStateM.bind x (fun a => EStateM.pure (.ok a : Except Failure α)) w = .error f w' := by
    simp only [EStateM.bind, h]
  change EStateM.tryCatch (EStateM.bind x fun a => EStateM.pure (Except.ok a)) _ w = _
  delta EStateM.tryCatch
  rw [hx]
  rfl

theorem attempt_after (x : Run α) (w : World) : ∃ r, attempt x w = .ok r (x.after w) := by
  cases h : x w with
  | ok a w' => exact ⟨.ok a, by rw [after_ok h, attempt_ok h]⟩
  | error f w' => exact ⟨.error f, by rw [after_error h, attempt_error h]⟩

@[simp] theorem after_attempt (x : Run α) (w : World) : (attempt x).after w = x.after w := by
  obtain ⟨r, h⟩ := attempt_after x w
  exact after_ok h

theorem attempt_discard (x : Run α) (w : World) : discard (attempt x) w = .ok () (x.after w) := by
  obtain ⟨r, h⟩ := attempt_after x w
  change EStateM.map _ (attempt x) w = _
  simp only [EStateM.map, h]

/-- A script always comes to an end, with a result or with a failure. -/
theorem script_ok (play : Player) (l : Launch) (act : Script.Act Script.Datum) (w : World) :
    ∃ r, script play l act w =
      .ok r ((record (.finish l r)).after ((play act).after ((record (.start l)).after w))) := by
  obtain ⟨r, hr⟩ := attempt_after (play act) ((record (.start l)).after w)
  have hs : record (.start l) w = .ok () ((record (.start l)).after w) := rfl
  refine ⟨r, ?_⟩
  unfold script
  rw [bind_ok hs, bind_ok hr]
  rfl

end Run

namespace Along

theorem mono {x : Run α} (hx : Along R x) (h : ∀ {a b : World}, R a b → S a b) : Along S x :=
  fun w => h (hx w)

theorem leads {x : Run α} (hx : Along R x) {a : α} {w' : World} (h : x w = .ok a w') : R w w' := by
  rw [← Run.after_ok h]
  exact hx w

theorem map {x : Run α} (hx : Along R x) (g : α → β) : Along R (g <$> x) := by
  intro w
  rw [Run.after_map]
  exact hx w

theorem discard {x : Run α} (hx : Along R x) : Along R (discard x) := hx.map _

theorem attempt {x : Run α} (hx : Along R x) : Along R (Run.attempt x) := by
  intro w
  rw [Run.after_attempt]
  exact hx w

theorem ite {c : Prop} [Decidable c] {x y : Run α} (hx : Along R x) (hy : Along R y) :
    Along R (if c then x else y) := by
  split
  · exact hx
  · exact hy

theorem modify {g : World → World} (hg : ∀ w, R w (g w)) : Along R (modify g : Run Unit) := hg

theorem modifyGet {g : World → α × World} (hg : ∀ w, R w (g w).2) :
    Along R (modifyGet g : Run α) := hg

end Along

namespace Course

variable (C : Course R)
include C

theorem pure (a : α) : Along R (pure a : Run α) := fun w => C.refl w

theorem throw (f : Failure) : Along R (throw f : Run α) := fun w => C.refl w

theorem get : Along R (get : Run World) := fun w => C.refl w

theorem ofExcept (x : Except Failure α) : Along R (Run.ofExcept x) := by
  cases x with
  | ok a => exact C.pure a
  | error f => exact C.throw f

theorem seq {x : Run α} {g : α → Run β} (hx : R w (x.after w))
    (hg : ∀ a w', x w = .ok a w' → R w' ((g a).after w')) : R w ((x >>= g).after w) := by
  cases hw : x w with
  | ok a w' =>
    rw [Run.after_ok hw] at hx
    rw [Run.after_bind_ok hw]
    exact C.trans hx (hg a w' hw)
  | error f w' =>
    rw [Run.after_error hw] at hx
    rwa [Run.after_bind_error hw]

theorem bind {x : Run α} {g : α → Run β} (hx : Along R x) (hg : ∀ a, Along R (g a)) :
    Along R (x >>= g) :=
  fun w => C.seq (hx w) fun a w' _ => hg a w'

theorem forM {l : List β} {g : β → Run Unit} (hg : ∀ b ∈ l, Along R (g b)) :
    Along R (l.forM g) := by
  induction l with
  | nil => exact C.pure ()
  | cons b l ih =>
    exact C.bind (hg b (by simp)) fun _ => ih fun c hc => hg c (by simp [hc])

theorem mapM {l : List β} {g : β → Run α} (hg : ∀ b ∈ l, Along R (g b)) :
    Along R (l.mapM g) := by
  induction l with
  | nil => rw [List.mapM_nil]; exact C.pure []
  | cons b l ih =>
    rw [List.mapM_cons]
    refine C.bind (hg b (by simp)) fun a => ?_
    exact C.bind (ih fun c hc => hg c (by simp [hc])) fun as => C.pure (a :: as)

end Course

/-- Worlds that a relation has led to from worlds of a kind are of that kind as well. -/
theorem Course.keeps (P : World → Prop) : Course fun a b => P a → P b where
  refl _ h := h
  trans h k p := k (h p)

end LiveSvg
