import LiveSvg.Proofs.Steady
/-!
What holds of the worlds that follow a visual in place. Facts are carried from world to world under
a condition on what has come to pass in between.
-/

namespace LiveSvg

open Script (Contents Memory Ref)

variable {P : Event → Prop} {I : World → Prop} {R : World → World → Prop} {play : Player}

/-- The past of one world goes on in another. -/
def Later (a b : World) : Prop := ∃ new, b.past = new ++ a.past

theorem Later.course : Course Later where
  refl _ := ⟨[], rfl⟩
  trans := by
    rintro a b c ⟨new, hb⟩ ⟨more, hc⟩
    exact ⟨more ++ new, by rw [hc, hb, List.append_assoc]⟩

/-- The past of one world goes on in another, and what held of the one holds of the other if all
that has come to pass in between is of a kind. -/
def Under (P : Event → Prop) (I : World → Prop) (a b : World) : Prop :=
  ∃ new, b.past = new ++ a.past ∧ ((∀ e ∈ new, P e) → I a → I b)

theorem World.since_eq {w₁ w : World} {new : List Event} (h : w.past = new ++ w₁.past) :
    w.since w₁ = new := by
  simp [since, h]

namespace Under

theorem course (P : Event → Prop) (I : World → Prop) : Course (Under P I) where
  refl _ := ⟨[], rfl, fun _ h => h⟩
  trans := by
    rintro a b c ⟨new, hb, h⟩ ⟨more, hc, k⟩
    refine ⟨more ++ new, by rw [hc, hb, List.append_assoc], fun p i => ?_⟩
    exact k (fun e he => p e (by simp [he])) (h (fun e he => p e (by simp [he])) i)

theorem silent {a b : World} (h : b.past = a.past) (k : I a → I b) : Under P I a b :=
  ⟨[], h, fun _ => k⟩

theorem event {a b : World} {deed : Deed} (h : b.past = ⟨deed, a.toSituation⟩ :: a.past)
    (k : P ⟨deed, a.toSituation⟩ → I a → I b) : Under P I a b :=
  ⟨[⟨deed, a.toSituation⟩], h, fun p => k (p _ (by simp))⟩

theorem later {a b : World} (h : Under P I a b) : Later a b := by
  obtain ⟨new, hb, -⟩ := h
  exact ⟨new, hb⟩

/-- Where the past goes on in any case, only worlds of which the fact holds matter. -/
theorem of_later {a b : World} (h : Later a b) (k : I a → Under P I a b) : Under P I a b := by
  by_cases i : I a
  · exact k i
  · obtain ⟨new, hb⟩ := h
    exact ⟨new, hb, fun _ j => absurd j i⟩

/-- Where the past goes on from an event, only what follows from the event matters. -/
theorem of_event {a b : World} {e : Event} (h : ∃ new, b.past = new ++ e :: a.past)
    (k : P e → I a → Under P I a b) : Under P I a b := by
  by_cases p : P e ∧ I a
  · exact k p.1 p.2
  · obtain ⟨new, hb⟩ := h
    exact ⟨new ++ [e], by rw [hb, List.append_assoc]; rfl, fun q i => absurd ⟨q e (by simp), i⟩ p⟩

/-- It is enough to go on from a world further on, of which the fact holds. -/
theorem from_later {a b c : World} (h : Later a c) (i : I c) (k : Under P I c b) : Under P I a b := by
  obtain ⟨new, hc⟩ := h
  obtain ⟨more, hb, k⟩ := k
  exact ⟨more ++ new, by rw [hb, hc, List.append_assoc], fun p _ => k (fun e he => p e (by simp [he])) i⟩

theorem since {a b : World} (h : Under P I a b) (p : ∀ e ∈ b.since a, P e) (i : I a) : I b := by
  obtain ⟨new, hb, k⟩ := h
  rw [World.since_eq hb] at p
  exact k p i

end Under

namespace Run

theorem store_past (r : Ref) (c : Contents) (w : World) :
    ((store r c).after w).past = ⟨.store r c, w.toSituation⟩ :: w.past := by
  cases r <;> cases c <;> rfl

theorem store_visual (r : Ref) (c : Contents) (w : World) :
    ((store r c).after w).visual = w.visual := by
  cases r <;> cases c <;> rfl

theorem store_drawing (r : Ref) (c : Contents) (w : World) :
    ((store r c).after w).drawing = w.drawing := by
  cases r <;> cases c <;> rfl

theorem store_values {r : Ref} (h : r ≠ .values) (c : Contents) (w : World) :
    ((store r c).after w).values = w.values := by
  cases r with
  | values => exact absurd rfl h
  | _ => cases c <;> rfl

end Run

namespace Touch

theorem visual {a b : World} (h : Touch a b) : b.visual = a.visual := by cases h <;> rfl

theorem values {a b : World} (h : Touch a b) : b.values = a.values := by cases h <;> rfl

theorem memory {a b : World} (h : Touch a b) : a.memory.Grows b.memory := by
  cases h with
  | grow h => assumption
  | _ => exact Memory.grows_refl _

end Touch

namespace Beat

theorem visual {a b : World} (h : Beat a b) : b.visual = a.visual := by cases h <;> rfl

theorem values {a b : World} (h : Beat a b) : b.values = a.values := by cases h <;> rfl

theorem memory {a b : World} (h : Beat a b) : b.memory = a.memory := by cases h <;> rfl

end Beat

theorem Deed.isPlain_of_isHook {d : Deed} (h : d.isHook) : d.isPlain := by
  cases d <;> first | rfl | cases h

theorem Deed.isPlain_of_isTimely {d : Deed} (h : d.isTimely) : d.isPlain := by
  cases d <;> first | rfl | cases h

namespace Stir

theorem alike {a b : World} (h : Stir a b) : a.visual.Alike b.visual := by
  cases h with
  | touch h => rw [h.visual]; exact .rfl
  | beat h => rw [h.visual]; exact .rfl
  | visual h => exact h.toAlike
  | shape h => cases h <;> exact { Visual.Alike.rfl with }
  | _ => exact .rfl

theorem values {a b : World} (h : Stir a b) : b.values = a.values := by
  cases h with
  | touch h => exact h.values
  | beat h => exact h.values
  | shape h => cases h <;> rfl
  | _ => rfl

theorem memory {a b : World} (h : Stir a b) : a.memory.Grows b.memory := by
  cases h with
  | touch h => exact h.memory
  | beat h =>
    rw [h.memory]
    exact Memory.grows_refl _
  | shape h => cases h <;> exact Memory.grows_refl _
  | _ => exact Memory.grows_refl _

/-- Around scripts nothing comes to pass but plain deeds and new drawings. -/
theorem past {a b : World} (h : Stir a b) : (b.past = a.past ∧ b.drawing = a.drawing) ∨
    ∃ deed, b.past = ⟨deed, a.toSituation⟩ :: a.past ∧
      (deed.isPlain ∧ b.drawing = a.drawing ∨ ∃ d, deed = .draw d ∧ b.drawing = some d) := by
  cases h with
  | touch h =>
    cases h with
    | draw d => exact .inr ⟨_, rfl, .inr ⟨d, rfl, rfl⟩⟩
    | ask => exact .inr ⟨_, rfl, .inl ⟨rfl, rfl⟩⟩
    | listen _ h => exact .inr ⟨_, rfl, .inl ⟨Deed.isPlain_of_isHook h, rfl⟩⟩
    | _ => exact .inl ⟨rfl, rfl⟩
  | beat h =>
    cases h with
    | record h => exact .inr ⟨_, rfl, .inl ⟨Deed.isPlain_of_isTimely h, rfl⟩⟩
    | _ => exact .inl ⟨rfl, rfl⟩
  | record h => exact .inr ⟨_, rfl, .inl ⟨h, rfl⟩⟩
  | shape h => exact .inl (by cases h <;> exact ⟨rfl, rfl⟩)
  | _ => exact .inl ⟨rfl, rfl⟩

end Stir

end LiveSvg
