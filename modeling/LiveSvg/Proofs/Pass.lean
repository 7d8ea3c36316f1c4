import LiveSvg.Proofs.Loading
import LiveSvg.Proofs.Values
/-!
What a pass does. Under a condition on what comes to pass, a computation can be shown to succeed and
to lead from worlds of one kind to worlds of another; a pass is led through by its scripts, one after
the other.
-/

namespace LiveSvg

open Script (Act Datum)

variable {α β : Type} {P : Event → Prop} {I K : World → Prop} {play : Player}

/-- If all that comes to pass is of a kind, a computation succeeds where one thing holds, and another
holds of its result. -/
def Leads (P : Event → Prop) (I : World → Prop) (x : Run α) (J : α → World → Prop) : Prop :=
  ∀ w, ∃ new, (x.after w).past = new ++ w.past ∧
    ((∀ e ∈ new, P e) → I w → ∃ a w', x w = .ok a w' ∧ J a w')

namespace Leads

variable {x : Run α} {J : α → World → Prop}

theorem pure {a : α} (h : ∀ w, I w → J a w) : Leads P I (pure a : Run α) J :=
  fun w => ⟨[], rfl, fun _ i => ⟨a, w, rfl, h w i⟩⟩

theorem modify {g : World → World} {J : World → Prop} (hp : ∀ w, (g w).past = w.past)
    (h : ∀ w, I w → J (g w)) : Leads P I (modify g : Run Unit) fun _ => J :=
  fun w => ⟨[], hp w, fun _ i => ⟨(), g w, rfl, h w i⟩⟩

theorem record {deed : Deed} {J : World → Prop}
    (h : ∀ w, P ⟨deed, w.toSituation⟩ → I w → J ((Run.record deed).after w)) :
    Leads P I (Run.record deed) fun _ => J :=
  fun w => ⟨[⟨deed, w.toSituation⟩], rfl, fun p i => ⟨(), _, rfl, h w (p _ (by simp)) i⟩⟩

theorem attempt {x : Run α} (h : Along (Under P I) x) : Leads P I (Run.attempt x) fun _ => I := by
  intro w
  obtain ⟨r, hr⟩ := Run.attempt_after x w
  obtain ⟨new, hn, hk⟩ := h w
  refine ⟨new, by rw [Run.after_attempt]; exact hn, fun p i => ⟨r, _, hr, hk p i⟩⟩

/-- Where a computation is known to go on from, it is enough to look at that. -/
theorem of_ok (hl : Along Later x) (h : ∀ w, I w → ∃ a w', x w = .ok a w' ∧ J a w') :
    Leads P I x J := by
  intro w
  obtain ⟨new, hn⟩ := hl w
  exact ⟨new, hn, fun _ i => h w i⟩

theorem weaken (h : Leads P K x J) (k : ∀ w, I w → K w) : Leads P I x J := by
  intro w
  obtain ⟨new, hn, hk⟩ := h w
  exact ⟨new, hn, fun p i => hk p (k w i)⟩

/-- What is known beforehand can be used. -/
theorem known {c : Prop} (hl : Along Later x) (h : c → Leads P I x J) :
    Leads P (fun w => c ∧ I w) x J := by
  by_cases hc : c
  · exact (h hc).weaken fun _ i => i.2
  · exact of_ok hl fun _ i => absurd i.1 hc

theorem bind {g : α → Run β} {L : β → World → Prop} (hx : Leads P I x J)
    (hg : ∀ a, Leads P (J a) (g a) L) : Leads P I (x >>= g) L := by
  intro w
  obtain ⟨new, hn, hk⟩ := hx w
  cases hw : x w with
  | ok a w' =>
    rw [Run.after_ok hw] at hn
    obtain ⟨more, hm, hl⟩ := hg a w'
    refine ⟨more ++ new, by rw [Run.after_bind_ok hw, hm, hn, List.append_assoc], fun p i => ?_⟩
    obtain ⟨b, u, hb, j⟩ := hk (fun e he => p e (by simp [he])) i
    cases hw.symm.trans hb
    obtain ⟨c, u', hc, l⟩ := hl (fun e he => p e (by simp [he])) j
    exact ⟨c, u', by rw [Run.bind_ok hw]; exact hc, l⟩
  | error f w' =>
    rw [Run.after_error hw] at hn
    refine ⟨new, by rw [Run.after_bind_error hw]; exact hn, fun p i => ?_⟩
    obtain ⟨b, u, hb, -⟩ := hk p i
    cases hw.symm.trans hb

theorem get_bind {g : World → Run α} (hl : Along Later (get >>= g))
    (h : ∀ w₀, I w₀ → Leads P (· = w₀) (g w₀) J) : Leads P I (get >>= g) J := by
  intro w
  by_cases i : I w
  · obtain ⟨new, hn, hk⟩ := h w i w
    exact ⟨new, hn, fun p _ => hk p rfl⟩
  · obtain ⟨new, hn⟩ := hl w
    exact ⟨new, hn, fun _ j => absurd j i⟩

/-- What every item leads on, a list of them leads on from one to the next. -/
theorem forM {l : List β} {f : β → Run Unit} {g : β → List γ} {J : List γ → World → Prop}
    (h : ∀ b ∈ l, ∀ done, Leads P (J done) (f b) fun _ => J (done ++ g b)) (done : List γ) :
    Leads P (J done) (l.forM f) fun _ => J (done ++ l.flatMap g) := by
  induction l generalizing done with
  | nil => exact pure fun w j => by simpa using j
  | cons b l ih =>
    refine bind (h b (by simp) done) fun _ => ?_
    have k := ih (fun c hc => h c (by simp [hc])) (done ++ g b)
    rw [List.append_assoc] at k
    exact k

/-- What a computation leads to holds of what is left by it. -/
theorem under {x : Run α} {J : World → Prop} (h : Leads P I x fun _ => J) (w : World) :
    ∃ new, (x.after w).past = new ++ w.past ∧ ((∀ e ∈ new, P e) → I w → J (x.after w)) := by
  obtain ⟨new, hn, hk⟩ := h w
  refine ⟨new, hn, fun p i => ?_⟩
  obtain ⟨a, w', hw, j⟩ := hk p i
  rw [Run.after_ok hw]
  exact j

end Leads

/-! ### Passes -/

/-- The elements that carry a tag; none if the tag cannot be looked up. -/
def Drawing.carriers (d : Drawing) (tag : Value) : List Nat :=
  match d.findByValue tag with
  | .ok ids => ids
  | .error _ => []

/-- The elements that carry a tag are found in document order, each once. -/
theorem Drawing.carriers_sublist (d : Drawing) (tag : Value) :
    (d.carriers tag).Sublist (d.below.map (·.id)) := by
  have ht : (d.tagged.map (·.2)).Sublist (d.below.map (·.id)) := by
    unfold tagged
    generalize d.below = l
    induction l with
    | nil => exact .refl _
    | cons e l ih =>
      rw [List.filterMap_cons, List.map_cons]
      cases attrOf? e.head tagKey with
      | none => exact ih.cons _
      | some t => exact ih.cons_cons _
  have hf : ∀ f : String × Nat → Bool, ((d.tagged.filter f).map (·.2)).Sublist (d.below.map (·.id)) :=
    fun f => (List.filter_sublist.map _).trans ht
  unfold carriers
  cases hv : d.findByValue tag with
  | error f => exact List.nil_sublist _
  | ok ids =>
    dsimp only
    cases tag with
    | text s =>
      rw [findByValue] at hv
      split at hv
      · cases hv
        exact hf _
      · cases hv
    | bool b =>
      cases hv
      exact List.filter_sublist.map _
    | int n =>
      simp only [findByValue] at hv
      split at hv
      · cases hv
      · cases hv
        exact hf _
    | float x =>
      cases hv
      exact hf _
    | object ms => cases hv
    | null | list xs =>
      cases hv
      exact List.nil_sublist _

/-- Whether a tag can be looked up does not depend on the drawing. -/
theorem Drawing.findByValue_ok {d : Drawing} {tag : Value} {ids : List Nat}
    (h : d.findByValue tag = .ok ids) (d' : Drawing) :
    d'.findByValue tag = .ok (d'.carriers tag) := by
  unfold carriers
  cases tag with
  | text s =>
    rw [findByValue] at h ⊢
    split at h
    · rw [if_pos ‹_›]
    · cases h
  | int n =>
    simp only [findByValue] at h ⊢
    split at h
    · cases h
    · rw [if_neg ‹_›]
  | object ms => cases h
  | _ => rfl

/-- Whether an event leaves alone which elements carry the tags of the visual. -/
def Event.keepsTags (e : Event) : Prop :=
  ∀ d d', e.deed = .draw d' → e.before.drawing = some d →
    ∀ t ∈ e.before.visual.descriptor.tags, d'.findByValue t.name = d.findByValue t.name

theorem Event.keepsTags_of_isTame {e : Event} (h : e.deed.isTame) : e.keepsTags := by
  intro d d' hd
  rw [hd] at h
  cases h

/-- The scripts of a pass over a visual as it is now, in order: that of the whole, then for each tag
that of the tag on each element which carries it. -/
def Situation.pass (s : Situation) : List Launch :=
  match s.drawing with
  | some d => .root :: s.visual.descriptor.tags.flatMap fun t => (d.carriers t.name).map (.tag t.name)
  | none => []

/-- A pass over a visual: the programs, the tags, and the elements that carry each of them. -/
structure Pass where
  programs : Script.Programs
  tags : List Tag
  carriers : Tag → List Nat

namespace Pass

/-- The scripts of a pass, in order: that of the whole, then for each tag that of the tag on each
element. -/
def launches (p : Pass) : List Launch :=
  .root :: p.tags.flatMap fun t => (p.carriers t).map (.tag t.name)

/-- The pass that would be made now, and can be completed. -/
structure Stands (p : Pass) (s : Situation) : Prop where
  isReady : s.visual.isReady = true
  isLive : s.visual.isDestroyed = false
  programs : s.visual.programs = some p.programs
  tags : s.visual.descriptor.tags = p.tags
  renders : ∀ t ∈ p.tags, (p.programs.renders.get? t.name).isSome
  drawing : ∃ d, s.drawing = some d ∧ ∀ t ∈ p.tags, d.findByValue t.name = .ok (p.carriers t)

theorem Stands.alike {p : Pass} {s s' : Situation} (h : p.Stands s) (hv : s.visual.Alike s'.visual)
    (hd : s'.drawing = s.drawing) : p.Stands s' where
  isReady := hv.isReady.trans h.isReady
  isLive := hv.isDestroyed.trans h.isLive
  programs := hv.programs.trans h.programs
  tags := (congrArg Descriptor.tags hv.descriptor).trans h.tags
  renders := h.renders
  drawing := by rw [hd]; exact h.drawing

/-- A new drawing in which the same elements carry the tags. -/
theorem Stands.redraw {p : Pass} {s s' : Situation} {d : Drawing} (h : p.Stands s)
    (hv : s.visual.Alike s'.visual) (hd : s'.drawing = some d)
    (k : Event.keepsTags ⟨.draw d, s⟩) : p.Stands s' := by
  obtain ⟨d₀, hd₀, hf⟩ := h.drawing
  have h' : p.Stands { s with visual := s'.visual } := h.alike hv rfl
  refine { h' with drawing := ⟨d, hd, fun t ht => ?_⟩ }
  rw [k d₀ d rfl hd₀ t (by rw [h.tags]; exact ht)]
  exact hf t ht

theorem isRender (p : Pass) {l : Launch} (h : l ∈ p.launches) : l.isRender := by
  rcases List.mem_cons.mp h with rfl | h
  · rfl
  · obtain ⟨t, -, h⟩ := List.mem_flatMap.mp h
    obtain ⟨id, -, rfl⟩ := List.mem_map.mp h
    rfl

theorem Stands.pass_eq {p : Pass} {s : Situation} (h : p.Stands s) : s.pass = p.launches := by
  obtain ⟨d, hd, hf⟩ := h.drawing
  unfold Situation.pass launches
  rw [hd, h.tags]
  dsimp only
  rw [List.flatMap_def, List.flatMap_def, List.map_congr_left fun t ht => ?_]
  unfold Drawing.carriers
  rw [hf t ht]

/-- A visual in place that has been shown without a failure can be shown again. -/
theorem of_render {w w' : World} (h : Run.render play w = .ok () w') (live : w.isLive)
    (hd : w.drawing.isSome) (hp : w.visual.programs.isSome) (hr : w.visual.isReady = true) :
    ∃ p : Pass, p.Stands w.toSituation := by
  obtain ⟨d, hd⟩ := Option.isSome_iff_exists.mp hd
  obtain ⟨ps, hp⟩ := Option.isSome_iff_exists.mp hp
  unfold Run.render at h
  rw [Run.get_bind, hd, hp] at h
  dsimp only at h
  rw [hr, show w.visual.isDestroyed = false from live] at h
  obtain ⟨_, w₁, -, h⟩ := Run.bind_eq_ok.mp h
  obtain ⟨_, w₂, -, h⟩ := Run.bind_eq_ok.mp h
  have ht : ∀ t ∈ w.visual.descriptor.tags, (ps.renders.get? t.name).isSome ∧
      d.findByValue t.name = .ok (d.carriers t.name) := fun t ht => by
    obtain ⟨u, u', hu⟩ := Run.forM_eq_ok h ht
    unfold Run.renderTag at hu
    cases hg : ps.renders.get? t.name with
    | none => rw [hg] at hu; cases hu
    | some prog =>
      rw [hg] at hu
      obtain ⟨ids, u₁, hi, -⟩ := Run.bind_eq_ok.mp hu
      obtain ⟨d', u₂, -, hi⟩ := Run.bind_eq_ok.mp hi
      cases hf : d'.findByValue t.name with
      | error f => rw [hf] at hi; cases hi
      | ok found => exact ⟨rfl, Drawing.findByValue_ok hf d⟩
  refine ⟨⟨ps, w.visual.descriptor.tags, fun t => d.carriers t.name⟩, ?_⟩
  exact ⟨hr, live, hp, rfl, fun t h => (ht t h).1, d, hd, fun t h => (ht t h).2⟩

/-- Whatever happens to a visual that is not destroyed, a pass can be completed if one could before. -/
theorem standing_driven :
    Driven fun a b => (∃ p : Pass, p.Stands a.toSituation) → ∃ p : Pass, p.Stands b.toSituation := by
  have C : Calm fun a b =>
      (∃ p : Pass, p.Stands a.toSituation) → ∃ p : Pass, p.Stands b.toSituation :=
    { toCourse := Course.keeps fun w => ∃ p : Pass, p.Stands w.toSituation
      stir := fun {a b} h => by
        rintro ⟨p, hs⟩
        rcases h.past with ⟨-, hd⟩ | ⟨_, -, ⟨-, hd⟩ | ⟨d, -, hd⟩⟩
        · exact ⟨p, hs.alike h.alike hd⟩
        · exact ⟨p, hs.alike h.alike hd⟩
        · have h' : p.Stands { a.toSituation with visual := b.visual } := hs.alike h.alike rfl
          obtain ⟨d₀, -, hf⟩ := hs.drawing
          refine ⟨{ p with carriers := fun t => d.carriers t.name }, { h' with drawing := ⟨d, hd, ?_⟩ }⟩
          exact fun t ht => Drawing.findByValue_ok (hf t ht) d }
  exact C.driven (fun _ _ ⟨p, hs⟩ => ⟨p, { hs with }⟩) (fun _ _ => id) (fun _ _ _ => id) (fun _ _ _ _ => id)
    (fun r c w ⟨p, hs⟩ => ⟨p, hs.alike (by rw [Run.store_visual]; exact .rfl) (Run.store_drawing r c w)⟩)
    (fun _ ⟨p, hs⟩ => ⟨p, { hs with }⟩) (fun _ _ _ _ ⟨p, hs⟩ => ⟨p, { hs with }⟩)
    fun _ _ _ _ _ ⟨p, hs⟩ => ⟨p, { hs with }⟩

variable {p : Pass} {J : List Launch → World → Prop}

theorem findByTag_leads (hs : ∀ done w, J done w → p.Stands w.toSituation) {t : Tag} (ht : t ∈ p.tags)
    (done : List Launch) :
    Leads P (J done) (Run.findByTag t.name) fun ids w => ids = p.carriers t ∧ J done w := by
  refine .of_ok (later_driven.touches (Run.findByTag_touches _)) fun w j => ?_
  obtain ⟨d, hd, hf⟩ := (hs done w j).drawing
  refine ⟨p.carriers t, w, ?_, rfl, j⟩
  have hr : Run.drawing "xpath" w = .ok d w := by
    unfold Run.drawing
    rw [Run.get_bind, hd]
    rfl
  unfold Run.findByTag
  rw [Run.bind_ok hr, hf t ht]
  rfl

/-- If every script of a pass leads from what holds before it to what holds after it, the pass leads
from the first to the last. -/
theorem leads (hp : ∀ act, Along Later (play act)) (hs : ∀ done w, J done w → p.Stands w.toSituation)
    (hone : ∀ l ∈ p.launches, ∀ done prog target label,
      Leads P (J done) (Run.renderOne play l prog target label) fun _ => J (done ++ [l]))
    (hi : ∀ w, I w → p.Stands w.toSituation)
    (hr : ∀ w, I w → J [] { w with visual := { w.visual with renders := w.visual.renders + 1 } }) :
    Leads P I (Run.render play) fun _ => J p.launches := by
  have hl : ∀ l act, Along Later (Run.script play l act) :=
    fun _ => later_driven.toCalm.script (fun _ => ⟨[_], rfl⟩) (fun _ _ => ⟨[_], rfl⟩) hp
  have htag : ∀ t ∈ p.tags, ∀ done, Leads P (J done) (Run.renderTag play p.programs t)
      fun _ => J (done ++ (p.carriers t).map (.tag t.name)) := fun t ht done => by
    unfold Run.renderTag
    cases hg : p.programs.renders.get? t.name with
    | none =>
      refine .of_ok (later_driven.throw _) fun w j => ?_
      have := (hs done w j).renders t ht
      simp [hg] at this
    | some prog =>
      refine (findByTag_leads hs ht done).bind fun ids => .known ?_ ?_
      · exact later_driven.forM fun _ _ => later_driven.renderOne (hl _) _ _ _
      · rintro rfl
        have h := Leads.forM (P := P) (g := fun id => [Launch.tag t.name id])
          (f := fun id => Run.renderOne play (.tag t.name id) prog (World.element id) t.name.shown)
          (l := p.carriers t) (J := J) (fun id hid done => hone _ ?_ done _ _ _) done
        · rwa [← List.map_eq_flatMap] at h
        · exact List.mem_cons_of_mem _ (List.mem_flatMap.mpr ⟨t, ht, List.mem_map_of_mem hid⟩)
  have hbody : Leads P (J []) (do
      Run.renderOne play .root p.programs.root (.entity .scene) "state_render"
      p.tags.forM (Run.renderTag play p.programs)) fun _ => J p.launches :=
    (hone _ (by simp [launches]) [] _ _ _).bind fun _ =>
      Leads.forM (g := fun t => (p.carriers t).map (Launch.tag t.name)) htag [Launch.root]
  refine .get_bind (later_driven.render hp) fun w₀ i => ?_
  have h := hi w₀ i
  obtain ⟨d, hd, -⟩ := h.drawing
  rw [hd, h.programs]
  dsimp only
  rw [h.isReady, h.isLive, h.tags]
  refine .bind (J := fun _ => J []) (.modify (fun _ => rfl) ?_) fun _ => hbody
  rintro w rfl
  exact hr w i

end Pass

namespace World

variable {w₁ w : World}

/-- A visual put in place that is then shown without a failure can be shown again. -/
theorem Placed.standing (h₁ : w₁.Placed) (h : w₁.Follows w) (live : w.isLive) :
    ∃ p : Pass, p.Stands w₁.toSituation := by
  obtain ⟨w₀, -, h₀⟩ := h₁
  obtain ⟨hd, hp, hr⟩ := Run.place_stands h₀
  obtain ⟨w₂, h₂⟩ := h.presented
  obtain ⟨_, u, hu, -⟩ := Run.bind_eq_ok.mp h₂
  exact Pass.of_render hu ((live_driven.follows (fun _ _ => rfl) h live).symm.trans live) hd hp hr

theorem Follows.standing (h : w₁.Follows w) (h₁ : w₁.Placed) (live : w.isLive) :
    ∃ p : Pass, p.Stands w.toSituation :=
  Pass.standing_driven.follows (fun _ _ ⟨p, hs⟩ => ⟨p, { hs with }⟩) h live (h₁.standing h live)

end World

end LiveSvg
