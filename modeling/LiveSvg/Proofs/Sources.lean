import LiveSvg.Proofs.Seeding
import LiveSvg.Proofs.Wiring
/-!
Which getter is whose. The behaviors that take values in have one getter each, in the order of their
declaration, and scripts see their values in this order.
-/

namespace LiveSvg

open Script (Datum Members)
open Descriptor (sameName)

variable {R : World → World → Prop} {w w' : World} {b : Behavior} {i : Nat}

def Behavior.isReceiver (b : Behavior) : Bool := b.valueId?.isSome

/-- The behaviors that take values in, in the order of their declaration. -/
def Descriptor.receivers (d : Descriptor) : List Behavior := d.behaviors.filter (·.isReceiver)

theorem Descriptor.valueIds_eq (bs : List Behavior) : bs.filterMap (·.valueId?) =
    (bs.filter (·.isReceiver)).map fun b => b.valueId?.getD .null := by
  induction bs with
  | nil => rfl
  | cons b bs ih =>
    cases h : b.valueId? with
    | none => rw [List.filterMap_cons_none h, List.filter_cons_of_neg (by simp [Behavior.isReceiver, h]), ih]
    | some id =>
      rw [List.filterMap_cons_some h, List.filter_cons_of_pos (by simp [Behavior.isReceiver, h]),
        List.map_cons, h, ih]
      rfl

theorem Descriptor.valueIds_getElem? {d : Descriptor} {id : Value} (hb : d.receivers[i]? = some b)
    (hi : b.valueId? = some id) : d.valueIds[i]? = some id := by
  change (d.behaviors.filterMap (·.valueId?))[i]? = _
  rw [valueIds_eq, List.getElem?_map, show (d.behaviors.filter (·.isReceiver))[i]? = some b from hb,
    Option.map_some, hi]
  rfl

theorem Descriptor.mem_receivers {d : Descriptor} (hb : b ∈ d.receivers) :
    b ∈ d.behaviors ∧ ∃ type default id t f st, b.kind = .value type default id t f st ∧
      b.valueId? = some id := by
  obtain ⟨hm, hr⟩ := List.mem_filter.mp hb
  refine ⟨hm, ?_⟩
  unfold Behavior.isReceiver at hr
  unfold Behavior.valueId? at hr ⊢
  cases hk : b.kind with
  | value type default id t f st => exact ⟨type, default, id, t, f, st, rfl, rfl⟩
  | _ => simp [hk] at hr

/-! ### Setting up -/

namespace Run

/-- Setting up behaviors one by one gives each one that takes a value in its getter. -/
theorem setUps_sourced {bs : List Behavior} (h : bs.forM setUp w = .ok () w') :
    w'.visual.getters.toList.map (·.behavior) =
      w.visual.getters.toList.map (·.behavior) ++ (bs.filter (·.isReceiver)).map (·.id) := by
  induction bs generalizing w with
  | nil =>
    cases h
    exact (List.append_nil _).symm
  | cons b bs ih =>
    obtain ⟨_, w₁, h₁, h⟩ := bind_eq_ok.mp h
    obtain ⟨-, hb⟩ := setUp_ok h₁
    rw [ih h]
    cases hi : b.valueId? with
    | none =>
      rw [hi] at hb
      rw [hb.2.2.2, List.filter_cons_of_neg (by simp [Behavior.isReceiver, hi])]
    | some id =>
      rw [hi] at hb
      obtain ⟨-, -, -, -, -, -, -, -, -, -, g, hg, hp⟩ := hb
      rw [hp, List.filter_cons_of_pos (by simp [Behavior.isReceiver, hi])]
      simp [hg]

/-- Setting up behaviors one by one adds their value ids, if these are new texts, to what scripts see. -/
theorem setUps_keyed {bs : List Behavior} (ht : AllTexts (bs.filterMap (·.valueId?)))
    (hn : (w.values.map (·.1) ++ (bs.filterMap (·.valueId?)).map Datum.ofName).Nodup)
    (h : bs.forM setUp w = .ok () w') :
    w'.values.map (·.1) = w.values.map (·.1) ++ (bs.filterMap (·.valueId?)).map .ofName := by
  induction bs generalizing w with
  | nil =>
    cases h
    exact (List.append_nil _).symm
  | cons b bs ih =>
    obtain ⟨_, w₁, h₁, h⟩ := bind_eq_ok.mp h
    obtain ⟨-, hb⟩ := setUp_ok h₁
    cases hi : b.valueId? with
    | none =>
      rw [hi] at hb
      rw [List.filterMap_cons_none hi] at ht hn ⊢
      rw [ih ht (by rw [hb.2.1]; exact hn) h, hb.2.1]
    | some id =>
      rw [hi] at hb
      rw [List.filterMap_cons_some hi] at ht hn ⊢
      obtain ⟨t, rfl⟩ := ht id List.mem_cons_self
      obtain ⟨key, a, d, -, hkey, -, -, -, hv, -⟩ := hb
      cases hkey
      rw [List.map_cons] at hn ⊢
      have hk : w₁.values.map (·.1) = w.values.map (·.1) ++ [.text t] := by
        rw [hv]
        exact Members.keys_set_new (fun k => (List.nodup_append.mp hn).2.2 _ k _ List.mem_cons_self rfl) _
      rw [ih (fun id k => ht id (List.mem_cons_of_mem _ k)) ?_ h, hk, List.append_assoc]
      · rfl
      · rw [hk, List.append_assoc]
        exact hn

end Run

namespace World

/-- Before a visual is loaded there is nothing to acquire and nothing to show. -/
structure Unloaded (w : World) : Prop where
  getters : w.visual.getters = #[]
  programs : w.visual.programs = none
  renders : w.visual.renders = 0

namespace Unloaded

theorem driven : Driven fun a b => a.Unloaded → b.Unloaded := by
  have C : Calm fun a b => a.Unloaded → b.Unloaded :=
    { toCourse := Course.keeps fun w => w.Unloaded
      stir := fun h k => ⟨h.alike.getters.trans k.getters, h.alike.programs.trans k.programs,
        h.alike.renders.trans k.renders⟩ }
  have hr : ∀ {play : Player}, Along (fun a b => a.Unloaded → b.Unloaded) (Run.render play) := by
    intro play w k
    unfold Run.render
    rw [Run.after_get_bind]
    split
    · rename_i hp
      cases k.programs.symm.trans hp
    · exact k
  have hs : ∀ {play : Player}, (∀ act, Along (fun a b => a.Unloaded → b.Unloaded) (play act)) →
      ∀ {l : Launch} act, Along (fun a b => a.Unloaded → b.Unloaded) (Run.script play l act) :=
    fun hp _ => C.script (fun _ k => ⟨k.getters, k.programs, k.renders⟩)
      (fun _ _ k => ⟨k.getters, k.programs, k.renders⟩) hp
  exact {
    toCalm := C
    store := fun r c w k => by
      have hv := Run.store_visual r c w
      exact ⟨by rw [hv]; exact k.getters, by rw [hv]; exact k.programs, by rw [hv]; exact k.renders⟩
    script := fun hp _ _ => hs hp
    acquire := fun _ _ _ _ k => ⟨k.getters, k.programs, k.renders⟩
    value := fun _ => C.setValue (fun _ _ _ _ _ k => ⟨k.getters, k.programs, k.renders⟩)
      (C.takeValue (fun _ _ _ _ k => ⟨k.getters, k.programs, k.renders⟩) hr)
    render := fun _ => hr
    aim := fun _ _ k => ⟨k.getters, k.programs, k.renders⟩ }

end Unloaded

theorem Waiting.unloaded (h : w.Waiting) (live : w.isLive) : w.Unloaded := by
  induction h with
  | setup s => exact ⟨rfl, rfl, rfl⟩
  | step s _ ih =>
    obtain ⟨live, hs⟩ := Step.live_before live
    have D := Unloaded.driven
    exact D.step hs (fun _ => D.turn D.steady.plays fun _ _ k => ⟨k.getters, k.programs, k.renders⟩) _
      (ih live)

/-- No getter is added, and nothing is shown. -/
def Unshown (a b : World) : Prop :=
  b.visual.getters = a.visual.getters ∧ b.visual.renders = a.visual.renders

theorem Unshown.calm : Calm Unshown where
  refl _ := ⟨rfl, rfl⟩
  trans h k := ⟨k.1.trans h.1, k.2.trans h.2⟩
  stir h := ⟨h.alike.getters, h.alike.renders⟩

theorem Unshown.adopting : Adopting Unshown where
  toGentle := Unshown.calm.toGentle
  known _ _ _ _ _ := ⟨rfl, rfl⟩
  adopt _ _ _ _ _ _ := ⟨rfl, rfl⟩
  clear _ := ⟨rfl, rfl⟩

end World

namespace Run

/-- When a visual is put in place, each behavior that takes a value in gets its getter, and nothing is
shown yet. -/
theorem place_sourced (hw : w.Unloaded) (h : place w = .ok () w') :
    w'.visual.getters.toList.map (·.behavior) = w'.visual.descriptor.receivers.map (·.id) ∧
      w'.visual.renders = 0 := by
  obtain ⟨w₁, hr, k, -, -, -, -, -, -, hu⟩ := place_ok h
  have hu' := hr World.Unshown.adopting
  have hs := setUps_sourced hu
  rw [hu'.1, hw.getters] at hs
  exact ⟨by rw [k.descriptor]; exact hs, by rw [k.renders, hu'.2]; exact hw.renders⟩

/-- Scripts get to see the values of a visual in the order of its value ids, if these are different
texts. -/
theorem place_keyed (h : place w = .ok () w') (ht : AllTexts w'.visual.descriptor.valueIds)
    (hn : w'.visual.descriptor.valueIds.Nodup) :
    w'.values.map (·.1) = w'.visual.descriptor.valueIds.map .ofName := by
  obtain ⟨w₁, -, k, hv, -, -, -, -, -, hu⟩ := place_ok h
  rw [k.descriptor] at ht hn ⊢
  have hk := setUps_keyed ht ?_ hu
  · rw [hk, hv]
    rfl
  · rw [hv]
    exact (List.nodup_map_iff_inj_on hn).mpr fun a ha b hb he => by
      obtain ⟨s, rfl⟩ := ht a ha
      obtain ⟨t, rfl⟩ := ht b hb
      cases he
      rfl

end Run

end LiveSvg
