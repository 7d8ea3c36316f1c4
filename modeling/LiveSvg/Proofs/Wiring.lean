import LiveSvg.Proofs.Balance
import LiveSvg.Proofs.Seeding
import Mathlib.Data.List.Pairwise
/-!
Which setter is whose. The behaviors that send values have one setter each, in the order of their
declaration.
-/

namespace LiveSvg

open Script (Datum)
open Descriptor (isName sameName)

/-- A key that is the same as a name is a name that is the same. -/
theorem Script.Datum.of_sameKey {a : Value} (ha : isName a) {d : Datum}
    (h : (Datum.ofName a).sameKey d = true) : ∃ v, isName v ∧ d = .ofName v ∧ sameName a v = true := by
  have hs : ∀ v, isName v → d = .ofName v → sameName a v = true := fun v hv hd => by
    subst hd
    cases a <;> cases v <;> simp_all [Datum.ofName, Datum.sameKey, Datum.numeric?, isName, sameName,
      Value.same, Value.sameNumber, Value.numeric?]
  cases d with
  | null => exact ⟨.null, rfl, rfl, hs .null rfl rfl⟩
  | bool b => exact ⟨.bool b, rfl, rfl, hs (.bool b) rfl rfl⟩
  | int n => exact ⟨.int n, rfl, rfl, hs (.int n) rfl rfl⟩
  | float x => exact ⟨.float x, rfl, rfl, hs (.float x) rfl rfl⟩
  | text t => exact ⟨.text t, rfl, rfl, hs (.text t) rfl rfl⟩
  | _ => cases a <;> cases h

/-- Keys that are the same as one and the same datum are the same name. -/
theorem Script.Datum.sameName_of_sameKey {a b : Value} (ha : isName a) (hb : isName b) {d : Datum}
    (h : (Datum.ofName a).sameKey d = true) (k : (Datum.ofName b).sameKey d = true) :
    sameName a b = true := by
  obtain ⟨v, hv, rfl, hav⟩ := of_sameKey ha h
  obtain ⟨u, hu, he, hbu⟩ := of_sameKey hb k
  obtain rfl : v = u := by
    cases v <;> cases u <;> simp_all [ofName, isName]
  exact Descriptor.sameName_trans hv hav (Descriptor.sameName_symm hv hbu)

def Behavior.isAction (b : Behavior) : Bool :=
  match b.kind with
  | .action .. => true
  | _ => false

/-- The behaviors that send values, in the order of their declaration. -/
def Descriptor.senders (d : Descriptor) : List Behavior := d.behaviors.filter (·.isAction)

theorem Descriptor.Distinct.eq {d : Descriptor} (h : d.Distinct) {b b' : Behavior}
    (hb : b ∈ d.behaviors) (hb' : b' ∈ d.behaviors) (hs : sameName b.id b'.id = true) : b = b' := by
  have hp : d.behaviors.Pairwise fun b b' => sameName b.id b'.id = false ∧ sameName b'.id b.id = false :=
    h.pairwise.imp_of_mem fun _ hb hn => ⟨Bool.eq_false_iff.mpr fun k =>
      Bool.eq_false_iff.mp hn (sameName_symm (h.names _ hb) k), hn⟩
  have : Std.Symm fun b b' : Behavior => sameName b.id b'.id = false ∧ sameName b'.id b.id = false :=
    ⟨fun _ _ k => ⟨k.2, k.1⟩⟩
  by_contra hne
  exact Bool.eq_false_iff.mp (hp.forall hb hb' hne).1 hs

/-- Each of some behaviors has a setter, with the behavior's own settings and under its own name. -/
structure Visual.Wires (v : Visual) (bs : List Behavior) : Prop where
  setters : List.Forall₂ (fun b s => ∃ a, v.settings.get? b.id = some (.dispatch a) ∧
    s.settings = { a with label := b.name }) bs v.setters.toList
  setterOf : ∀ n b, bs[n]? = some b → v.setterOf.get? b.id = some n

/-- A call goes to the setter of the behavior that it names, and to no other one. -/
theorem Situation.setterFor?_iff {s : Situation} (hd : s.visual.descriptor.Distinct)
    (hw : s.visual.Wires s.visual.descriptor.senders) {id : Datum} {n : Nat} :
    s.setterFor? id = some n ↔
      ∃ b, s.visual.descriptor.senders[n]? = some b ∧ (Datum.ofName b.id).sameKey id = true := by
  unfold setterFor?
  constructor
  · intro h
    cases hf : s.visual.descriptor.behaviors.find? fun b => (Datum.ofName b.id).sameKey id with
    | none => rw [hf] at h; cases h
    | some b =>
      rw [hf] at h
      dsimp only at h
      cases hk : b.kind with
      | action dataType constant function =>
        rw [hk] at h
        have hb : b ∈ s.visual.descriptor.senders :=
          List.mem_filter.mpr ⟨List.mem_of_find?_eq_some hf, by simp [Behavior.isAction, hk]⟩
        obtain ⟨m, hm⟩ := List.mem_iff_getElem?.mp hb
        obtain rfl : m = n := Option.some.inj ((hw.setterOf m b hm).symm.trans h)
        exact ⟨b, hm, by simpa using List.find?_some hf⟩
      | _ => rw [hk] at h; cases h
  · rintro ⟨b, hb, hk⟩
    obtain ⟨hm, ha⟩ := List.mem_filter.mp (List.mem_of_getElem? hb)
    obtain ⟨b', hf⟩ : ∃ b', (s.visual.descriptor.behaviors.find? fun b =>
        (Datum.ofName b.id).sameKey id) = some b' :=
      Option.isSome_iff_exists.mp (List.find?_isSome.mpr ⟨b, hm, hk⟩)
    have hb' := List.mem_of_find?_eq_some hf
    have hk' : (Datum.ofName b'.id).sameKey id = true := by simpa using List.find?_some hf
    obtain rfl : b' = b := hd.eq hb' hm
      (Datum.sameName_of_sameKey (hd.names b' hb') (hd.names b hm) hk' hk)
    rw [hf]
    cases hk : b'.kind with
    | action dataType constant function => simpa [hk] using hw.setterOf n b' hb
    | _ => simp [Behavior.isAction, hk] at ha

/-- No setter is added. -/
def World.SameSetters (a b : World) : Prop :=
  b.visual.setters = a.visual.setters ∧ b.visual.setterOf = a.visual.setterOf

theorem World.SameSetters.calm : Calm World.SameSetters where
  refl _ := ⟨rfl, rfl⟩
  trans h k := ⟨k.1.trans h.1, k.2.trans h.2⟩
  stir h := ⟨h.alike.setters, h.alike.setterOf⟩

theorem World.SameSetters.adopting : Adopting World.SameSetters where
  toGentle := SameSetters.calm.toGentle
  known _ _ _ _ _ := ⟨rfl, rfl⟩
  adopt _ _ _ _ _ _ := ⟨rfl, rfl⟩
  clear _ := ⟨rfl, rfl⟩

namespace Run

variable {w w' : World}

/-- What setting up a behavior does about setters. -/
theorem setUp_wired {b : Behavior} (h : setUp b w = .ok () w') :
    if b.isAction then ∃ a, w.visual.settings.get? b.id = some (.dispatch a) ∧
      w'.visual.setters = w.visual.setters.push { settings := { a with label := b.name } } ∧
        w'.visual.setterOf = w.visual.setterOf.set b.id w.visual.setters.size
    else w'.visual.setters = w.visual.setters ∧ w'.visual.setterOf = w.visual.setterOf := by
  have C := World.SameSetters.calm
  unfold setUp at h
  rw [get_bind] at h
  dsimp only at h
  unfold Behavior.isAction
  cases hk : b.kind with
  | value =>
    rw [hk] at h
    cases hs : w.visual.settings.get? b.id with
    | none => rw [hs] at h; cases h
    | some entry =>
      rw [hs] at h
      cases entry with
      | acquisition a =>
        refine Along.leads (C.bind (C.touches (load_touches _)) fun _ => C.bind (C.normalize _ _) fun _ =>
          C.bind (C.bind (C.ofExcept _) fun _ => ?_) fun _ => fun _ => ⟨rfl, rfl⟩) h
        exact C.bind (fun _ => ⟨rfl, rfl⟩) fun _ => C.bind (fun _ => ⟨rfl, rfl⟩) fun _ => fun _ => ⟨rfl, rfl⟩
      | _ => cases h
  | action =>
    rw [hk] at h
    cases hs : w.visual.settings.get? b.id with
    | none => rw [hs] at h; cases h
    | some entry =>
      rw [hs] at h
      cases entry with
      | dispatch a =>
        cases h
        exact ⟨a, rfl, rfl, rfl⟩
      | _ => cases h
  | widget =>
    rw [hk] at h
    cases h
    exact ⟨rfl, rfl⟩

/-- Setting up behaviors one by one gives each one that sends values its setter. -/
theorem setUps_wired (done : List Behavior) {todo : List Behavior}
    (hn : ∀ b ∈ done ++ todo, isName b.id)
    (hp : (done ++ todo).Pairwise fun b b' => sameName b'.id b.id = false)
    (h : w.visual.Wires (done.filter (·.isAction))) (hk : todo.forM setUp w = .ok () w') :
    w'.visual.Wires ((done ++ todo).filter (·.isAction)) := by
  induction todo generalizing w done with
  | nil =>
    cases hk
    simpa using h
  | cons b todo ih =>
    obtain ⟨_, w₁, h₁, hk⟩ := bind_eq_ok.mp hk
    have hs := ((setUp_kept b).leads h₁).settings
    have hb := setUp_wired h₁
    have hw : w₁.visual.Wires ((done ++ [b]).filter (·.isAction)) := by
      rw [List.filter_append]
      by_cases ha : b.isAction
      · rw [if_pos ha] at hb
        obtain ⟨a, hg, hset, hof⟩ := hb
        rw [List.filter_cons_of_pos ha, List.filter_nil]
        refine ⟨?_, fun n c hc => ?_⟩
        · rw [hset, Array.toList_push, hs]
          exact List.rel_append h.setters (.cons ⟨a, hg, rfl⟩ .nil)
        · rw [hof, Settings.Table.get?_set _ (hn b (by simp))]
          rcases Nat.lt_or_ge n (done.filter (·.isAction)).length with hl | hl
          · rw [List.getElem?_append_left hl] at hc
            have hm := List.mem_of_mem_filter (List.mem_of_getElem? hc)
            have hne : sameName b.id c.id = false :=
              (List.pairwise_append.mp hp).2.2 c hm b (by simp)
            rw [if_neg (by simp [hne])]
            exact h.setterOf n c hc
          · rw [List.getElem?_append_right hl, List.getElem?_singleton] at hc
            split at hc
            · rename_i hz
              obtain rfl := Option.some.inj hc
              have hle := h.setters.length_eq
              rw [if_pos (Descriptor.sameName_refl (hn b (by simp)))]
              simp only [Array.length_toList] at hle
              exact congrArg some (by omega)
            · cases hc
      · rw [if_neg ha] at hb
        rw [List.filter_cons_of_neg ha, List.filter_nil, List.append_nil]
        refine ⟨?_, fun n c hc => ?_⟩
        · rw [hs, hb.1]
          exact h.setters
        · rw [hb.2]
          exact h.setterOf n c hc
    have i := ih (done ++ [b]) (by simpa using hn) (by simpa using hp) hw hk
    rwa [List.append_assoc] at i

/-- When a visual is put in place, each behavior that sends values gets its setter. -/
theorem place_wired (hs : w.visual.setters = #[]) (h : place w = .ok () w') :
    w'.visual.descriptor.Distinct ∧ w'.visual.Wires w'.visual.descriptor.senders := by
  obtain ⟨w₁, hr, k, -, -, -, -, hd, -, hu⟩ := place_ok h
  have hw := hr World.SameSetters.adopting
  have h0 : w₁.visual.Wires [] := by
    refine ⟨?_, fun n c hc => by simp at hc⟩
    rw [hw.1, hs]
    exact .nil
  rw [k.descriptor]
  exact ⟨hd, setUps_wired [] hd.names hd.pairwise h0 hu⟩

end Run

end LiveSvg
