import LiveSvg.Proofs.Actions
import LiveSvg.Proofs.Agreement
import LiveSvg.Proofs.Loading
import LiveSvg.Proofs.Placement
import LiveSvg.Proofs.Reports
import LiveSvg.Proofs.Styling
/-!
Which elements listen for what once a visual has been put in place: those that carry the tag of an action,
each by one listener, and no others. As long as scripts leave the listeners alone it stays so, and an event
runs the one action that it is meant for.
-/

namespace LiveSvg

open Script (Datum Members Program Programs)

variable {w w' : World} {d d' : Drawing} {id id' : Nat} {k : Datum}

/-! ### Listeners -/

/-- What listens on an element for a trigger, in the order in which it is told of events. -/
def Situation.heard (s : Situation) (id : Nat) (trigger : Datum) : List Datum :=
  (Members.get? (((s.listeners.find? (·.1 == id)).map (·.2)).getD []) trigger).getD []

/-- The world in which one more listens on an element for a trigger. -/
def World.listening (w : World) (id : Nat) (t : String) (handler : Datum) : World :=
  let all := ((w.listeners.find? (·.1 == id)).map (·.2)).getD []
  { w with
    past := ⟨.listen id (.text t) handler, w.toSituation⟩ :: w.past
    listeners := (id, Members.set all (.text t) (w.heard id (.text t) ++ [handler])) ::
      w.listeners.filter (·.1 != id) }

theorem Situation.heard_of_nil {s : Situation} (h : s.listeners = []) (id : Nat) (k : Datum) : s.heard id k = [] := by
  unfold heard
  rw [h]
  rfl

theorem Run.listen_eq (id : Nat) (t : String) (handler : Datum) (w : World) :
    listen id (.text t) handler w = .ok () (w.listening id t handler) := rfl

theorem World.heard_listening (w : World) (id : Nat) (t : String) (handler : Datum) (id' : Nat) (k : Datum) :
    (w.listening id t handler).heard id' k =
      w.heard id' k ++ if id' = id ∧ (Datum.text t).sameKey k then [handler] else [] := by
  unfold listening Situation.heard
  dsimp only
  rw [List.find?_cons]
  by_cases hi : id = id'
  · subst hi
    rw [beq_self_eq_true]
    dsimp only [Option.map_some, Option.getD_some]
    rw [Members.get?_set]
    by_cases hk : (Datum.text t).sameKey k
    · obtain rfl := Datum.sameKey_text.mp hk
      rw [if_pos hk, if_pos ⟨rfl, hk⟩]
      rfl
    · rw [if_neg hk, if_neg fun h => hk h.2, List.append_nil]
  · have hne : (id == id') = false := beq_eq_false_iff_ne.mpr hi
    have hrest : (w.listeners.filter (·.1 != id)).find? (·.1 == id') = w.listeners.find? (·.1 == id') := by
      rw [List.find?_filter]
      refine congrArg (List.find? · w.listeners) (funext fun e => ?_)
      by_cases he : e.1 = id'
      · simp [he, Ne.symm hi]
      · simp [he]
    rw [hne, if_neg fun h => hi h.1.symm, List.append_nil]
    exact congrArg (fun o => (Members.get? (Option.getD (Option.map _ o) []) k).getD []) hrest

/-! ### Cursors -/

namespace Drawing

/-- The key of the attribute that says what the mouse looks like over an element. -/
def cursorKey : Key := ⟨none, "cursor"⟩

/-- A drawing in which some elements of another one show that they can be clicked; nothing else differs. -/
structure Pointing (ids : List Nat) (d d' : Drawing) : Prop where
  tagged : d'.tagged = d.tagged
  valueOf? : ∀ id key, d'.valueOf? id key = if key = cursorKey ∧ id ∈ ids then some "pointer" else d.valueOf? id key

theorem Pointing.refl (d : Drawing) : Pointing [] d d :=
  ⟨rfl, fun id key => by rw [if_neg fun h => List.not_mem_nil h.2]⟩

theorem Pointing.trans {ids ids' : List Nat} {d'' : Drawing} (h : Pointing ids d d') (h' : Pointing ids' d' d'') :
    Pointing (ids ++ ids') d d'' := by
  refine ⟨h'.tagged.trans h.tagged, fun id key => ?_⟩
  rw [h'.valueOf?, h.valueOf?]
  by_cases hk : key = cursorKey <;> by_cases hi : id ∈ ids <;> by_cases hi' : id ∈ ids' <;> simp [hk, hi, hi']

theorem Pointing.congr {ids ids' : List Nat} (h : Pointing ids d d') (he : ∀ id, id ∈ ids ↔ id ∈ ids') :
    Pointing ids' d d' :=
  ⟨h.tagged, fun id key => by rw [h.valueOf?]; simp only [he]⟩

/-- Setting the cursor of an element that is there changes nothing else. -/
theorem pointing_of_setAttr (hid : (d.element? id).isSome) (h : d.setAttr id "cursor" (some "pointer") = .ok d') :
    Pointing [id] d d' := by
  unfold setAttr at h
  rw [Key.ofName_cursor] at h
  obtain ⟨g, generated, hg, rfl⟩ := put_ok (show d.put id cursorKey "pointer" = .ok d' from h)
  have htag : ∀ h, attrOf? (g h) tagKey = attrOf? h tagKey := fun h => by
    rw [hg, if_neg (by decide)]
  refine ⟨tagged_retag htag d, fun id' key => ?_⟩
  change (d.retag id g).valueOf? id' key = _
  rw [valueOf?_retag, valueOf?_eq]
  by_cases hi : id' = id
  · obtain ⟨e, he⟩ := Option.isSome_iff_exists.mp hid
    rw [hi, he]
    simp [hg]
  · simp [Markup.retagged_of_ne hi, hi]

end Drawing

/-! ### Wires -/

/-- The action of a tag on a trigger. -/
structure Wire where
  tag : String
  trigger : String
  program : Program

namespace Wire

def handler (l : Wire) : Handler := ⟨l.program, l.tag ++ "." ++ l.trigger⟩

/-- Whether an element is to tell an action of a trigger. -/
def reaches (l : Wire) (d : Drawing) (id : Nat) (k : Datum) : Bool :=
  d.tagged.contains (l.tag, id) && (Datum.text l.trigger).sameKey k

theorem reaches_iff {l : Wire} : l.reaches d id k = true ↔ (l.tag, id) ∈ d.tagged ∧ k = .text l.trigger := by
  rw [reaches, Bool.and_eq_true, List.contains_iff_mem, Datum.sameKey_text]

end Wire

/-- A world in which the elements of a drawing have been told of some actions, one after another, which are its
handlers from a number on. -/
structure World.Wired (w : World) (d : Drawing) (first : Nat) (wires : List Wire) : Prop where
  size : w.handlers.size = first + wires.length
  handlers : ∀ (i : Nat) l, wires[i]? = some l → w.handlers[first + i]? = some l.handler
  heard : ∀ id k, w.heard id k = ((wires.zipIdx first).filter fun l => l.1.reaches d id k).map fun l => .entity (.handler l.2)
  drawing : ∃ d', w.drawing = some d' ∧ d.Pointing (wires.flatMap fun l => d.findByTag l.tag) d'

namespace Run

theorem setAttr_text_eq (id : Nat) (name value : String) (hw : w.drawing = some d) :
    setAttr id (.text name) (.text value) w = drawn w (d.setAttr id name (some value)) := by
  unfold setAttr
  rw [bind_ok (drawing_eq _ hw)]
  change (ofExcept (d.setAttr id name (some value)) >>= setDrawing) w = _
  cases d.setAttr id name (some value) <;> rfl

/-- What one action makes of a world in which its elements are told of it. -/
structure Joined (d : Drawing) (ids : List Nat) (t : String) (handler : Datum) (w w' : World) : Prop where
  visual : w'.visual = w.visual
  handlers : w'.handlers = w.handlers
  heard : ∀ id k, w'.heard id k = w.heard id k ++ if id ∈ ids ∧ (Datum.text t).sameKey k then [handler] else []
  drawing : ∃ d', w'.drawing = some d' ∧ d.Pointing ids d'

theorem join_ok {ids : List Nat} {t : String} (handler : Datum) (hn : ids.Nodup)
    (hids : ∀ id ∈ ids, ∃ tag, (tag, id) ∈ d.tagged) (hw : w.drawing = some d)
    (h : (ids.forM fun id => do
      setAttr id (.text "cursor") (.text "pointer")
      listen id (.text t) handler) w = .ok () w') : Joined d ids t handler w w' := by
  induction ids generalizing w d with
  | nil =>
    cases h
    exact ⟨rfl, rfl, fun id k => by simp, d, hw, .refl d⟩
  | cons id ids ih =>
    obtain ⟨hnid, hrest⟩ := List.nodup_cons.mp hn
    obtain ⟨_, w₁, h₁, h⟩ := bind_eq_ok.mp h
    obtain ⟨_, w₂, h₂, h₁⟩ := bind_eq_ok.mp h₁
    rw [setAttr_text_eq _ _ _ hw] at h₂
    obtain ⟨d₁, hd, rfl⟩ := drawn_eq_ok h₂
    rw [listen_eq] at h₁
    cases h₁
    obtain ⟨tag, htag⟩ := hids id List.mem_cons_self
    obtain ⟨e, he, rfl, -⟩ := Drawing.mem_tagged.mp htag
    have hp := Drawing.pointing_of_setAttr (Drawing.element?_isSome_of_mem_below he) hd
    obtain ⟨hv, hh, hheard, d', hd', hp'⟩ := ih (d := d₁) hrest
      (fun id hid => by rw [hp.tagged]; exact hids id (List.mem_cons_of_mem _ hid)) rfl h
    refine ⟨hv, hh, fun id' k => ?_, d', hd', hp.trans hp'⟩
    rw [hheard, World.heard_listening, List.append_assoc]
    change w.heard id' k ++ _ = _
    refine congrArg (w.heard id' k ++ ·) ?_
    by_cases hi : id' = e.id
    · subst hi
      simp [hnid]
    · simp [hi]

/-- One more action is a handler of its own, and is told of by the elements of its tag. -/
theorem wire_ok {first : Nat} {wires : List Wire} {tag t : String} {program : Program} (apart : d.Apart)
    (hw : w.Wired d first wires) (h : wire (.text tag) (d.findByTag tag) t program w = .ok () w') :
    w'.Wired d first (wires ++ [⟨tag, t, program⟩]) ∧ w'.visual = w.visual := by
  obtain ⟨hsize, hhandlers, hheard, d₁, hd₁, hp⟩ := hw
  have hids : ∀ id ∈ d.findByTag tag, ∃ tag, (tag, id) ∈ d₁.tagged := fun id hid =>
    ⟨tag, by rw [hp.tagged]; exact Drawing.mem_findByTag.mp hid⟩
  obtain ⟨hv, hh, heard, d', hd', hp'⟩ := join_ok
    (w := { w with handlers := w.handlers.push (Wire.handler ⟨tag, t, program⟩) })
    (.entity (.handler w.handlers.size)) (apart.nodup_findByTag tag) hids hd₁ h
  dsimp only at hv hh heard
  refine ⟨⟨?_, fun i l hl => ?_, fun id k => ?_, d', hd', ?_⟩, hv⟩
  · rw [hh, Array.size_push, hsize, List.length_append]
    rfl
  · rw [hh]
    rcases Nat.lt_or_ge i wires.length with hi | hi
    · rw [List.getElem?_append_left hi] at hl
      rw [Array.getElem?_push, if_neg (by omega)]
      exact hhandlers i l hl
    · rw [List.getElem?_append_right hi] at hl
      obtain ⟨hz, rfl⟩ : i - wires.length = 0 ∧ l = ⟨tag, t, program⟩ := by
        rw [List.getElem?_singleton] at hl
        split at hl
        · next hz => exact ⟨hz, (Option.some.inj hl).symm⟩
        · cases hl
      rw [show first + i = w.handlers.size by omega, Array.getElem?_push_size]
  · rw [heard]
    change w.heard id k ++ _ = _
    rw [hheard, List.zipIdx_append, List.filter_append, List.map_append]
    refine congrArg (_ ++ ·) ?_
    have hreach : (⟨tag, t, program⟩ : Wire).reaches d id k = true ↔
        id ∈ d.findByTag tag ∧ (Datum.text t).sameKey k := by
      rw [Wire.reaches_iff, Drawing.mem_findByTag, Datum.sameKey_text]
    by_cases hr : (⟨tag, t, program⟩ : Wire).reaches d id k = true
    · rw [if_pos (hreach.mp hr)]
      simp [hr, hsize]
    · rw [if_neg fun h => hr (hreach.mpr h)]
      simp [hr]
  · rw [List.flatMap_append]
    refine hp.trans ?_
    simpa using hp'

end Run

/-- The actions of a tag that becomes wires. -/
def Script.Programs.wires (ps : Programs) (t : Tag) : List Wire :=
  match t.actions with
  | none => []
  | some [] => []
  | some _ => ((ps.actions.get? t.name).getD []).map fun (trigger, program) => ⟨t.name.shown, trigger, program⟩

namespace Run

theorem wires_ok {first : Nat} {wires : List Wire} {tag : String} {actions : List (String × Program)}
    (apart : d.Apart) (hw : w.Wired d first wires)
    (h : (actions.forM fun (trigger, program) => wire (.text tag) (d.findByTag tag) trigger program) w = .ok () w') :
    w'.Wired d first (wires ++ actions.map fun (trigger, program) => ⟨tag, trigger, program⟩) ∧
      w'.visual = w.visual := by
  induction actions generalizing w wires with
  | nil =>
    cases h
    simpa using hw
  | cons a actions ih =>
    obtain ⟨_, w₁, h₁, h⟩ := bind_eq_ok.mp h
    obtain ⟨hw₁, hv₁⟩ := wire_ok apart hw h₁
    obtain ⟨hw', hv⟩ := ih hw₁ h
    rw [List.append_assoc] at hw'
    exact ⟨hw', hv.trans hv₁⟩

theorem findByTag_text_ok {tag : String} {ids : List Nat} (hw : w.drawing = some d)
    (h : findByTag (.text tag) w = .ok ids w') : ids = d.findByTag tag ∧ w' = w := by
  unfold findByTag drawing at h
  obtain ⟨_, _, hd, h⟩ := bind_eq_ok.mp h
  rw [get_bind, hw] at hd
  cases hd
  change ofExcept (if Drawing.isCarried tag then .ok (d.findByTag tag) else .error Drawing.notCarried) w = _ at h
  split at h
  · cases h
    exact ⟨rfl, rfl⟩
  · cases h

/-- The actions of one more tag are told of by the elements that carry it. -/
theorem wireTag_ok {first : Nat} {wires : List Wire} {t : Tag} {tag : String} {ps : Programs} (apart : d.Apart)
    (hw : w.Wired d first wires) (name : t.name = .text tag) (hps : w.visual.programs = some ps)
    (h : wireTag t w = .ok () w') : w'.Wired d first (wires ++ ps.wires t) ∧ w'.visual = w.visual := by
  obtain ⟨d₁, hd₁, hp⟩ := hw.drawing
  unfold wireTag at h
  unfold Programs.wires
  cases ha : t.actions with
  | none =>
    rw [ha] at h
    cases h
    simpa using hw
  | some sources =>
    rw [ha] at h
    cases sources with
    | nil =>
      cases h
      simpa using hw
    | cons s sources =>
      dsimp only at h ⊢
      rw [get_bind, hps] at h
      obtain ⟨ids, w₁, h₁, hwires⟩ := bind_eq_ok.mp h
      rw [name] at hwires h₁ ⊢
      obtain ⟨rfl, rfl⟩ := findByTag_text_ok hd₁ h₁
      unfold Drawing.findByTag at hwires
      rw [hp.tagged] at hwires
      exact wires_ok apart hw hwires

theorem wireTags_ok {first : Nat} {wires : List Wire} {tags : List Tag} {ps : Programs} (apart : d.Apart)
    (hw : w.Wired d first wires) (texts : ∀ t ∈ tags, ∃ tag, t.name = .text tag)
    (hps : w.visual.programs = some ps) (h : tags.forM wireTag w = .ok () w') :
    w'.Wired d first (wires ++ tags.flatMap ps.wires) := by
  induction tags generalizing w wires with
  | nil =>
    cases h
    simpa using hw
  | cons t tags ih =>
    obtain ⟨_, w₁, h₁, h⟩ := bind_eq_ok.mp h
    obtain ⟨tag, name⟩ := texts t List.mem_cons_self
    obtain ⟨hw₁, hv₁⟩ := wireTag_ok apart hw name hps h₁
    have hw' := ih hw₁ (fun t ht => texts t (List.mem_cons_of_mem _ ht)) (by rw [hv₁, hps]) h
    rwa [List.append_assoc] at hw'

end Run

/-! ### The first state -/

/-- The drawing, the listeners and what they lead to stay the same, and so do the descriptor and its programs. -/
structure World.Deaf (a b : World) : Prop where
  drawing : b.drawing = a.drawing
  listeners : b.listeners = a.listeners
  handlers : b.handlers = a.handlers
  descriptor : b.visual.descriptor = a.visual.descriptor
  programs : b.visual.programs = a.visual.programs

theorem World.Deaf.knowing : Knowing World.Deaf where
  refl _ := ⟨rfl, rfl, rfl, rfl, rfl⟩
  trans h k := ⟨k.drawing.trans h.drawing, k.listeners.trans h.listeners, k.handlers.trans h.handlers,
    k.descriptor.trans h.descriptor, k.programs.trans h.programs⟩
  grow _ _ _ := ⟨rfl, rfl, rfl, rfl, rfl⟩
  log _ _ := ⟨rfl, rfl, rfl, rfl, rfl⟩
  known _ _ _ _ := ⟨rfl, rfl, rfl, rfl, rfl⟩

theorem World.Wired.deaf {first : Nat} {wires : List Wire} (h : w.Wired d first wires) (k : w.Deaf w') :
    w'.Wired d first wires := by
  obtain ⟨d', hd', hp⟩ := h.drawing
  refine ⟨by rw [k.handlers, h.size], fun i l hl => by rw [k.handlers, h.handlers i l hl], fun id key => ?_,
    d', k.drawing.trans hd', hp⟩
  rw [← h.heard]
  unfold Situation.heard
  rw [k.listeners]

theorem Run.setUp_deaf (b : Behavior) : Along World.Deaf (setUp b) := by
  have K := World.Deaf.knowing
  have hv : ∀ {f : Visual → Visual}, (∀ v, (f v).descriptor = v.descriptor ∧ (f v).programs = v.programs) →
      Along World.Deaf (modifyVisual f) := fun hf w => ⟨rfl, rfl, rfl, (hf w.visual).1, (hf w.visual).2⟩
  refine K.bind K.get fun w => ?_
  dsimp only
  split
  · refine K.bind (K.load _) fun _ => K.bind (K.normalize _ _) fun _ => K.bind (K.bind (K.ofExcept _) fun _ => ?_)
      fun _ => hv fun _ => ⟨rfl, rfl⟩
    exact K.bind (fun _ => ⟨rfl, rfl, rfl, rfl, rfl⟩) fun _ => K.bind (hv fun _ => ⟨rfl, rfl⟩) fun _ =>
      fun _ => ⟨rfl, rfl, rfl, rfl, rfl⟩
  · exact hv fun _ => ⟨rfl, rfl⟩
  · exact K.pure _
  · exact K.throw _

/-- The first state is one of the same descriptor. -/
theorem Run.firstState_descriptor (h : firstState w = .ok () w') : w'.visual.descriptor = w.visual.descriptor := by
  have P := Spared.placing
  have C := Kept.calm
  obtain ⟨_, w₁, h₁, h⟩ := bind_eq_ok.mp h
  cases h₁
  obtain ⟨_, w₁, h₁, h⟩ := bind_eq_ok.mp h
  cases h₁
  have k : Along Kept (do
      setTags
      let d := (← get).visual.descriptor
      d.properties.forM setProperty
      d.tags.forM wireTag
      d.behaviors.forM setUp : Run Unit) :=
    C.bind (P.setTags.mono fun k => k.toKept) fun _ => C.bind C.get fun w =>
      C.bind ((P.forM fun p _ => P.setProperty p).mono fun k => k.toKept) fun _ =>
        C.bind ((P.forM fun t _ => P.wireTag t).mono fun k => k.toKept) fun _ => C.forM fun b _ => setUp_kept b
  exact (k.leads h).descriptor

/-- In the first state each element listens for what its tag has actions for. -/
theorem Run.firstState_wired {ps : Programs} (apart : d.Apart) (silent : w.listeners = []) (drawing : w.drawing = some d)
    (hps : w.visual.programs = some ps) (texts : ∀ t ∈ w.visual.descriptor.tags, ∃ tag, t.name = .text tag)
    (h : firstState w = .ok () w') :
    w'.Wired d w.handlers.size (w.visual.descriptor.tags.flatMap ps.wires) := by
  have K := World.Deaf.knowing
  obtain ⟨_, w₁, h₁, h⟩ := bind_eq_ok.mp h
  cases h₁
  obtain ⟨_, w₁, h₁, h⟩ := bind_eq_ok.mp h
  cases h₁
  obtain ⟨_, w₂, h₂, h⟩ := bind_eq_ok.mp h
  have k₂ := K.setTags.leads h₂
  rw [get_bind] at h
  obtain ⟨_, w₃, h₃, h⟩ := bind_eq_ok.mp h
  have k₃ := K.trans k₂ ((K.forM fun p _ => K.setProperty p).leads h₃)
  obtain ⟨_, w₄, h₄, h⟩ := bind_eq_ok.mp h
  have hd : w₂.visual.descriptor = w.visual.descriptor := k₂.descriptor
  rw [hd] at h₄
  have hnone : w₃.Wired d w.handlers.size [] := by
    refine ⟨by rw [k₃.handlers]; rfl, fun i l hl => by simp at hl, fun id k => ?_, d, k₃.drawing.trans drawing, .refl d⟩
    exact Situation.heard_of_nil (k₃.listeners.trans silent) id k
  have hwired := wireTags_ok apart hnone texts (k₃.programs.trans hps) h₄
  exact hwired.deaf ((K.forM fun b _ => setUp_deaf b).leads h)

/-! ### Which action an event is meant for -/

/-- Whether a descriptor declares an action of a tag on a trigger, with its source. -/
def Descriptor.Declares (d : Descriptor) (tag t : String) (source : Value) : Prop :=
  ∃ g ∈ d.tags, g.name = .text tag ∧ (t, source) ∈ g.actions.getD []

/-- The wires of a tag are those of its actions, each with its own program. -/
theorem Script.Programs.HasActions.wires_eq {ps : Programs} {g : Tag} {tag : String} (h : ps.HasActions g)
    (name : g.name = .text tag) : ∃ actions, List.Forall₂ (Programs.Compiled tag) (g.actions.getD []) actions ∧
      ps.wires g = actions.map fun (trigger, program) => ⟨tag, trigger, program⟩ := by
  unfold Script.Programs.wires
  cases ha : g.actions with
  | none => exact ⟨[], .nil, rfl⟩
  | some sources =>
    cases sources with
    | nil => exact ⟨[], .nil, rfl⟩
    | cons s sources =>
      obtain ⟨actions, hget, hall⟩ := h s sources ha
      rw [name] at hall
      rw [hget, name]
      exact ⟨actions, hall, rfl⟩

/-- What a descriptor needs for each wire to have its own tag and trigger. -/
structure Descriptor.Wirable (d : Descriptor) (ps : Programs) : Prop where
  texts : ∀ g ∈ d.tags, ∃ tag, g.name = .text tag
  names : d.tags.Pairwise fun g g' => g.name ≠ g'.name
  triggers : ∀ g ∈ d.tags, g.Apart
  actions : ∀ g ∈ d.tags, ps.HasActions g

namespace Descriptor.Wirable

variable {r : Descriptor} {ps : Programs} (h : r.Wirable ps)
include h

/-- The wires of a descriptor are those of its actions, each with its own program. -/
theorem mem_wires {l : Wire} : l ∈ r.tags.flatMap ps.wires ↔
    ∃ source, r.Declares l.tag l.trigger source ∧
      Programs.Compiled l.tag (l.trigger, source) (l.trigger, l.program) := by
  rw [List.mem_flatMap]
  constructor
  · rintro ⟨g, hg, hl⟩
    obtain ⟨tag, name⟩ := h.texts g hg
    obtain ⟨actions, hall, hw⟩ := (h.actions g hg).wires_eq name
    rw [hw] at hl
    obtain ⟨a, ha, rfl⟩ := List.mem_map.mp hl
    obtain ⟨s, hs, hc⟩ := (Programs.mem_compiled hall).mp ha
    obtain ⟨t, source⟩ := s
    obtain ⟨t', program⟩ := a
    obtain rfl : t' = t := hc.1
    exact ⟨source, ⟨g, hg, name, hs⟩, hc⟩
  · rintro ⟨source, ⟨g, hg, name, hs⟩, hc⟩
    obtain ⟨actions, hall, hw⟩ := (h.actions g hg).wires_eq name
    refine ⟨g, hg, ?_⟩
    rw [hw]
    exact List.mem_map.mpr ⟨_, (Programs.mem_compiled hall).mpr ⟨_, hs, hc⟩, rfl⟩

/-- No two wires are of the same tag and trigger. -/
theorem nodup_wires : ((r.tags.flatMap ps.wires).map fun l => (l.tag, l.trigger)).Nodup := by
  rw [List.map_flatMap, List.nodup_flatMap]
  constructor
  · intro g hg
    obtain ⟨tag, name⟩ := h.texts g hg
    obtain ⟨actions, hall, hw⟩ := (h.actions g hg).wires_eq name
    have hkeys : (actions.map (·.1)).Nodup := Programs.keys_compiled hall ▸ h.triggers g hg
    rw [hw, List.map_map]
    exact (List.map_map ▸ hkeys.map (Prod.mk_right_injective tag) : (actions.map (Prod.mk tag ∘ (·.1))).Nodup)
  · refine h.names.imp_of_mem fun {g g'} hg hg' hne => ?_
    obtain ⟨tag, name⟩ := h.texts g hg
    obtain ⟨tag', name'⟩ := h.texts g' hg'
    obtain ⟨actions, -, hw⟩ := (h.actions g hg).wires_eq name
    obtain ⟨actions', -, hw'⟩ := (h.actions g' hg').wires_eq name'
    intro x hx hx'
    dsimp only at hx hx'
    rw [hw, List.map_map] at hx
    rw [hw', List.map_map] at hx'
    obtain ⟨a, -, rfl⟩ := List.mem_map.mp hx
    obtain ⟨a', -, he⟩ := List.mem_map.mp hx'
    exact hne (by rw [name, name', show tag = tag' from (Prod.mk.inj he).1.symm])

end Descriptor.Wirable

namespace World.Wired

variable {first : Nat} {wires : List Wire}

theorem filter_eq_singleton {α : Type} {l : List α} {p : α → Bool} {a : α} (h : l.Nodup) (ha : a ∈ l) (hp : p a)
    (hu : ∀ b ∈ l, p b → b = a) : l.filter p = [a] := by
  refine List.perm_singleton.mp ((List.perm_ext_iff_of_nodup (h.filter p) (List.nodup_singleton a)).mpr fun b => ?_)
  rw [List.mem_filter, List.mem_singleton]
  exact ⟨fun h => hu b h.1 h.2, fun h => h ▸ ⟨ha, hp⟩⟩

/-- Where wires differ in tag or trigger, an element that one of them reaches listens by that one alone. -/
theorem heard_eq (hw : w.Wired d first wires) (apart : d.Apart) (hn : (wires.map fun l => (l.tag, l.trigger)).Nodup)
    {i : Nat} {l : Wire} (hl : wires[i]? = some l) (hr : l.reaches d id k = true) :
    w.heard id k = [.entity (.handler (first + i))] := by
  have hnodup : (wires.zipIdx first).Nodup := by
    refine List.Nodup.of_map Prod.snd ?_
    rw [List.zipIdx_map_snd]
    exact List.nodup_range'
  have hmem : (l, first + i) ∈ wires.zipIdx first := by
    rw [List.mk_mem_zipIdx_iff_le_and_getElem?_sub]
    exact ⟨by omega, by rw [Nat.add_sub_cancel_left, hl]⟩
  rw [hw.heard, filter_eq_singleton hnodup hmem hr]
  · rfl
  · rintro ⟨l', j⟩ hj hr'
    obtain ⟨hle, hl'⟩ := List.mk_mem_zipIdx_iff_le_and_getElem?_sub.mp hj
    obtain ⟨htag, rfl⟩ := Wire.reaches_iff.mp hr
    obtain ⟨htag', hk⟩ := Wire.reaches_iff.mp hr'
    have hkey : (l.tag, l.trigger) = (l'.tag, l'.trigger) :=
      Prod.ext (apart.tag_eq htag htag') (Datum.text.inj hk)
    have hi : i < (wires.map fun l => (l.tag, l.trigger)).length := by
      rw [List.length_map]
      exact (List.getElem?_eq_some_iff.mp hl).1
    have hij : i = j - first := (List.getElem?_inj hi hn).mp (by
      rw [List.getElem?_map, List.getElem?_map, hl, hl']
      exact congrArg some hkey)
    obtain rfl : j = first + i := by omega
    rw [Nat.add_sub_cancel_left, hl] at hl'
    rw [Option.some.inj hl']

theorem heard_none (hw : w.Wired d first wires) (h : ∀ l ∈ wires, l.reaches d id k = false) : w.heard id k = [] := by
  have hnone : (wires.zipIdx first).filter (fun l => l.1.reaches d id k) = [] := by
    refine List.filter_eq_nil_iff.mpr fun l hl => ?_
    rw [h l.1 (List.fst_mem_of_mem_zipIdx hl)]
    exact Bool.false_ne_true
  rw [hw.heard, hnone]
  rfl

end World.Wired

/-! ### Loading -/

namespace Run

/-- Puts the drawing of the visual in its place; nothing is known to scripts yet. -/
def stage : Run Unit := do
  let root ← withLog (Document.read (.text (← fetchDocument)))
  adopt (← descriptorOf root)
  prepareScene root

theorem place_eq_ok : place w = .ok () w' ↔ ∃ w₁, stage w = .ok () w₁ ∧ firstState w₁ = .ok () w' := by
  have h : place = (do stage; firstState) := by
    unfold place loadContent stage
    simp only [bind_assoc]
  rw [h, bind_eq_ok]
  exact ⟨fun ⟨_, w₁, h⟩ => ⟨w₁, h⟩, fun ⟨w₁, h⟩ => ⟨(), w₁, h⟩⟩

theorem descriptorOf_wirable {root : Option (Markup.Element Unit)} {r : Descriptor} (h : descriptorOf root w = .ok r w')
    (texts : ∀ g ∈ r.tags, ∃ tag, g.name = .text tag) {ps : Programs}
    (hps : (Programs.ofDescriptor r).start.2 = .ok ps) : r.Wirable ps := by
  have hnames : Descriptor.Apart (r.tags.map (·.name)) :=
    descriptorOf_spec (P := fun r => Descriptor.Apart (r.tags.map (·.name))) ⟨by simp [Descriptor.empty], by simp [Descriptor.empty]⟩
      (fun h => (Descriptor.parse_apart h).1) h
  have htriggers : ∀ g ∈ r.tags, g.Apart :=
    descriptorOf_spec (P := fun r => ∀ g ∈ r.tags, g.Apart) (by simp [Descriptor.empty]) Descriptor.parse_triggers h
  refine ⟨texts, ?_, htriggers, Programs.ofDescriptor_actions hnames hps⟩
  refine (List.pairwise_map.mp hnames.2).imp_of_mem fun {g g'} hg hg' hne he => ?_
  obtain ⟨tag, name⟩ := texts g hg
  rw [← he, name, Descriptor.sameName_text_self] at hne
  cases hne

/-- The listeners stay the same. -/
theorem stage_knowing : Knowing fun a b => b.listeners = a.listeners where
  refl _ := rfl
  trans h k := k.trans h
  grow _ _ _ := rfl
  log _ _ := rfl
  known _ _ _ _ := rfl

theorem stage_framed : Framed fun a b => b.listeners = a.listeners where
  toCourse := stage_knowing.toCourse
  grow _ _ _ := rfl
  draw _ _ := rfl
  mount _ _ _ := rfl
  shape h := by cases h <;> rfl

theorem stage_ok (h : stage w = .ok () w') : w'.listeners = w.listeners ∧ (∃ d, w'.drawing = some d ∧ d.Apart) ∧
    ∃ ps, w'.visual.programs = some ps ∧ ((∀ g ∈ w'.visual.descriptor.tags, ∃ tag, g.name = .text tag) →
      w'.visual.descriptor.Wirable ps) := by
  have K := stage_knowing
  obtain ⟨content, w₁, h₁, h⟩ := bind_eq_ok.mp h
  have k₁ : w₁.listeners = w.listeners := by
    refine Along.leads (K.bind K.get fun w => K.bind (fun w => rfl) fun _ => K.bind K.get fun w => ?_) h₁
    split
    · exact K.pure _
    · exact K.throw _
  obtain ⟨root, w₂, h₂, h⟩ := bind_eq_ok.mp h
  have k₂ : w₂.listeners = w₁.listeners := (K.logged _).leads h₂
  obtain ⟨r, w₃, h₃, h⟩ := bind_eq_ok.mp h
  have k₃ : w₃.listeners = w₂.listeners := by
    cases root with
    | none => exact (K.pure _).leads h₃
    | some e => exact (K.logged _).leads h₃
  obtain ⟨_, w₄, h₄, h⟩ := bind_eq_ok.mp h
  have k₄ : w₄.listeners = w₃.listeners := (K.adopted (fun _ _ _ _ _ _ => rfl) r).leads h₄
  obtain ⟨hd, -, ps, hps, hp⟩ := adopt_ok h₄
  have k₅ := (Spared.placing.prepareScene _).leads h
  refine ⟨?_, prepareScene_apart h, ps, k₅.programs.trans hp, ?_⟩
  · rw [(stage_framed.prepareScene _).leads h, k₄, k₃, k₂, k₁]
  · rw [show w'.visual.descriptor = r from k₅.descriptor.trans hd]
    exact fun texts => descriptorOf_wirable h₃ texts hps

end Run

/-! ### What follows -/

/-- As long as no script changes listeners, all of them stay, and so does what they lead to. -/
theorem World.ears_driven (listeners : List (Nat × List (Datum × List Datum))) (handlers : Array Handler) :
    Driven (Under (fun e => e.deed.isHook = false) fun w => w.listeners = listeners ∧ w.handlers = handlers) := by
  let P : Event → Prop := fun e => e.deed.isHook = false
  let I : World → Prop := fun w => w.listeners = listeners ∧ w.handlers = handlers
  have C : Calm (Under P I) :=
    { toCourse := Under.course P I
      stir := fun h => by
        cases h with
        | touch h =>
          cases h with
          | listen ls h => exact .event rfl fun k => absurd h (Bool.eq_false_iff.mp k)
          | draw | ask => exact .event rfl fun _ => id
          | _ => exact .silent rfl id
        | beat h =>
          cases h with
          | record => exact .event rfl fun _ => id
          | _ => exact .silent rfl id
        | record => exact .event rfl fun _ => id
        | shape h => cases h <;> exact .silent rfl id
        | _ => exact .silent rfl id }
  refine C.driven (fun _ _ => .silent rfl id) (fun _ _ => .event rfl fun _ => id) (fun _ _ _ => .event rfl fun _ => id)
    (fun _ _ _ _ => .event rfl fun _ => id) (fun r c w => ?_) (fun _ => .silent rfl id)
    (fun _ _ _ _ => .event rfl fun _ => id) fun _ _ _ _ _ => .event rfl fun _ => id
  refine .event (Run.store_past r c w) fun _ h => ?_
  cases r <;> cases c <;> exact h

/-- In every world that follows, destroyed or not, listeners and handlers are the same if none of them has been
changed. -/
theorem World.Follows.ears {w₂ : World} (h : w₂.Follows w) (quiet : ∀ e ∈ w.since w₂, e.deed.isHook = false) :
    w.listeners = w₂.listeners ∧ w.handlers = w₂.handlers := by
  have D := World.ears_driven w₂.listeners w₂.handlers
  have hdestroy : Along (Under (fun e => e.deed.isHook = false) fun w =>
      w.listeners = w₂.listeners ∧ w.handlers = w₂.handlers) Run.destroy := by
    refine D.bind D.get fun w => .ite (D.pure _) (D.bind (fun w => .silent rfl id) fun _ => D.bind D.get fun w => ?_)
    exact D.logEntry _
  exact (D.follows_any (fun _ _ => .event rfl fun _ => id) hdestroy h).since quiet ⟨rfl, rfl⟩

/-! ### Events -/

/-- What those who look after a visual are told of the outcome of an action. -/
def Host.complaints : Except Failure Datum → List String
  | .ok _ => []
  | .error f => [Host.failureMessage f]

namespace World

/-- An event that is told to an element runs one action on it, once; a failure of it is told to whoever looks after
the visual, and goes no further. -/
def Runs (w : World) (id : Nat) (t : String) (n : Nat) (program : Program) : Prop :=
  ∀ levels event, ∃ result u log,
    Run.script (Run.playWithin levels) (.action n) (program.call [event, .entity .context]) w = .ok result u ∧
      Run.fire (Run.playWithin (levels + 1)) id (.text t) event w = .ok () { u with
        log
        visual := { u.visual with errors := u.visual.errors ++ Host.complaints result } }

end World

namespace Run

variable {play : Player}

theorem report_eq (f : Failure) (w : World) :
    ∃ log, report f w = .ok () { w with log, visual := w.visual.reported f } := by
  have hl : ∀ e, logEntry e w = .ok () ((logEntry e).after w) := fun _ => rfl
  unfold report Visual.reported
  rw [get_bind, bind_ok (hl _)]
  split
  · exact ⟨_, rfl⟩
  · exact ⟨_, rfl⟩

/-- The action of a handler is run once, and its failure goes no further. -/
theorem runAction_eq {n : Nat} {handler : Handler} (live : w.isLive) (sink : w.visual.hasSink)
    (hn : w.handlers[n]? = some handler)
    (hp : ∀ act, Along (fun a b => b.visual.hasSink = a.visual.hasSink) (play act)) (event : Datum) :
    ∃ result u log, script play (.action n) (handler.program.call [event, .entity .context]) w = .ok result u ∧
      runAction play n event w = .ok () { u with
        log
        visual := { u.visual with errors := u.visual.errors ++ Host.complaints result } } := by
  have D := kept_driven (f := (·.hasSink)) (fun k => k.hasSink) (fun _ => rfl) fun _ _ => rfl
  obtain ⟨result, u, hs⟩ : ∃ result u,
      script play (.action n) (handler.program.call [event, .entity .context]) w = .ok result u := by
    obtain ⟨r, hr⟩ := attempt_after (play (handler.program.call [event, .entity .context]))
      ((record (.start (.action n))).after w)
    have hd : record (.start (.action n)) w = .ok () ((record (.start (.action n))).after w) := rfl
    unfold script
    rw [bind_ok hd, bind_ok hr]
    exact ⟨_, _, rfl⟩
  have hu : u.visual.hasSink := by
    rw [(D.script hp rfl _).leads hs]
    exact sink
  unfold runAction
  rw [get_bind]
  dsimp only
  rw [show w.visual.isDestroyed = false from live, if_neg Bool.false_ne_true, hn]
  dsimp only
  rw [bind_ok hs]
  cases result with
  | ok d => exact ⟨.ok d, u, u.log, hs, by simp [Host.complaints]; rfl⟩
  | error f =>
    obtain ⟨log, hr⟩ := report_eq f { u with log := u.log ++ [Log.error ("runtime: action script " ++ handler.label ++ " failed")] }
    refine ⟨.error f, u, log, hs, Eq.trans hr ?_⟩
    unfold Visual.reported
    rw [if_pos hu]
    rfl

/-- What calls the only listener of an element leaves nothing else to be done. -/
theorem fire_eq {levels n : Nat} {t : String} {event : Datum} {u : World}
    (heard : w.heard id (.text t) = [.entity (.handler n)])
    (h : runAction (playWithin levels) n event w = .ok () u) :
    fire (playWithin (levels + 1)) id (.text t) event w = .ok () u := by
  have happly : attempt (apply (playWithin levels) (.handler n) [event]) w = .ok (.ok .null) u := by
    refine attempt_ok ?_
    change (runAction (playWithin levels) n event >>= fun _ => pure Datum.null) w = _
    rw [bind_ok h]
    rfl
  have hcall : (playWithin (levels + 1)).call (.entity (.handler n)) [event] w = .ok .null u := by
    change (attempt (apply (playWithin levels) (.handler n) [event]) >>= fun r =>
      (Script.Act.ofExcept r).run (answer (playWithin levels)) throw) w = _
    rw [bind_ok happly]
    rfl
  have hlisteners : Run.listeners id (.text t) w = .ok [.entity (.handler n)] w :=
    congrArg (EStateM.Result.ok · w) heard
  unfold fire
  rw [bind_ok hlisteners]
  change (discard ((playWithin (levels + 1)).call (.entity (.handler n)) [event]) >>= fun _ => pure ()) w = _
  have hdiscard : discard ((playWithin (levels + 1)).call (.entity (.handler n)) [event]) w = .ok () u := by
    change EStateM.map _ _ w = _
    simp only [EStateM.map, hcall]
  rw [bind_ok hdiscard]
  rfl

theorem fire_runs {n : Nat} {t : String} {handler : Handler} (live : w.isLive) (sink : w.visual.hasSink)
    (heard : w.heard id (.text t) = [.entity (.handler n)]) (hn : w.handlers[n]? = some handler) :
    w.Runs id t n handler.program := by
  intro levels event
  have D := kept_driven (f := (·.hasSink)) (fun k => k.hasSink) (fun _ => rfl) fun _ _ => rfl
  obtain ⟨result, u, log, hs, h⟩ := runAction_eq live sink hn
    (D.steady.toUpheld.obeyed.playWithin levels) event
  exact ⟨result, u, log, hs, fire_eq heard h⟩

end Run

/-- In every world that follows a visual put in place, as long as no script has changed any listener: an element
listens for a trigger exactly if it was put in place with the name of a tag that has an action on it, and then by
one listener, which runs the program of that action. Those elements, and no others, show that they can be clicked. -/
theorem wired_exactly {w₀ w₂ w : World} (silent : w₀.listeners = []) (loaded : Run.place w₀ = .ok () w₂)
    (texts : ∀ g ∈ w₂.visual.descriptor.tags, ∃ tag, g.name = .text tag) (follows : w₂.Follows w)
    (quiet : ∀ e ∈ w.since w₂, e.deed.isHook = false) :
    ∃ w₁ d d₂, Run.stage w₀ = .ok () w₁ ∧ w₁.drawing = some d ∧ w₂.drawing = some d₂ ∧ d₂.tagged = d.tagged ∧
      (∀ id, (∃ t, w₂.heard id t ≠ []) → d₂.valueOf? id Drawing.cursorKey = some "pointer") ∧
      (∀ id key, (∀ t, w₂.heard id t = []) ∨ key ≠ Drawing.cursorKey → d₂.valueOf? id key = d.valueOf? id key) ∧
      (∀ e ∈ d.below, ∀ tag t source, Drawing.attrOf? e.head Drawing.tagKey = some tag →
        w₂.visual.descriptor.Declares tag t source → ∃ n handler log, w.heard e.id (.text t) = [.entity (.handler n)] ∧
          w.handlers[n]? = some handler ∧ handler.label = tag ++ "." ++ t ∧
          Program.ofScript source Programs.actionParams (tag ++ "_" ++ t) = .ok (log, handler.program) ∧
          (w.isLive → w.visual.hasSink → w.Runs e.id t n handler.program)) ∧
      ∀ id k, (∀ e ∈ d.below, e.id = id → ∀ tag t source, Drawing.attrOf? e.head Drawing.tagKey = some tag →
        k = .text t → ¬ w₂.visual.descriptor.Declares tag t source) → w.heard id k = [] := by
  obtain ⟨w₁, hstage, hfirst⟩ := Run.place_eq_ok.mp loaded
  obtain ⟨hsilent, ⟨d, hd, apart⟩, ps, hps, hwirable⟩ := Run.stage_ok hstage
  have hdescriptor : w₂.visual.descriptor = w₁.visual.descriptor := Run.firstState_descriptor hfirst
  rw [hdescriptor] at texts ⊢
  have hw := hwirable texts
  have hwired := Run.firstState_wired apart (hsilent.trans silent) hd hps texts hfirst
  obtain ⟨hears, hhandlers⟩ := follows.ears quiet
  have hheard : ∀ id k, w.heard id k = w₂.heard id k := fun id k => by
    unfold Situation.heard
    rw [hears]
  obtain ⟨d₂, hd₂, hpointing⟩ := hwired.drawing
  refine ⟨w₁, d, d₂, hstage, hd, hd₂, hpointing.tagged, fun id => ?_, fun id key => ?_,
    fun e he tag t source htag hdecl => ?_, fun id k hnone => ?_⟩
  · rintro ⟨t, ht⟩
    obtain ⟨l, hl, hr⟩ : ∃ l ∈ w₁.visual.descriptor.tags.flatMap ps.wires, l.reaches d id t = true := by
      by_contra hnone
      refine ht (hwired.heard_none fun l hl => Bool.eq_false_iff.mpr fun hr => hnone ⟨l, hl, hr⟩)
    rw [hpointing.valueOf?, if_pos]
    exact ⟨rfl, List.mem_flatMap.mpr ⟨l, hl, Drawing.mem_findByTag.mpr (Wire.reaches_iff.mp hr).1⟩⟩
  · rintro (hnone | hne)
    · rw [hpointing.valueOf?, if_neg]
      rintro ⟨-, hid⟩
      obtain ⟨l, hl, hid⟩ := List.mem_flatMap.mp hid
      obtain ⟨i, hi⟩ := List.mem_iff_getElem?.mp hl
      have hr : l.reaches d id (.text l.trigger) = true := Wire.reaches_iff.mpr ⟨Drawing.mem_findByTag.mp hid, rfl⟩
      have heard := hwired.heard_eq apart hw.nodup_wires hi hr
      rw [hnone] at heard
      cases heard
    · rw [hpointing.valueOf?, if_neg fun h => hne h.1]
  · obtain ⟨log, program, hprogram⟩ : ∃ log program,
        Program.ofScript source Programs.actionParams (tag ++ "_" ++ t) = .ok (log, program) := by
      obtain ⟨g, hg, name, hs⟩ := hdecl
      obtain ⟨actions, hall, -⟩ := (hw.actions g hg).wires_eq name
      obtain ⟨a, -, hc⟩ := Programs.compiled_of_mem hall hs
      obtain ⟨-, log, hprogram⟩ := hc
      exact ⟨log, a.2, hprogram⟩
    have hl : (⟨tag, t, program⟩ : Wire) ∈ w₁.visual.descriptor.tags.flatMap ps.wires :=
      hw.mem_wires.mpr ⟨source, hdecl, rfl, log, hprogram⟩
    obtain ⟨i, hi⟩ := List.mem_iff_getElem?.mp hl
    have hr : (⟨tag, t, program⟩ : Wire).reaches d e.id (.text t) = true :=
      Wire.reaches_iff.mpr ⟨Drawing.mem_tagged.mpr ⟨e, he, rfl, htag⟩, rfl⟩
    have heard : w.heard e.id (.text t) = [.entity (.handler (w₁.handlers.size + i))] :=
      (hheard _ _).trans (hwired.heard_eq apart hw.nodup_wires hi hr)
    have hn : w.handlers[w₁.handlers.size + i]? = some (Wire.handler ⟨tag, t, program⟩) := by
      rw [hhandlers]
      exact hwired.handlers i _ hi
    exact ⟨_, _, log, heard, hn, rfl, hprogram, fun live sink => Run.fire_runs live sink heard hn⟩
  · rw [hheard]
    refine hwired.heard_none fun l hl => Bool.eq_false_iff.mpr fun hr => ?_
    obtain ⟨htagged, hk⟩ := Wire.reaches_iff.mp hr
    obtain ⟨e, he, rfl, htag⟩ := Drawing.mem_tagged.mp htagged
    obtain ⟨source, hdecl, -⟩ := hw.mem_wires.mp hl
    exact hnone e he rfl l.tag l.trigger source htag hk hdecl

/-- A drawing with a bell that can be rung, and beside it an element that is nothing. A script renders the bell. -/
def bellSetup (render : String) : World.Setup where
  path := "bell"
  documents := [("bell", "<svg xmlns:t='https://thingsboard.io/svg'><t:metadata>" ++
    "\x7b\"tags\":[\x7b\"tag\":\"b\",\"stateRenderFunction\":\"" ++ render ++
    "\",\"actions\":\x7b\"ring\":\x7b\"actionFunction\":\"ctx.values['v'] = 5\"\x7d\x7d\x7d]\x7d" ++
    "</t:metadata><g t:tag='b'/><g/></svg>")]

/-- Whether the bell is there, has its tag, and can be rung as far as its descriptor goes. -/
def World.hasBell (w : World) : Bool :=
  (w.drawing.map (·.tagged)) == some [("b", 1)] && (w.visual.descriptor.tags.map (·.name)).all Value.isText &&
    w.visual.descriptor.tags.any fun g =>
      Descriptor.sameName (.text "b") g.name && (g.actions.getD []).any (·.1 == "ring")

theorem World.hasBell_spec (h : w.hasBell) : (∃ d, w.drawing = some d ∧ ("b", 1) ∈ d.tagged) ∧
    (∀ g ∈ w.visual.descriptor.tags, ∃ tag, g.name = .text tag) ∧
      ∃ source, w.visual.descriptor.Declares "b" "ring" source := by
  simp only [hasBell, Bool.and_eq_true, beq_iff_eq, List.any_eq_true] at h
  obtain ⟨⟨hd, texts⟩, g, hg, hname, ⟨t, source⟩, hs, ht⟩ := h
  obtain ⟨d, hd, htagged⟩ := Option.map_eq_some_iff.mp hd
  refine ⟨⟨d, hd, by rw [htagged]; exact List.mem_singleton.mpr rfl⟩, fun g hg => ?_, source, g, hg, ?_, ?_⟩
  · exact AllTexts.of_all texts g.name (List.mem_map_of_mem hg)
  · exact Descriptor.sameName_text hname
  · dsimp only at ht
    exact ht ▸ hs

set_option maxRecDepth 100000 in
/-- So it is with a bell that no script has silenced: it listens for being rung, and its action is run when it is. -/
theorem wired_exactly_bell : ∃ w₀ w₂ w : World, w₀.listeners = [] ∧ Run.place w₀ = .ok () w₂ ∧
    (∀ g ∈ w₂.visual.descriptor.tags, ∃ tag, g.name = .text tag) ∧ w₂.Follows w ∧
      (∀ e ∈ w.since w₂, e.deed.isHook = false) ∧
        ∃ n program, w.heard 1 (.text "ring") = [.entity (.handler n)] ∧ w.Runs 1 "ring" n program := by
  obtain ⟨w₂, w, hp, hf, ht⟩ := World.Setup.leads_ok (bellSetup "") [.render] (fun w₂ w =>
    !w.visual.isDestroyed && w.visual.hasSink && w₂.hasBell && (w.since w₂).all (!·.deed.isHook)) (by decide +kernel)
  simp only [Bool.and_eq_true, Bool.not_eq_true', List.all_eq_true] at ht
  obtain ⟨⟨⟨live, sink⟩, bell⟩, quiet⟩ := ht
  obtain ⟨⟨d₂, hd₂, hbell⟩, texts, source, hdecl⟩ := World.hasBell_spec bell
  refine ⟨_, w₂, w, rfl, hp, texts, hf, quiet, ?_⟩
  obtain ⟨-, d, d₂', -, -, hd₂', htagged, -, -, hwired, -⟩ := wired_exactly rfl hp texts hf quiet
  obtain rfl : d₂ = d₂' := Option.some.inj (hd₂.symm.trans hd₂')
  rw [htagged] at hbell
  obtain ⟨e, he, hid, htag⟩ := Drawing.mem_tagged.mp hbell
  obtain ⟨n, handler, -, heard, -, -, -, runs⟩ := hwired e he "b" "ring" source htag hdecl
  rw [hid] at heard runs
  exact ⟨n, handler.program, heard, runs live sink⟩

set_option maxRecDepth 100000 in
/-- A script that registers no listener can still silence the bell when it is rendered first. -/
theorem silenced_bell : ∃ w₀ w₂ w : World, w₀.listeners = [] ∧ Run.place w₀ = .ok () w₂ ∧ w₂.Follows w ∧ w.isLive ∧
    (∀ g ∈ w₂.visual.descriptor.tags, ∃ tag, g.name = .text tag) ∧
      (∀ e ∈ w.since w₂, ∀ id t handler, e.deed ≠ .listen id t handler) ∧
        (∃ d, w₂.drawing = some d ∧ ("b", 1) ∈ d.tagged) ∧
          (∃ source, w₂.visual.descriptor.Declares "b" "ring" source) ∧ w.heard 1 (.text "ring") = [] := by
  obtain ⟨w₂, w, hp, hf, ht⟩ := World.Setup.leads_ok (bellSetup "element.off('ring')") [] (fun w₂ w =>
    !w.visual.isDestroyed && w₂.hasBell && (w.since w₂).all (fun e => match e.deed with
      | .listen .. => false
      | _ => true) && (w.heard 1 (.text "ring")).isEmpty) (by decide +kernel)
  simp only [Bool.and_eq_true, Bool.not_eq_true', List.all_eq_true, List.isEmpty_iff] at ht
  obtain ⟨⟨⟨live, bell⟩, quiet⟩, unheard⟩ := ht
  obtain ⟨hbell, texts, hdecl⟩ := World.hasBell_spec bell
  refine ⟨_, w₂, w, rfl, hp, hf, live, texts, fun e he id t handler k => ?_, hbell, hdecl, unheard⟩
  have := quiet e he
  rw [k] at this
  cases this

end LiveSvg
