import LiveSvg.Proofs.Equality
/-!
When a new value counts as no change. On values without a NaN this is an equivalence, which knows no order
of keys; it is strict about truth values on the outside only: inside of lists and objects a truth value may
stand where there was a number.
-/

namespace LiveSvg

open Number (Binary64)
open Script (Datum Memory View)

namespace Value

variable {truth : Bool → Content} {a b c : Value} {xs ys : List Value} {ms ns : List (String × Value)}

/-! ### Other orders of keys -/

mutual

/-- Whether one value is another with the members of objects in a different order, at any depth. -/
def Rearranged : Value → Value → Prop
  | .list xs, w => ∃ ys, w = .list ys ∧ RearrangedItems xs ys
  | .object ms, w => ∃ ns os, w = .object os ∧ RearrangedMembers ms ns ∧ ns.Perm os
  | .null, w => w = .null
  | .bool b, w => w = .bool b
  | .int n, w => w = .int n
  | .float x, w => w = .float x
  | .text s, w => w = .text s

def RearrangedItems : List Value → List Value → Prop
  | [], ys => ys = []
  | x :: xs, ys => ∃ y rest, ys = y :: rest ∧ Rearranged x y ∧ RearrangedItems xs rest

def RearrangedMembers : List (String × Value) → List (String × Value) → Prop
  | [], ns => ns = []
  | (k, x) :: ms, ns => ∃ y rest, ns = (k, y) :: rest ∧ Rearranged x y ∧ RearrangedMembers ms rest

end

/-- Members in another order say the same. -/
theorem contentAt_perm (h : ms.Perm ns) (hms : (ms.map (·.1)).Nodup) :
    contentAt truth ns = contentAt truth ms := by
  have hns : (ns.map (·.1)).Nodup := (h.map _).nodup_iff.mp hms
  funext key
  rw [contentAt_eq_get?, contentAt_eq_get?]
  cases hg : Members.get? ms key with
  | none =>
    have hn : key ∉ ns.map (·.1) := mt (h.map _).mem_iff.mpr (Members.get?_eq_none_iff.mp hg)
    rw [Members.get?_eq_none_iff.mpr hn]
  | some x => rw [Members.get?_of_mem hns (h.mem_iff.mp (Members.mem_of_get? hg))]

mutual

/-- The order of members tells nothing about a value. -/
theorem Rearranged.facts : {a b : Value} → Rearranged a b → a.isRegular = true →
    b.isRegular = true ∧ b.kind = a.kind ∧ content truth b = content truth a
  | .null, _, h, ha | .bool _, _, h, ha | .int _, _, h, ha | .float _, _, h, ha | .text _, _, h, ha => by
    rw [Rearranged] at h
    subst h
    exact ⟨ha, rfl, rfl⟩
  | .list xs, _, h, ha => by
    rw [Rearranged] at h
    obtain ⟨ys, rfl, h⟩ := h
    rw [isRegular] at ha
    obtain ⟨hy, hc⟩ := RearrangedItems.facts h ha
    exact ⟨by rw [isRegular, hy], rfl, by rw [content, content, hc]⟩
  | .object ms, _, h, ha => by
    rw [Rearranged] at h
    obtain ⟨ns, os, rfl, h, hp⟩ := h
    rw [isRegular] at ha
    obtain ⟨hn, hkeys, hc⟩ := RearrangedMembers.facts h ha
    rw [regularMembers_iff] at hn
    have ho : regularMembers os = true :=
      regularMembers_iff.mpr ⟨(hp.map _).nodup_iff.mp hn.1, fun m hm => hn.2 m (hp.mem_iff.mpr hm)⟩
    exact ⟨by rw [isRegular, ho], rfl, by rw [content, content, contentAt_perm hp hn.1, hc]⟩

theorem RearrangedItems.facts : {xs ys : List Value} → RearrangedItems xs ys → regularItems xs = true →
    regularItems ys = true ∧ contents truth ys = contents truth xs
  | [], _, h, _ => by
    rw [RearrangedItems] at h
    subst h
    exact ⟨rfl, rfl⟩
  | x :: xs, _, h, hx => by
    rw [RearrangedItems] at h
    obtain ⟨y, rest, rfl, h, hr⟩ := h
    rw [regularItems, Bool.and_eq_true] at hx
    obtain ⟨hy, -, hc⟩ := Rearranged.facts h hx.1
    obtain ⟨hrest, hcs⟩ := RearrangedItems.facts hr hx.2
    exact ⟨by rw [regularItems, hy, hrest]; rfl, by rw [contents, contents, hc, hcs]⟩

theorem RearrangedMembers.facts : {ms ns : List (String × Value)} → RearrangedMembers ms ns →
    regularMembers ms = true → regularMembers ns = true ∧ ns.map (·.1) = ms.map (·.1) ∧
      contentAt truth ns = contentAt truth ms
  | [], _, h, _ => by
    rw [RearrangedMembers] at h
    subst h
    exact ⟨rfl, rfl, rfl⟩
  | (k, x) :: ms, _, h, hm => by
    rw [RearrangedMembers] at h
    obtain ⟨y, rest, rfl, h, hr⟩ := h
    obtain ⟨hnodup, hall⟩ := regularMembers_iff.mp hm
    obtain ⟨hx, hms⟩ := List.forall_mem_cons.mp hall
    rw [List.map_cons, List.nodup_cons] at hnodup
    obtain ⟨hy, -, hc⟩ := Rearranged.facts h hx
    obtain ⟨hrest, hkeys, hcs⟩ := RearrangedMembers.facts hr (regularMembers_iff.mpr ⟨hnodup.2, hms⟩)
    have hk : (k :: rest.map (·.1)).Nodup := by
      rw [hkeys]
      exact List.nodup_cons.mpr hnodup
    refine ⟨regularMembers_iff.mpr ⟨hk, List.forall_mem_cons.mpr ⟨hy, (regularMembers_iff.mp hrest).2⟩⟩, ?_, ?_⟩
    · rw [List.map_cons, List.map_cons, hkeys]
    · funext key
      rw [contentAt, contentAt, hc, hcs]

end

/-- A pump as a host gives it: a count, and a list in which a truth value stands for a number. -/
def pumpRead : Value :=
  .object [("count", .int 9007199254740993), ("state", .list [.bool true, .float (.infinity false)])]

/-- The same with its members the other way round, and numbers for truth values. -/
def pumpTurned : Value :=
  .object [("state", .list [.int 1, .float (.infinity false)]), ("count", .int 9007199254740993)]

/-- A way into a value: to an item of a list, or to a member of an object. -/
inductive Pick where
  | item (i : Nat)
  | member (key : String)

def pick? : Value → Pick → Option Value
  | .list xs, .item i => xs[i]?
  | v, .member key => v.get? key
  | _, _ => none

/-- What picks lead to, one after the other. -/
def reach? : Value → List Pick → Option Value
  | v, [] => some v
  | v, p :: path => (v.pick? p).bind fun w => w.reach? path

/-- Whether of two values one is a truth value and the other a number. -/
def Opposes (v w : Value) : Prop :=
  (v.kind = .bool ∧ w.kind = .number) ∨ (v.kind = .number ∧ w.kind = .bool)

theorem kind_eq_of_strict (h : a.strict = b.strict) : a.kind = b.kind := by
  cases a <;> cases b <;> first | rfl | cases h

/-- What is picked from values of the same content has the same content. -/
theorem strict_pick? (h : a.strict = b.strict) (p : Pick) : (a.pick? p).map strict = (b.pick? p).map strict := by
  cases a <;> cases b <;> try cases h
  case list.list xs ys =>
    cases p with
    | member key => rfl
    | item i =>
      have hs : xs.map strict = ys.map strict := by
        rw [← contents_eq_map, ← contents_eq_map]
        exact Content.list.inj h
      rw [pick?, pick?, ← List.getElem?_map, ← List.getElem?_map, hs]
  case object.object ms ns =>
    cases p with
    | item i => rfl
    | member key =>
      have hs : contentAt .bool ms = contentAt .bool ns := Content.object.inj h
      rw [pick?, pick?, get?, get?, ← contentAt_eq_get?, ← contentAt_eq_get?, hs]
  all_goals cases p <;> rfl

theorem strict_reach? (h : a.strict = b.strict) (path : List Pick) :
    (a.reach? path).map strict = (b.reach? path).map strict := by
  induction path generalizing a b with
  | nil =>
    rw [reach?, reach?]
    exact congrArg some h
  | cons p path ih =>
    have hp := strict_pick? h p
    rw [reach?, reach?]
    cases ha : a.pick? p with
    | none =>
      rw [ha, Option.map_none] at hp
      rw [Option.map_eq_none_iff.mp hp.symm]
    | some v =>
      rw [ha, Option.map_some] at hp
      obtain ⟨w, hw, he⟩ := Option.map_eq_some_iff.mp hp.symm
      rw [hw]
      exact ih he.symm

/-- Whether a value is no list and no object. -/
def isFlat : Value → Bool
  | .list _ | .object _ => false
  | _ => true

/-- Whether a reading of truth values makes no lists and no objects of them. -/
def IsFlatReading (truth : Bool → Content) : Prop :=
  (∀ b l, truth b ≠ .list l) ∧ ∀ b f, truth b ≠ .object f

/-- Whether flat values at the same place that agree in one reading agree in another. -/
def AgreeFlat (read read' : Bool → Content) (a b : Value) : Prop :=
  ∀ path v w, a.reach? path = some v → b.reach? path = some w → v.isFlat = true →
    content read v = content read w → content read' v = content read' w

variable {read read' : Bool → Content}

theorem AgreeFlat.pick (h : AgreeFlat read read' a b) {p : Pick} {v w : Value} (hv : a.pick? p = some v)
    (hw : b.pick? p = some w) : AgreeFlat read read' v w := by
  intro path v' w' hv' hw'
  apply h (p :: path)
  · rw [reach?, hv]
    exact hv'
  · rw [reach?, hw]
    exact hw'

mutual

/-- Values that agree in one reading agree in another one, if what is flat in them does. -/
theorem content_congr (hread : IsFlatReading read) : {a b : Value} → content read a = content read b →
    AgreeFlat read read' a b → content read' a = content read' b
  | .list xs, b, h, hf => by
    cases b
    case list ys =>
      rw [content, content, contents_congr hread (Content.list.inj h) fun i x y hx hy => hf.pick (p := .item i) hx hy]
    case bool t => exact absurd h.symm (hread.1 t _)
    all_goals cases h
  | .object ms, b, h, hf => by
    cases b
    case object ns =>
      have hat : ∀ key, (Members.get? ms key).map (content read) = (Members.get? ns key).map (content read) := by
        intro key
        rw [← contentAt_eq_get?, ← contentAt_eq_get?, Content.object.inj h]
      rw [content, content, Content.object.injEq]
      funext key
      rw [contentAt_eq_get?, contentAt_eq_get?]
      cases hm : Members.get? ms key with
      | none =>
        have hn := hat key
        rw [hm, Option.map_none] at hn
        rw [Option.map_eq_none_iff.mp hn.symm]
      | some x =>
        have hs := hat key
        rw [hm, Option.map_some] at hs
        obtain ⟨y, hy, he⟩ := Option.map_eq_some_iff.mp hs.symm
        rw [hy, Option.map_some, Option.map_some, Option.some.injEq]
        exact member_congr hread ms (key, x) (Members.mem_of_get? hm) y he.symm (hf.pick (p := .member key) hm hy)
    case bool t => exact absurd h.symm (hread.2 t _)
    all_goals cases h
  | .null, b, h, hf | .text _, b, h, hf | .int _, b, h, hf | .float _, b, h, hf => by
    cases b
    case list => cases h
    case object => cases h
    all_goals exact hf [] _ _ rfl rfl rfl h
  | .bool t, b, h, hf => by
    cases b
    case list => exact absurd h (hread.1 t _)
    case object => exact absurd h (hread.2 t _)
    all_goals exact hf [] _ _ rfl rfl rfl h

theorem contents_congr (hread : IsFlatReading read) : {xs ys : List Value} → contents read xs = contents read ys →
    (∀ (i : Nat) (x y : Value), xs[i]? = some x → ys[i]? = some y → AgreeFlat read read' x y) →
    contents read' xs = contents read' ys
  | [], ys, h, _ => by
    cases ys with
    | nil => rfl
    | cons y ys => cases h
  | x :: xs, ys, h, hf => by
    cases ys with
    | nil => cases h
    | cons y ys =>
      rw [contents, contents, List.cons.injEq] at h
      rw [contents, contents, content_congr hread h.1 (hf 0 x y rfl rfl),
        contents_congr hread h.2 fun i x' y' hx hy => hf (i + 1) x' y' hx hy]

theorem member_congr (hread : IsFlatReading read) : (ms : List (String × Value)) → ∀ m ∈ ms, ∀ y : Value,
    content read m.2 = content read y → AgreeFlat read read' m.2 y → content read' m.2 = content read' y
  | [], _, hm, _, _, _ => absurd hm List.not_mem_nil
  | (k, x) :: ms, m, hm, y, h, hf => by
    rcases List.mem_cons.mp hm with rfl | hm
    · exact content_congr hread h hf
    · exact member_congr hread ms m hm y h hf

end

theorem isFlatReading_truthNumber : IsFlatReading truthNumber :=
  ⟨fun _ _ h => Content.noConfusion h, fun _ _ h => Content.noConfusion h⟩

theorem isFlatReading_bool : IsFlatReading .bool :=
  ⟨fun _ _ h => Content.noConfusion h, fun _ _ h => Content.noConfusion h⟩

theorem truthNumber_inj {s t : Bool} (h : truthNumber s = truthNumber t) : s = t := by
  cases s <;> cases t <;>
    simp [truthNumber, Numeric.size?, Numeric.place?, Binary64.Place.size] at h ⊢

/-- Flat values that count as the same number are strictly the same unless one of them is a truth value. -/
theorem strict_of_flat (ha : a.isFlat = true) (h : a.loose = b.loose) (ho : ¬ a.Opposes b) :
    a.strict = b.strict := by
  cases a <;> cases b
  case bool.bool s t => rw [truthNumber_inj h]
  case bool.int | bool.float => exact absurd (.inl ⟨rfl, rfl⟩) ho
  case int.bool | float.bool => exact absurd (.inr ⟨rfl, rfl⟩) ho
  all_goals first | exact h | cases h | cases ha

theorem loose_of_flat (ha : a.isFlat = true) (h : a.strict = b.strict) : a.loose = b.loose := by
  cases a <;> cases b
  case bool.bool s t => rw [Content.bool.inj h]
  all_goals first | exact h | cases h | cases ha

/-- Values count as unchanged exactly when they are of one kind and agree once truth values inside are read
as numbers, also when they are compared in memory. What is strictly the same is unchanged; and what is
unchanged is strictly the same unless somewhere in it a truth value stands opposite a number. -/
theorem unchanged_iff (ha : a.isRegular = true) (hb : b.isRegular = true) :
    (a.differ b = false ↔ a.kind = b.kind ∧ a.loose = b.loose) ∧
    (a.strict = b.strict → a.differ b = false) ∧
    (a.differ b = false → (a.strict = b.strict ↔
      ∀ path v w, a.reach? path = some v → b.reach? path = some w → ¬ v.Opposes w)) ∧
    (∀ (v : View) (m : Memory) (x y : Datum), (∀ n, v.contents (.cell n) = m.read n) → m.Spells x a →
      m.Spells y b → v.differ x y = .ok false → a.kind = b.kind ∧ a.loose = b.loose) := by
  have hiff := differ_eq_false_iff ha hb
  refine ⟨hiff, ?_, ?_, ?_⟩
  · intro h
    have hflat : AgreeFlat .bool truthNumber a b := by
      intro path v w _ _ hv he
      exact loose_of_flat hv he
    exact hiff.mpr ⟨kind_eq_of_strict h, content_congr isFlatReading_bool h hflat⟩
  · intro h
    constructor
    · intro hs path v w hv hw ho
      have hr := strict_reach? hs path
      rw [hv, hw, Option.map_some, Option.map_some, Option.some.injEq] at hr
      have hk := kind_eq_of_strict hr
      rcases ho with ⟨hv, hw⟩ | ⟨hv, hw⟩
      · rw [hv, hw] at hk
        cases hk
      · rw [hv, hw] at hk
        cases hk
    · intro ho
      refine content_congr isFlatReading_truthNumber (hiff.mp h).2 ?_
      intro path v w hv hw hfv he
      exact strict_of_flat hfv he (ho path v w hv hw)
  · intro v m x y hv hx hy h
    exact hiff.mp (View.differ_ended hv hb hx hy h).symm

/-- Two lists that count as unchanged, in which a truth value stands opposite a number. -/
theorem unchanged_iff_pump :
    (pumpRead.isRegular = true ∧ pumpTurned.isRegular = true) ∧
      pumpRead.differ pumpTurned = false ∧ pumpRead.kind = pumpTurned.kind ∧ pumpRead.loose = pumpTurned.loose ∧
      pumpRead.strict ≠ pumpTurned.strict := by
  have ha : pumpRead.isRegular = true := by decide
  have hb : pumpTurned.isRegular = true := by decide
  have hd : pumpRead.differ pumpTurned = false := by decide
  obtain ⟨hiff, -, hstrict, -⟩ := unchanged_iff ha hb
  refine ⟨⟨ha, hb⟩, hd, (hiff.mp hd).1, (hiff.mp hd).2, ?_⟩
  intro hs
  exact (hstrict hd).mp hs [.member "state", .item 0] _ _ rfl rfl (.inl ⟨rfl, rfl⟩)

/-- A change from a truth value to a number inside of a list counts as none. -/
theorem truth_hidden_inside :
    (Value.list [.bool true]).differ (.list [.int 1]) = false ∧
      (Value.list [.bool true]).strict ≠ (Value.list [.int 1]).strict := by
  refine ⟨by decide, ?_⟩
  intro h
  cases Content.list.inj h

end Value

end LiveSvg
