import LiveSvg.Proofs.Comparing
import Mathlib.Data.List.Perm.Subperm
import Mathlib.Data.Rat.Cast.Order
import Mathlib.Order.WithBot
/-!
What equality of values compares: their contents, with numbers by their exact size and objects by what is
found under each key. Two values without a NaN are equal exactly when they have the same content once truth
values are read as numbers, so that being unchanged is an equivalence that no order of keys disturbs.
-/

namespace LiveSvg

open Number (Binary64)
open Script (Datum Memory View)

/-! ### Sizes of numbers -/

namespace Number.Binary64.Place

/-- A size: a fraction, or beyond all of them on either side. -/
abbrev Size := WithBot (WithTop ℚ)

def size : Place → Size
  | .below => ⊥
  | .point n d => ((n / d : ℚ) : WithTop ℚ)
  | .above => ((⊤ : WithTop ℚ) : WithBot (WithTop ℚ))

theorem compare_eq_iff_size {p q : Place} (hp : p.Proper) (hq : q.Proper) :
    p.compare q = .eq ↔ p.size = q.size := by
  cases p <;> cases q
  case point.point n d m e =>
    have hd : (d : ℚ) ≠ 0 := Nat.cast_ne_zero.mpr (Nat.pos_iff_ne_zero.mp hp)
    have he : (e : ℚ) ≠ 0 := Nat.cast_ne_zero.mpr (Nat.pos_iff_ne_zero.mp hq)
    rw [compare_point, size, size, WithBot.coe_inj, WithTop.coe_inj, div_eq_div_iff hd he]
    exact_mod_cast Iff.rfl
  all_goals simp [compare, size]

end Number.Binary64.Place

namespace Value

/-- The size of a number that is one. -/
def Numeric.size? (x : Numeric) : Option Binary64.Place.Size := x.place?.map Binary64.Place.size

theorem Numeric.same_iff_size {x y : Numeric} (hx : x.size?.isSome) :
    x.same y = true ↔ x.size? = y.size? := by
  obtain ⟨p, hp⟩ := Option.isSome_iff_exists.mp (by simpa [size?] using hx : x.place?.isSome)
  rw [same_iff, size?, size?, hp]
  constructor
  · rintro ⟨p', q, hp', hq, he⟩
    obtain rfl := Option.some.inj hp'
    rw [hq, Option.map_some, Option.map_some,
      (Binary64.Place.compare_eq_iff_size (place?_proper hp) (place?_proper hq)).mp he]
  · intro h
    obtain ⟨q, hq, he⟩ := Option.map_eq_some_iff.mp h.symm
    exact ⟨p, q, rfl, hq,
      (Binary64.Place.compare_eq_iff_size (place?_proper hp) (place?_proper hq)).mpr he.symm⟩

/-! ### Contents -/

/-- What a value says, however it is written: numbers by their size, objects by what is found under
each key. -/
inductive Content where
  | null
  | bool (b : Bool)
  | number (size : Option Binary64.Place.Size)
  | text (s : String)
  | list (items : List Content)
  | object (members : String → Option Content)

mutual

/-- The content of a value, with truth values read in a certain way. -/
def content (truth : Bool → Content) : Value → Content
  | .null => .null
  | .bool b => truth b
  | .int n => .number (Numeric.int n).size?
  | .float x => .number (Numeric.float x).size?
  | .text s => .text s
  | .list xs => .list (contents truth xs)
  | .object ms => .object (contentAt truth ms)

def contents (truth : Bool → Content) : List Value → List Content
  | [] => []
  | x :: xs => content truth x :: contents truth xs

def contentAt (truth : Bool → Content) : List (String × Value) → String → Option Content
  | [], _ => none
  | (k, x) :: ms, key => if k = key then some (content truth x) else contentAt truth ms key

end

/-- The number that a truth value counts as when it is compared with one. -/
def truthNumber (b : Bool) : Content := .number (Numeric.int (if b then 1 else 0)).size?

/-- The content by which equality goes, where a truth value is the number one or zero. -/
abbrev loose : Value → Content := content truthNumber

/-- The content in which truth values are no numbers. -/
abbrev strict : Value → Content := content .bool

variable {truth : Bool → Content} {a b c : Value} {xs ys : List Value} {ms ns : List (String × Value)}

theorem contents_eq_map : contents truth xs = xs.map (content truth) := by
  induction xs with
  | nil => rfl
  | cons x xs ih => rw [contents, ih, List.map_cons]

theorem contentAt_eq_get? (key : String) :
    contentAt truth ms key = (Members.get? ms key).map (content truth) := by
  induction ms with
  | nil => rfl
  | cons m ms ih =>
    obtain ⟨k, x⟩ := m
    rw [contentAt, Members.get?, ih]
    split <;> rfl

/-! ### Regular objects -/

theorem regularMembers_iff :
    regularMembers ms = true ↔ (ms.map (·.1)).Nodup ∧ ∀ m ∈ ms, m.2.isRegular = true := by
  induction ms with
  | nil => simp [regularMembers]
  | cons m ms ih =>
    obtain ⟨k, x⟩ := m
    rw [regularMembers, Bool.and_eq_true, Bool.and_eq_true, ih, List.map_cons, List.nodup_cons,
      List.forall_mem_cons]
    have hk : (!ms.any fun m => m.1 == k) = true ↔ k ∉ ms.map (·.1) := by
      rw [Bool.not_eq_true', List.any_eq_false, List.mem_map]
      simp only [beq_iff_eq, not_exists, not_and]
    rw [hk]
    tauto

/-- Among as many members, those of one object are all that the other one has. -/
theorem keys_perm (hms : (ms.map (·.1)).Nodup) (hl : ms.length = ns.length)
    (h : ∀ k ∈ ms.map (·.1), k ∈ ns.map (·.1)) : (ms.map (·.1)).Perm (ns.map (·.1)) := by
  refine (hms.subperm h).perm_of_length_le ?_
  rw [List.length_map, List.length_map, hl]

/-! ### Equality and contents -/

theorem size?_isSome_of_regular {x : Binary64} (h : (Value.float x).isRegular = true) :
    (Numeric.float x).size?.isSome := by
  rw [isRegular, Bool.not_eq_true'] at h
  obtain ⟨p, hp⟩ := Binary64.place?_isSome h
  simp [Numeric.size?, Numeric.place?, hp]

/-- A number is equal to what counts as a number of the same size. -/
theorem sameNumber_iff {x : Numeric} (hx : x.size?.isSome) :
    sameNumber x b = true ↔ Content.number x.size? = b.loose := by
  cases b <;> simp [sameNumber, numeric?, content, truthNumber, Numeric.same_iff_size hx]

theorem sameMembers_iff (h : ∀ m ∈ ms, ∀ w, Members.get? ns m.1 = some w →
      (m.2.same w = true ↔ m.2.loose = w.loose)) :
    sameMembers ms ns = true ↔
      ∀ m ∈ ms, (Members.get? ns m.1).map loose = some m.2.loose := by
  induction ms with
  | nil => simp [sameMembers]
  | cons m ms ih =>
    obtain ⟨k, x⟩ := m
    obtain ⟨hx, hms⟩ := List.forall_mem_cons.mp h
    rw [sameMembers, Bool.and_eq_true, ih hms, List.forall_mem_cons]
    refine and_congr_left fun _ => ?_
    dsimp only at hx ⊢
    cases hg : Members.get? ns k with
    | none => simp
    | some w =>
      rw [Option.map_some, Option.some.injEq, eq_comm (b := x.loose)]
      exact hx w hg

/-- Objects with the same number of members, in which the same is found under the keys of one, have
the same content, and conversely. -/
theorem object_loose_iff (hms : (ms.map (·.1)).Nodup) (hns : (ns.map (·.1)).Nodup) :
    (ms.length = ns.length ∧ ∀ m ∈ ms, (Members.get? ns m.1).map loose = some m.2.loose) ↔
      contentAt truthNumber ms = contentAt truthNumber ns := by
  constructor
  · rintro ⟨hl, h⟩
    have hkeys : (ms.map (·.1)).Perm (ns.map (·.1)) := by
      refine keys_perm hms hl fun k hk => ?_
      obtain ⟨m, hm, rfl⟩ := List.mem_map.mp hk
      obtain ⟨w, hw, -⟩ := Option.map_eq_some_iff.mp (h m hm)
      exact List.mem_map_of_mem (f := (·.1)) (Members.mem_of_get? hw)
    funext key
    rw [contentAt_eq_get?, contentAt_eq_get?]
    cases hg : Members.get? ms key with
    | none =>
      have hn : key ∉ ns.map (·.1) := mt hkeys.mem_iff.mpr (Members.get?_eq_none_iff.mp hg)
      rw [Members.get?_eq_none_iff.mpr hn]
    | some x => exact (h _ (Members.mem_of_get? hg)).symm
  · intro h
    have hget : ∀ key, (Members.get? ms key).map loose = (Members.get? ns key).map loose := fun key => by
      rw [← contentAt_eq_get?, ← contentAt_eq_get?, h]
    have hmem : ∀ key, key ∈ ms.map (·.1) ↔ key ∈ ns.map (·.1) := fun key => by
      have := congrArg Option.isNone (hget key)
      rw [Option.isNone_map, Option.isNone_map, Bool.eq_iff_iff, Option.isNone_iff_eq_none,
        Option.isNone_iff_eq_none, Members.get?_eq_none_iff, Members.get?_eq_none_iff] at this
      exact not_iff_not.mp this
    constructor
    · have := ((List.perm_ext_iff_of_nodup hms hns).mpr hmem).length_eq
      rwa [List.length_map, List.length_map] at this
    · intro m hm
      rw [← hget, Members.get?_of_mem hms hm, Option.map_some]

mutual

/-- Values without a NaN are equal when they have the same content, truth values being numbers. -/
theorem same_iff_loose : {a b : Value} → a.isRegular = true → b.isRegular = true →
    (a.same b = true ↔ a.loose = b.loose)
  | .null, b, _, _ => by cases b <;> simp [same, content, truthNumber]
  | .text s, b, _, _ => by cases b <;> simp [same, content, truthNumber]
  | .bool t, b, _, _ => by
    rw [same, loose, content, truthNumber]
    exact sameNumber_iff rfl
  | .int n, b, _, _ => by
    rw [same, loose, content]
    exact sameNumber_iff rfl
  | .float x, b, ha, _ => by
    rw [same, loose, content]
    exact sameNumber_iff (size?_isSome_of_regular ha)
  | .list xs, b, ha, hb => by
    rw [isRegular] at ha
    cases b
    case list ys =>
      rw [isRegular] at hb
      rw [same, loose, content, content, Content.list.injEq]
      exact sameItems_iff ha hb
    all_goals simp [same, content, truthNumber]
  | .object ms, b, ha, hb => by
    rw [isRegular] at ha
    cases b
    case object ns =>
      rw [isRegular] at hb
      have hms := regularMembers_iff.mp ha
      have hns := regularMembers_iff.mp hb
      rw [same, loose, content, content, Content.object.injEq, Bool.and_eq_true, beq_iff_eq,
        sameMembers_iff fun m hm w hw => membersSame_iff ha ms (fun _ h => h) m hm w
          (hns.2 _ (Members.mem_of_get? hw))]
      exact object_loose_iff hms.1 hns.1
    all_goals simp [same, content, truthNumber]

theorem sameItems_iff : {xs ys : List Value} → regularItems xs = true → regularItems ys = true →
    (sameItems xs ys = true ↔ contents truthNumber xs = contents truthNumber ys)
  | [], ys, _, _ => by cases ys <;> simp [sameItems, contents]
  | x :: xs, ys, hx, hy => by
    rw [regularItems, Bool.and_eq_true] at hx
    cases ys with
    | nil => simp [sameItems, contents]
    | cons y ys =>
      rw [regularItems, Bool.and_eq_true] at hy
      rw [sameItems, contents, contents, List.cons.injEq, Bool.and_eq_true, same_iff_loose hx.1 hy.1,
        sameItems_iff hx.2 hy.2]

theorem membersSame_iff {ms : List (String × Value)} (h : regularMembers ms = true) :
    (part : List (String × Value)) → (∀ m ∈ part, m ∈ ms) → ∀ m ∈ part, ∀ w : Value, w.isRegular = true →
      (m.2.same w = true ↔ m.2.loose = w.loose)
  | [], _, m, hm, _, _ => absurd hm List.not_mem_nil
  | (k, x) :: part, hp, m, hm, w, hw => by
    rcases List.mem_cons.mp hm with rfl | hm
    · exact same_iff_loose ((regularMembers_iff.mp h).2 _ (hp _ List.mem_cons_self)) hw
    · exact membersSame_iff h part (fun n hn => hp n (List.mem_cons_of_mem _ hn)) m hm w hw

end

/-- A value counts as unchanged when it is of the same kind and has the same content, truth values
inside being numbers. -/
theorem differ_eq_false_iff (ha : a.isRegular = true) (hb : b.isRegular = true) :
    a.differ b = false ↔ a.kind = b.kind ∧ a.loose = b.loose := by
  rw [differ, Bool.or_eq_false_iff, Bool.not_eq_false', same_iff_loose ha hb, bne_eq_false_iff_eq]

end Value

end LiveSvg
