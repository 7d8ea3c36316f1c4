import LiveSvg.Proofs.Members
import LiveSvg.Proofs.Memory
import LiveSvg.Proofs.Names
/-!
Comparing what values have become in memory. Lists and objects that are one and the same are equal
without a look at what is in them, and a comparison that goes too deep fails; a value without a NaN
that is not too deep is compared as the value that it is.
-/

namespace LiveSvg

open Number (Binary64)
open Script (Datum Memory Members Ref View)

namespace Value

mutual

/-- Whether there is no NaN in a value, and no object in it names a member twice. -/
def isRegular : Value → Bool
  | .float x => !x.isNaN
  | .list xs => regularItems xs
  | .object ms => regularMembers ms
  | _ => true

def regularItems : List Value → Bool
  | [] => true
  | x :: xs => isRegular x && regularItems xs

def regularMembers : List (String × Value) → Bool
  | [] => true
  | (k, x) :: ms => !(ms.any (·.1 == k)) && isRegular x && regularMembers ms

end

mutual

/-- How many levels of lists and objects there are in a value. -/
def depth : Value → Nat
  | .list xs => depthItems xs + 1
  | .object ms => depthMembers ms + 1
  | _ => 0

def depthItems : List Value → Nat
  | [] => 0
  | x :: xs => max (depth x) (depthItems xs)

def depthMembers : List (String × Value) → Nat
  | [] => 0
  | (_, x) :: ms => max (depth x) (depthMembers ms)

end

/-- Whether every comparison with a value comes to an end, and it is equal to itself. -/
def isComparable (v : Value) : Bool := v.isRegular && decide (v.depth < View.maxDepth)

/-! ### Items and members -/

theorem regularMembers_mem {ms : List (String × Value)} (h : regularMembers ms) {k : String} {x : Value}
    (hx : (k, x) ∈ ms) : x.isRegular ∧ Members.get? ms k = some x := by
  induction ms with
  | nil => cases hx
  | cons e ms ih =>
    obtain ⟨j, y⟩ := e
    simp only [regularMembers, Bool.and_eq_true, Bool.not_eq_true', List.any_eq_false, beq_iff_eq] at h
    obtain ⟨⟨hj, hy⟩, hms⟩ := h
    rcases List.mem_cons.mp hx with he | hx
    · cases he
      exact ⟨hy, if_pos rfl⟩
    · have hne : j ≠ k := fun he => hj (k, x) hx he.symm
      exact ⟨(ih hms hx).1, (if_neg hne).trans (ih hms hx).2⟩

theorem depth_le_of_mem {ms : List (String × Value)} {k : String} {x : Value} (hx : (k, x) ∈ ms) :
    x.depth ≤ depthMembers ms := by
  induction ms with
  | nil => cases hx
  | cons e ms ih =>
    obtain ⟨j, y⟩ := e
    rw [depthMembers]
    rcases List.mem_cons.mp hx with he | hx
    · cases he
      exact Nat.le_max_left _ _
    · exact Nat.le_trans (ih hx) (Nat.le_max_right _ _)

theorem regularItems_mem {xs : List Value} (h : regularItems xs) {x : Value} (hx : x ∈ xs) :
    x.isRegular := by
  induction xs with
  | nil => cases hx
  | cons y xs ih =>
    rw [regularItems, Bool.and_eq_true] at h
    rcases List.mem_cons.mp hx with rfl | hx
    · exact h.1
    · exact ih h.2 hx

theorem depth_le_of_mem_items {xs : List Value} {x : Value} (hx : x ∈ xs) : x.depth ≤ depthItems xs := by
  induction xs with
  | nil => cases hx
  | cons y xs ih =>
    rw [depthItems]
    rcases List.mem_cons.mp hx with rfl | hx
    · exact Nat.le_max_left _ _
    · exact Nat.le_trans (ih hx) (Nat.le_max_right _ _)

/-! ### Equality with itself -/

theorem Numeric.same_self {x : Numeric} (h : x.place?.isSome) : x.same x = true := by
  unfold Numeric.same Numeric.compare?
  obtain ⟨p, hp⟩ := Option.isSome_iff_exists.mp h
  simp [hp, Binary64.Place.compare_refl]

mutual

/-- A value without a NaN is equal to itself. -/
theorem same_self : {v : Value} → v.isRegular → v.same v = true
  | .null, _ => rfl
  | .text s, _ => by simp [same]
  | .bool b, _ => by
    rw [same]
    exact Numeric.same_self rfl
  | .int n, _ => by
    rw [same]
    exact Numeric.same_self rfl
  | .float x, h => by
    rw [same]
    refine Numeric.same_self ?_
    cases x <;> first | rfl | cases h
  | .list xs, h => by
    rw [isRegular] at h
    rw [same]
    exact sameItems_self h
  | .object ms, h => by
    rw [isRegular] at h
    rw [same, beq_self_eq_true, Bool.true_and]
    exact sameMembers_self h ms fun _ hm => hm

theorem sameItems_self : {xs : List Value} → regularItems xs → sameItems xs xs = true
  | [], _ => rfl
  | x :: xs, h => by
    rw [regularItems, Bool.and_eq_true] at h
    rw [sameItems, same_self h.1, sameItems_self h.2]
    rfl

theorem sameMembers_self {ms : List (String × Value)} (h : regularMembers ms) :
    (part : List (String × Value)) → (∀ m ∈ part, m ∈ ms) → sameMembers part ms = true
  | [], _ => rfl
  | (k, x) :: part, hm => by
    obtain ⟨hx, hg⟩ := regularMembers_mem h (hm (k, x) List.mem_cons_self)
    rw [sameMembers, hg, sameMembers_self h part fun m hp => hm m (List.mem_cons_of_mem _ hp)]
    simp [same_self hx]

end

theorem sameItems_length {xs ys : List Value} (h : xs.length ≠ ys.length) : sameItems xs ys = false := by
  induction xs generalizing ys with
  | nil =>
    cases ys with
    | nil => exact absurd rfl h
    | cons y ys => rfl
  | cons x xs ih =>
    cases ys with
    | nil => rfl
    | cons y ys =>
      rw [sameItems, ih (by simpa using h), Bool.and_false]

end Value

/-! ### Comparing in memory -/

namespace Script.View

variable {m : Memory} {v : View} {x y : Datum} {a b : Value}

theorem spellsItems_length {items : List Datum} {xs : List Value} (h : m.SpellsItems items xs) :
    items.length = xs.length := by
  induction xs generalizing items with
  | nil =>
    rw [Memory.SpellsItems] at h
    rw [h]
    rfl
  | cons x xs ih =>
    rw [Memory.SpellsItems] at h
    obtain ⟨d, rest, rfl, -, hr⟩ := h
    simp [ih hr]

theorem spellsMembers_length {members : Members} {ms : List (String × Value)}
    (h : m.SpellsMembers members ms) : members.length = ms.length := by
  induction ms generalizing members with
  | nil =>
    rw [Memory.SpellsMembers] at h
    rw [h]
    rfl
  | cons e ms ih =>
    rw [Memory.SpellsMembers] at h
    obtain ⟨d, rest, rfl, -, hr⟩ := h
    simp [ih hr]

/-- What is found in an object stands for what is found in its value. -/
theorem spells_get? {members : Members} {ms : List (String × Value)} (h : m.SpellsMembers members ms)
    (k : String) : match Value.Members.get? ms k with
      | some b => ∃ d, Members.get? members (.text k) = some d ∧ m.Spells d b
      | none => Members.get? members (.text k) = none := by
  induction ms generalizing members with
  | nil =>
    rw [Memory.SpellsMembers] at h
    rw [h]
    rfl
  | cons e ms ih =>
    obtain ⟨j, b⟩ := e
    rw [Memory.SpellsMembers] at h
    obtain ⟨d, rest, rfl, hd, hr⟩ := h
    by_cases hj : j = k
    · rw [Value.Members.get?, if_pos hj, Members.get?, if_pos (by simp [Datum.sameKey, hj])]
      exact ⟨d, rfl, hd⟩
    · rw [Value.Members.get?, if_neg hj, Members.get?, if_neg (by simp [Datum.sameKey, hj])]
      exact ih hr

variable {fuel : Nat}

/-- A datum is compared as the value that it stands for. -/
def Decides (v : View) (m : Memory) (fuel : Nat) (b : Value) : Prop :=
  ∀ x y a, m.Spells x a → m.Spells y b → v.equal fuel x y = .ok (a.same b)

theorem equalItems_spelled {xs ys : List Datum} {as bs : List Value}
    (h : ∀ b ∈ bs, Decides v m fuel b) (hx : m.SpellsItems xs as) (hy : m.SpellsItems ys bs)
    (hl : as.length = bs.length) (same : Bool) :
    ((xs.zip ys).foldlM (fun same (x, y) => if same then v.equal fuel x y else .ok false) same :
      Except Failure Bool) = .ok (same && Value.sameItems as bs) := by
  induction as generalizing xs ys bs same with
  | nil =>
    obtain rfl : bs = [] := List.length_eq_zero_iff.mp hl.symm
    rw [Memory.SpellsItems] at hx
    rw [hx]
    simp [Value.sameItems]
    rfl
  | cons a as ih =>
    cases bs with
    | nil => cases hl
    | cons b bs =>
      rw [Memory.SpellsItems] at hx hy
      obtain ⟨x, xs, rfl, hxa, hx⟩ := hx
      obtain ⟨y, ys, rfl, hyb, hy⟩ := hy
      have hi := fun same => ih (fun b hb => h b (List.mem_cons_of_mem _ hb)) hx hy (by simpa using hl) same
      rw [List.zip_cons_cons, List.foldlM_cons, Value.sameItems]
      cases same with
      | false => exact hi false
      | true =>
        dsimp only
        rw [if_pos rfl, h b List.mem_cons_self x y a hxa hyb]
        exact hi (a.same b)

theorem equalMembers_spelled {ms ns : Members} {as bs : List (String × Value)}
    (h : ∀ k b, Value.Members.get? bs k = some b → Decides v m fuel b) (hx : m.SpellsMembers ms as)
    (hy : m.SpellsMembers ns bs) (same : Bool) :
    (ms.foldlM (fun same (k, x) =>
      if same then
        match Members.get? ns k with
        | some y => v.equal fuel x y
        | none => .ok false
      else .ok false) same : Except Failure Bool) = .ok (same && Value.sameMembers as bs) := by
  induction as generalizing ms same with
  | nil =>
    rw [Memory.SpellsMembers] at hx
    rw [hx]
    simp [Value.sameMembers]
    rfl
  | cons e as ih =>
    obtain ⟨k, a⟩ := e
    rw [Memory.SpellsMembers] at hx
    obtain ⟨x, ms, rfl, hxa, hx⟩ := hx
    rw [List.foldlM_cons, Value.sameMembers]
    cases same with
    | false => exact ih hx false
    | true =>
      have hg := spells_get? hy k
      dsimp only
      rw [if_pos rfl]
      cases hb : Value.Members.get? bs k with
      | none =>
        rw [hb] at hg
        rw [hg]
        exact ih hx false
      | some b =>
        rw [hb] at hg
        obtain ⟨y, hg, hyb⟩ := hg
        rw [hg]
        dsimp only
        rw [h k b hb x y a hxa hyb]
        exact ih hx (a.same b)

/-- Where one of two data is no list or object, there is nothing in them to compare. -/
theorem equal_flat (hf : (∀ r, x ≠ .ref r) ∨ ∀ r, y ≠ .ref r) (hx : m.Spells x a) (hy : m.Spells y b) :
    v.equal (fuel + 1) x y = .ok (a.same b) := by
  cases a <;> cases b <;> simp only [Memory.Spells] at hx hy
  all_goals first
    | subst hx
    | obtain ⟨n, _, rfl, -⟩ := hx
  all_goals first
    | subst hy
    | obtain ⟨k, _, rfl, -⟩ := hy
  all_goals
    simp [View.equal, Datum.sameKey, Datum.numeric?, Value.same, Value.sameNumber, Value.numeric?] at hf ⊢

variable {n k : Nat} {as bs : List Value} {ms ns : List (String × Value)}

/-- Two lists are compared one level further down. -/
theorem equal_lists (hv : ∀ n, v.contents (.cell n) = m.read n) (hne : n ≠ k)
    (h : ∀ b ∈ bs, Decides v m fuel b) (hx : m.Spells (.ref (.cell n)) (.list as))
    (hy : m.Spells (.ref (.cell k)) (.list bs)) :
    v.equal (fuel + 2) (.ref (.cell n)) (.ref (.cell k)) = .ok ((Value.list as).same (.list bs)) := by
  rw [Memory.Spells] at hx hy
  obtain ⟨_, xs, ⟨⟩, -, hrx, hxs⟩ := hx
  obtain ⟨_, ys, ⟨⟩, -, hry, hys⟩ := hy
  rw [View.equal, if_neg (by simpa using hne), hv, hv, hrx, hry]
  dsimp only
  rw [spellsItems_length hxs, spellsItems_length hys, Value.same]
  split
  · rw [View.equalItems]
    exact equalItems_spelled h hxs hys ‹_› true
  · rw [Value.sameItems_length ‹_›]

/-- So are two objects. -/
theorem equal_objects (hv : ∀ n, v.contents (.cell n) = m.read n) (hne : n ≠ k)
    (h : ∀ j b, Value.Members.get? ns j = some b → Decides v m fuel b)
    (hx : m.Spells (.ref (.cell n)) (.object ms)) (hy : m.Spells (.ref (.cell k)) (.object ns)) :
    v.equal (fuel + 2) (.ref (.cell n)) (.ref (.cell k)) =
      .ok ((Value.object ms).same (.object ns)) := by
  rw [Memory.Spells] at hx hy
  obtain ⟨_, xs, ⟨⟩, -, hrx, hxs⟩ := hx
  obtain ⟨_, ys, ⟨⟩, -, hry, hys⟩ := hy
  rw [View.equal, if_neg (by simpa using hne), hv, hv, hrx, hry]
  dsimp only
  rw [spellsMembers_length hxs, spellsMembers_length hys, Value.same]
  split
  · rename_i hl
    rw [hl, beq_self_eq_true, View.equalMembers]
    exact equalMembers_spelled h hxs hys true
  · rename_i hl
    rw [beq_eq_false_iff_ne.mpr hl, Bool.false_and]

/-- A list is equal to no object. -/
theorem equal_mixed (hv : ∀ n, v.contents (.cell n) = m.read n)
    (hx : m.Spells (.ref (.cell n)) (.list as)) (hy : m.Spells (.ref (.cell k)) (.object ns)) :
    v.equal (fuel + 1) (.ref (.cell n)) (.ref (.cell k)) = .ok false ∧
      v.equal (fuel + 1) (.ref (.cell k)) (.ref (.cell n)) = .ok false := by
  simp only [Memory.Spells] at hx hy
  obtain ⟨_, xs, ⟨⟩, -, hrx, -⟩ := hx
  obtain ⟨_, ys, ⟨⟩, -, hry, -⟩ := hy
  have hne : n ≠ k := by
    rintro rfl
    cases hrx.symm.trans hry
  have hne' : Ref.cell n ≠ Ref.cell k := by simpa using hne
  rw [View.equal, if_neg hne', View.equal, if_neg hne'.symm, hv, hv, hrx, hry]
  exact ⟨rfl, rfl⟩

/-- What stands for a value is a cell, if it is a list or an object at all. -/
theorem spells_cell {r : Ref} (h : m.Spells (.ref r) a) :
    (∃ n, r = .cell n) ∧ ((∃ as, a = .list as) ∨ ∃ ms, a = .object ms) := by
  cases a <;> simp only [Memory.Spells, reduceCtorEq] at h
  · obtain ⟨n, _, ⟨⟩, -⟩ := h
    exact ⟨⟨n, rfl⟩, .inl ⟨_, rfl⟩⟩
  · obtain ⟨n, _, ⟨⟩, -⟩ := h
    exact ⟨⟨n, rfl⟩, .inr ⟨_, rfl⟩⟩

/-- With enough levels, what is compared with a value without a NaN is compared as the value that it
stands for. -/
theorem decides_of_depth (hv : ∀ n, v.contents (.cell n) = m.read n) {fuel : Nat} (hb : b.isRegular)
    (hf : 2 * b.depth < fuel) : Decides v m fuel b := by
  induction fuel using Nat.strongRecOn generalizing b with
  | ind fuel ih =>
  intro x y a hx hy
  obtain ⟨fuel, rfl⟩ : ∃ f, fuel = f + 1 := ⟨fuel - 1, by omega⟩
  by_cases hr : (∀ r, x ≠ .ref r) ∨ ∀ r, y ≠ .ref r
  · exact equal_flat hr hx hy
  push Not at hr
  obtain ⟨⟨r, rfl⟩, ⟨s, rfl⟩⟩ := hr
  obtain ⟨⟨n, rfl⟩, ha⟩ := spells_cell hx
  obtain ⟨⟨k, rfl⟩, hb'⟩ := spells_cell hy
  by_cases hne : n = k
  · subst hne
    obtain rfl := hx.unique hy
    rw [View.equal, if_pos rfl, Value.same_self hb]
  rcases ha with ⟨as, rfl⟩ | ⟨ms, rfl⟩ <;> rcases hb' with ⟨bs, rfl⟩ | ⟨ns, rfl⟩
  · rw [Value.isRegular] at hb
    rw [Value.depth] at hf
    obtain ⟨fuel, rfl⟩ : ∃ f, fuel = f + 1 := ⟨fuel - 1, by omega⟩
    refine equal_lists hv hne (fun b hm => ?_) hx hy
    have := Value.depth_le_of_mem_items hm
    exact ih fuel (by omega) (Value.regularItems_mem hb hm) (by omega)
  · exact (equal_mixed hv hx hy).1
  · exact (equal_mixed hv hy hx).2
  · rw [Value.isRegular] at hb
    rw [Value.depth] at hf
    obtain ⟨fuel, rfl⟩ : ∃ f, fuel = f + 1 := ⟨fuel - 1, by omega⟩
    refine equal_objects hv hne (fun j b hg => ?_) hx hy
    have hm := Value.Members.mem_of_get? hg
    have := Value.depth_le_of_mem hm
    exact ih fuel (by omega) (Value.regularMembers_mem hb hm).1 (by omega)

/-- The kind of a datum is that of the value that it stands for. -/
theorem kind_spelled (hv : ∀ n, v.contents (.cell n) = m.read n) (hx : m.Spells x a) :
    v.kind x = (a.kind, "") := by
  cases a <;> simp only [Memory.Spells] at hx
  case list | object =>
    obtain ⟨n, _, rfl, -, hr, -⟩ := hx
    rw [View.kind, hv, hr]
    rfl
  all_goals
    subst hx
    rfl

/-- Whether a new value counts as a change is decided as it is for the values themselves. -/
theorem differ_spelled (hv : ∀ n, v.contents (.cell n) = m.read n) (hb : b.isComparable)
    (hx : m.Spells x a) (hy : m.Spells y b) : v.differ x y = .ok (a.differ b) := by
  rw [Value.isComparable, Bool.and_eq_true, decide_eq_true_eq] at hb
  have he : v.same x y = .ok (a.same b) :=
    decides_of_depth hv hb.1 (Nat.mul_lt_mul_of_pos_left hb.2 Nat.two_pos) x y a hx hy
  rw [View.differ, kind_spelled hv hx, kind_spelled hv hy, he, Value.differ]
  by_cases hk : a.kind = b.kind
  · simp [hk]
  · simp [hk]

/-! ### Comparisons that come to an end -/

theorem foldlM_ok_of {f g : Bool → β → Except Failure Bool} {l : List β} {s r : Bool}
    (h : ∀ s e r, f s e = .ok r → g s e = .ok r) (hf : l.foldlM f s = .ok r) : l.foldlM g s = .ok r := by
  induction l generalizing s with
  | nil => exact hf
  | cons e l ih =>
    rw [List.foldlM_cons] at hf ⊢
    cases he : f s e with
    | error failure =>
      rw [he] at hf
      cases hf
    | ok t =>
      rw [he] at hf
      rw [h s e t he]
      exact ih hf

/-- What has been found equal or unequal on some levels is found so on more of them. -/
theorem equal_succ (v : View) (fuel : Nat) :
    (∀ x y r, v.equal fuel x y = .ok r → v.equal (fuel + 1) x y = .ok r) ∧
    (∀ xs ys r, v.equalItems fuel xs ys = .ok r → v.equalItems (fuel + 1) xs ys = .ok r) ∧
    (∀ ms ns r, v.equalMembers fuel ms ns = .ok r → v.equalMembers (fuel + 1) ms ns = .ok r) := by
  induction fuel with
  | zero =>
    refine ⟨fun x y r h => ?_, fun xs ys r h => ?_, fun ms ns r h => ?_⟩
    · rw [View.equal] at h
      cases h
    · rw [View.equalItems] at h
      cases h
    · rw [View.equalMembers] at h
      cases h
  | succ fuel ih =>
    obtain ⟨ihEqual, ihItems, ihMembers⟩ := ih
    refine ⟨fun x y r h => ?_, fun xs ys r h => ?_, fun ms ns r h => ?_⟩
    · rw [View.equal.eq_def] at h ⊢
      dsimp only at h ⊢
      split at h
      · next r s =>
        by_cases hrs : r = s
        · rw [if_pos hrs] at h ⊢
          exact h
        · rw [if_neg hrs] at h ⊢
          split at h
          · next xs ys _ _ =>
            by_cases hl : xs.length = ys.length
            · rw [if_pos hl] at h ⊢
              exact ihItems _ _ _ h
            · rw [if_neg hl] at h ⊢
              exact h
          · next ms ns _ _ =>
            by_cases hl : ms.length = ns.length
            · rw [if_pos hl] at h ⊢
              exact ihMembers _ _ _ h
            · rw [if_neg hl] at h ⊢
              exact h
          · exact h
      · exact h
      · exact h
    · rw [View.equalItems] at h ⊢
      refine foldlM_ok_of (fun s e r he => ?_) h
      obtain ⟨x, y⟩ := e
      cases s with
      | false => exact he
      | true => exact ihEqual x y r he
    · rw [View.equalMembers] at h ⊢
      refine foldlM_ok_of (fun s e r he => ?_) h
      obtain ⟨k, x⟩ := e
      cases s with
      | false => exact he
      | true =>
        dsimp only at he ⊢
        rw [if_pos rfl] at he ⊢
        cases hg : Members.get? ns k with
        | none =>
          rw [hg] at he
          exact he
        | some y =>
          rw [hg] at he
          exact ihEqual x y r he

theorem equal_le {fuel more : Nat} (hl : fuel ≤ more) {r : Bool} (h : v.equal fuel x y = .ok r) :
    v.equal more x y = .ok r := by
  induction hl with
  | refl => exact h
  | step _ ih => exact (equal_succ v _).1 x y r ih

/-- Every comparison that comes to an end is decided as it is for the values themselves, however deep
they are. -/
theorem differ_ended (hv : ∀ n, v.contents (.cell n) = m.read n) (hb : b.isRegular)
    (hx : m.Spells x a) (hy : m.Spells y b) {r : Bool} (h : v.differ x y = .ok r) : r = a.differ b := by
  rw [View.differ, kind_spelled hv hx, kind_spelled hv hy] at h
  rw [Value.differ]
  by_cases hk : a.kind = b.kind
  · cases he : v.same x y with
    | error failure =>
      rw [he] at h
      simp [hk] at h
    | ok s =>
      have hlong := equal_le (Nat.le_max_left _ (2 * b.depth + 1)) he
      have hdeep := decides_of_depth hv hb (Nat.lt_of_lt_of_le (Nat.lt_succ_self _)
        (Nat.le_max_right (2 * maxDepth) (2 * b.depth + 1))) x y a hx hy
      obtain rfl : s = a.same b := Except.ok.inj (hlong.symm.trans hdeep)
      rw [he] at h
      simp only [hk, bne_self_eq_false, Bool.false_eq_true, if_false] at h
      rw [hk, bne_self_eq_false, Bool.false_or]
      exact (Except.ok.inj h).symm
  · have hne : (a.kind != b.kind) = true := bne_iff_ne.mpr hk
    have hpair : ((a.kind, "") != (b.kind, "")) = true := bne_iff_ne.mpr fun he => hk (Prod.mk.inj he).1
    rw [if_pos hpair] at h
    rw [hne, Bool.true_or]
    exact (Except.ok.inj h).symm

end Script.View

end LiveSvg
