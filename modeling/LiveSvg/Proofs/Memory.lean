import LiveSvg.Script.Memory
/-!
How the memory of scripts grows and is written to, and which values can be read from it.
-/

namespace LiveSvg.Script.Memory

/-- More has been made, and nothing that was there has changed. -/
def Grows (m m' : Memory) : Prop := ∃ new, m'.cells = m.cells ++ new

theorem grows_refl (m : Memory) : m.Grows m := ⟨#[], by simp⟩

theorem grows_trans {a b c : Memory} (h : a.Grows b) (k : b.Grows c) : a.Grows c := by
  obtain ⟨x, hx⟩ := h
  obtain ⟨y, hy⟩ := k
  exact ⟨x ++ y, by rw [hy, hx, Array.append_assoc]⟩

theorem add_grows (m : Memory) (c : Contents) : m.Grows (m.add c).2 := ⟨#[c], by simp [add]⟩

mutual

theorem load_grows (m : Memory) : (v : Value) → m.Grows (m.load v).2
  | .list xs => by
    rw [load]
    exact grows_trans (loadItems_grows m xs) (add_grows _ _)
  | .object ms => by
    rw [load]
    exact grows_trans (loadMembers_grows m ms) (add_grows _ _)
  | .null | .bool _ | .int _ | .float _ | .text _ => by rw [load]; exact grows_refl m

theorem loadItems_grows (m : Memory) : (xs : List Value) → m.Grows (loadItems m xs).2
  | [] => by rw [loadItems]; exact grows_refl m
  | x :: xs => by
    rw [loadItems]
    exact grows_trans (load_grows m x) (loadItems_grows _ xs)

theorem loadMembers_grows (m : Memory) : (ms : List (String × Value)) → m.Grows (loadMembers m ms).2
  | [] => by rw [loadMembers]; exact grows_refl m
  | (_, x) :: ms => by
    rw [loadMembers]
    exact grows_trans (load_grows m x) (loadMembers_grows _ ms)

end

theorem Grows.size_le {m m' : Memory} (h : m.Grows m') : m.cells.size ≤ m'.cells.size := by
  obtain ⟨new, hn⟩ := h
  rw [hn, Array.size_append]
  omega

theorem Grows.read {m m' : Memory} (h : m.Grows m') {n : Nat} (hn : n < m.cells.size) :
    m'.read n = m.read n := by
  obtain ⟨new, hm⟩ := h
  unfold Memory.read
  rw [hm, Array.getElem?_append_left hn]

theorem read_add (m : Memory) (c : Contents) : (m.add c).2.read m.cells.size = c := by
  simp [Memory.read, add]

mutual

/-- A datum stands for a value: read from memory it is that value. -/
def Spells (m : Memory) (d : Datum) : Value → Prop
  | .null => d = .null
  | .bool b => d = .bool b
  | .int n => d = .int n
  | .float x => d = .float x
  | .text s => d = .text s
  | .list xs => ∃ n items, d = .ref (.cell n) ∧ n < m.cells.size ∧ m.read n = .list items ∧
    SpellsItems m items xs
  | .object ms => ∃ n members, d = .ref (.cell n) ∧ n < m.cells.size ∧
    m.read n = .object members ∧ SpellsMembers m members ms

def SpellsItems (m : Memory) (items : List Datum) : List Value → Prop
  | [] => items = []
  | x :: xs => ∃ d rest, items = d :: rest ∧ Spells m d x ∧ SpellsItems m rest xs

def SpellsMembers (m : Memory) (members : Members) : List (String × Value) → Prop
  | [] => members = []
  | (k, x) :: ms => ∃ d rest, members = (.text k, d) :: rest ∧ Spells m d x ∧ SpellsMembers m rest ms

end

mutual

theorem Spells.grow {m m' : Memory} (h : m.Grows m') {d : Datum} :
    {v : Value} → m.Spells d v → m'.Spells d v
  | .list xs, hs => by
    rw [Spells] at hs ⊢
    obtain ⟨n, items, hd, hn, hr, hi⟩ := hs
    exact ⟨n, items, hd, Nat.lt_of_lt_of_le hn h.size_le, (h.read hn).trans hr, hi.grow h⟩
  | .object ms, hs => by
    rw [Spells] at hs ⊢
    obtain ⟨n, members, hd, hn, hr, hi⟩ := hs
    exact ⟨n, members, hd, Nat.lt_of_lt_of_le hn h.size_le, (h.read hn).trans hr, hi.grow h⟩
  | .null, hs | .bool _, hs | .int _, hs | .float _, hs | .text _, hs => by
    rw [Spells] at hs ⊢
    exact hs

theorem SpellsItems.grow {m m' : Memory} (h : m.Grows m') {items : List Datum} :
    {xs : List Value} → m.SpellsItems items xs → m'.SpellsItems items xs
  | [], hs => by rw [SpellsItems] at hs ⊢; exact hs
  | x :: xs, hs => by
    rw [SpellsItems] at hs ⊢
    obtain ⟨d, rest, hi, hd, hr⟩ := hs
    exact ⟨d, rest, hi, hd.grow h, hr.grow h⟩

theorem SpellsMembers.grow {m m' : Memory} (h : m.Grows m') {members : Members} :
    {ms : List (String × Value)} → m.SpellsMembers members ms → m'.SpellsMembers members ms
  | [], hs => by rw [SpellsMembers] at hs ⊢; exact hs
  | (k, x) :: ms, hs => by
    rw [SpellsMembers] at hs ⊢
    obtain ⟨d, rest, hi, hd, hr⟩ := hs
    exact ⟨d, rest, hi, hd.grow h, hr.grow h⟩

end

mutual

/-- What has been loaded stands for what it was loaded from. -/
theorem load_spells (m : Memory) : (v : Value) → (m.load v).2.Spells (m.load v).1 v
  | .list xs => by
    rw [load, Spells]
    have hi := loadItems_spells m xs
    exact ⟨_, _, rfl, by simp [add], read_add _ _, hi.grow (add_grows _ _)⟩
  | .object ms => by
    rw [load, Spells]
    have hi := loadMembers_spells m ms
    exact ⟨_, _, rfl, by simp [add], read_add _ _, hi.grow (add_grows _ _)⟩
  | .null | .bool _ | .int _ | .float _ | .text _ => by rw [load, Spells]

theorem loadItems_spells (m : Memory) : (xs : List Value) →
    (loadItems m xs).2.SpellsItems (loadItems m xs).1 xs
  | [] => by rw [loadItems, SpellsItems]
  | x :: xs => by
    rw [loadItems, SpellsItems]
    have hd := load_spells m x
    exact ⟨_, _, rfl, hd.grow (loadItems_grows _ _), loadItems_spells _ xs⟩

theorem loadMembers_spells (m : Memory) : (ms : List (String × Value)) →
    (loadMembers m ms).2.SpellsMembers (loadMembers m ms).1 ms
  | [] => by rw [loadMembers, SpellsMembers]
  | (k, x) :: ms => by
    rw [loadMembers, SpellsMembers]
    have hd := load_spells m x
    exact ⟨_, _, rfl, hd.grow (loadMembers_grows _ _), loadMembers_spells _ ms⟩

end

mutual

/-- A datum stands for one value only. -/
theorem Spells.unique {m : Memory} {d : Datum} : {u v : Value} → m.Spells d u → m.Spells d v → u = v
  | .list xs, v, hu, hv => by
    rw [Spells] at hu
    obtain ⟨n, items, rfl, -, hr, hi⟩ := hu
    cases v <;> simp only [Spells, reduceCtorEq] at hv
    · obtain ⟨k, items', ⟨⟩, -, hr', hi'⟩ := hv
      cases hr.symm.trans hr'
      rw [hi.unique hi']
    · obtain ⟨k, members, ⟨⟩, -, hr', -⟩ := hv
      cases hr.symm.trans hr'
  | .object ms, v, hu, hv => by
    rw [Spells] at hu
    obtain ⟨n, members, rfl, -, hr, hi⟩ := hu
    cases v <;> simp only [Spells, reduceCtorEq] at hv
    · obtain ⟨k, items, ⟨⟩, -, hr', -⟩ := hv
      cases hr.symm.trans hr'
    · obtain ⟨k, members', ⟨⟩, -, hr', hi'⟩ := hv
      cases hr.symm.trans hr'
      rw [hi.unique hi']
  | .null, v, hu, hv | .bool _, v, hu, hv | .int _, v, hu, hv | .float _, v, hu, hv
  | .text _, v, hu, hv => by
    rw [Spells] at hu
    subst hu
    cases v <;> simp [Spells] at hv ⊢
    all_goals exact hv

theorem SpellsItems.unique {m : Memory} {items : List Datum} : {xs ys : List Value} →
    m.SpellsItems items xs → m.SpellsItems items ys → xs = ys
  | [], ys, hx, hy => by
    rw [SpellsItems] at hx
    subst hx
    cases ys with
    | nil => rfl
    | cons y ys => simp [SpellsItems] at hy
  | x :: xs, ys, hx, hy => by
    rw [SpellsItems] at hx
    obtain ⟨d, rest, rfl, hd, hr⟩ := hx
    cases ys with
    | nil => simp [SpellsItems] at hy
    | cons y ys =>
      rw [SpellsItems] at hy
      obtain ⟨_, _, ⟨⟩, hd', hr'⟩ := hy
      rw [hd.unique hd', hr.unique hr']

theorem SpellsMembers.unique {m : Memory} {members : Members} : {xs ys : List (String × Value)} →
    m.SpellsMembers members xs → m.SpellsMembers members ys → xs = ys
  | [], ys, hx, hy => by
    rw [SpellsMembers] at hx
    subst hx
    cases ys with
    | nil => rfl
    | cons y ys => simp [SpellsMembers] at hy
  | (k, x) :: xs, ys, hx, hy => by
    rw [SpellsMembers] at hx
    obtain ⟨d, rest, rfl, hd, hr⟩ := hx
    cases ys with
    | nil => simp [SpellsMembers] at hy
    | cons y ys =>
      rw [SpellsMembers] at hy
      obtain ⟨_, _, ⟨⟩, hd', hr'⟩ := hy
      rw [hd.unique hd', hr.unique hr']

end

/-! ### Writing -/

/-- A list or an object is a datum, or is somewhere inside it. -/
inductive Within (m : Memory) (n : Nat) : Datum → Prop
  | self : Within m n (.ref (.cell n))
  | item {k : Nat} {items : List Datum} {d : Datum} : m.read k = .list items → d ∈ items →
    Within m n d → Within m n (.ref (.cell k))
  | member {k : Nat} {members : Members} {key d : Datum} : m.read k = .object members →
    (key, d) ∈ members → Within m n d → Within m n (.ref (.cell k))

theorem read_write_of_ne (m : Memory) {n k : Nat} (h : k ≠ n) (c : Contents) :
    (m.write n c).read k = m.read k := by
  unfold Memory.read write
  rw [Array.getElem?_setIfInBounds_ne (Ne.symm h)]

@[simp] theorem write_size (m : Memory) (n : Nat) (c : Contents) :
    (m.write n c).cells.size = m.cells.size := by
  simp [write]

mutual

/-- Writing to what is not inside a datum leaves the value that it stands for. -/
theorem Spells.write {m : Memory} {n : Nat} (c : Contents) {d : Datum} :
    {v : Value} → m.Spells d v → ¬ m.Within n d → (m.write n c).Spells d v
  | .list xs, hs, hn => by
    rw [Spells] at hs ⊢
    obtain ⟨k, items, rfl, hk, hr, hi⟩ := hs
    have hne : k ≠ n := fun h => hn (h ▸ .self)
    refine ⟨k, items, rfl, by simpa using hk, (read_write_of_ne m hne c).trans hr, ?_⟩
    exact hi.write c fun d hd h => hn (.item hr hd h)
  | .object ms, hs, hn => by
    rw [Spells] at hs ⊢
    obtain ⟨k, members, rfl, hk, hr, hi⟩ := hs
    have hne : k ≠ n := fun h => hn (h ▸ .self)
    refine ⟨k, members, rfl, by simpa using hk, (read_write_of_ne m hne c).trans hr, ?_⟩
    exact hi.write c fun key d hd h => hn (.member hr hd h)
  | .null, hs, _ | .bool _, hs, _ | .int _, hs, _ | .float _, hs, _ | .text _, hs, _ => by
    rw [Spells] at hs ⊢
    exact hs

theorem SpellsItems.write {m : Memory} {n : Nat} (c : Contents) {items : List Datum} :
    {xs : List Value} → m.SpellsItems items xs → (∀ d ∈ items, ¬ m.Within n d) →
      (m.write n c).SpellsItems items xs
  | [], hs, _ => by rw [SpellsItems] at hs ⊢; exact hs
  | x :: xs, hs, hn => by
    rw [SpellsItems] at hs ⊢
    obtain ⟨d, rest, rfl, hd, hr⟩ := hs
    exact ⟨d, rest, rfl, hd.write c (hn d List.mem_cons_self), hr.write c fun e he =>
      hn e (List.mem_cons_of_mem _ he)⟩

theorem SpellsMembers.write {m : Memory} {n : Nat} (c : Contents) {members : Members} :
    {ms : List (String × Value)} → m.SpellsMembers members ms →
      (∀ key d, (key, d) ∈ members → ¬ m.Within n d) → (m.write n c).SpellsMembers members ms
  | [], hs, _ => by rw [SpellsMembers] at hs ⊢; exact hs
  | (k, x) :: ms, hs, hn => by
    rw [SpellsMembers] at hs ⊢
    obtain ⟨d, rest, rfl, hd, hr⟩ := hs
    exact ⟨d, rest, rfl, hd.write c (hn _ d List.mem_cons_self), hr.write c fun key e he =>
      hn key e (List.mem_cons_of_mem _ he)⟩

end

end LiveSvg.Script.Memory
