import LiveSvg.Proofs.Streams
import Mathlib.Data.List.Induction
/-!
Handles of subscriptions. A handle takes off the first subscription of its subscriber, which is its own one as long
as handles are called in turn.
-/

namespace LiveSvg.Cell

/-- What is done with a cell from outside; handles are known by the number of their subscription. -/
inductive Act (α ι : Type) where
  | subscribe (x : ι)
  | call (n : Nat)
  | next (v : α)
  | reset (v : α)
  | complete

/-- A cell and its handles: for each subscription whom its handle takes off, if anyone, and those subscriptions
whose own handle has not been called since. -/
structure Registry (α ι : Type) where
  cell : Cell α ι
  handles : List (Option ι) := []
  standing : List (Nat × ι) := []

namespace Registry

variable {α ι : Type} [BEq ι]

def on (r : Registry α ι) : Act α ι → Registry α ι
  | .subscribe x =>
    if r.cell.isClosed then { r with handles := r.handles ++ [none] }
    else
      { cell := r.cell.on (.subscribe x)
        handles := r.handles ++ [some x]
        standing := r.standing ++ [(r.handles.length, x)] }
  | .call n =>
    match r.handles[n]? with
    | some (some x) =>
      { r with cell := r.cell.on (.unsubscribe x), standing := r.standing.filter (·.1 != n) }
    | _ => r
  | .next v => { r with cell := r.cell.on (.next v) }
  | .reset v => { r with cell := r.cell.on (.reset v) }
  | .complete => { r with cell := r.cell.on .complete, standing := [] }

def after (r : Registry α ι) (acts : List (Act α ι)) : Registry α ι := acts.foldl on r

/-- A new cell, without subscriptions. -/
def fresh (v : α) : Registry α ι := { cell := { value := v } }

/-- The subscribers of those subscriptions whose own handle has not been called since, in order. -/
def entitled (r : Registry α ι) : List ι := r.standing.map (·.2)

/-- Whether the first subscription of a subscriber in a list is one that has a number, or only subscriptions of the
same subscriber stand between them; or there is none of the subscriber. -/
def inTurn (x : ι) (n : Nat) (standing : List (Nat × ι)) : Bool :=
  let rest := standing.dropWhile (·.2 != x)
  rest.isEmpty || (rest.takeWhile (·.2 == x)).any (·.1 == n)

/-- Whether the handle of a subscription may be called now. -/
def isTurn (r : Registry α ι) (n : Nat) : Bool :=
  match r.handles[n]? with
  | some (some x) => inTurn x n r.standing
  | _ => true

variable {r : Registry α ι} {x : ι} {n : Nat} {l : List (Nat × ι)} {a : Act α ι} {acts : List (Act α ι)}

theorem after_append (r : Registry α ι) (acts acts' : List (Act α ι)) :
    r.after (acts ++ acts') = (r.after acts).after acts' := List.foldl_append

/-! ### Whole histories -/

/-- The handles that are called, in order. -/
def calls (acts : List (Act α ι)) : List Nat := acts.filterMap fun
  | .call n => some n
  | _ => none

/-- What holds of a cell and its handles once some of them have been called: subscriptions that stand have numbers of
their own, their handles take off their subscribers, and a subscription that does not stand any more has had its
handle called or its cell closed. -/
structure Sound (called : List Nat) (r : Registry α ι) : Prop where
  nodup : (r.standing.map (·.1)).Nodup
  handle : ∀ e ∈ r.standing, r.handles[e.1]? = some (some e.2)
  stands : ∀ n x, r.handles[n]? = some (some x) → (n, x) ∈ r.standing ∨ n ∈ called ∨ r.cell.isClosed = true
  closed : r.cell.isClosed = true → r.cell.subscribers = [] ∧ r.standing = []

namespace Sound

variable {called : List Nat}

omit [BEq ι] in
theorem mono (h : Sound called r) (more : List Nat) : Sound (called ++ more) r where
  nodup := h.nodup
  handle := h.handle
  stands n x hn := (h.stands n x hn).imp_right (Or.imp_left (List.mem_append_left more))
  closed := h.closed

omit [BEq ι] in
/-- Subscriptions do not depend on the value of the cell. -/
theorem congr {c : Cell α ι} (h : Sound called r) (hc : c.isClosed = r.cell.isClosed)
    (hs : c.subscribers = r.cell.subscribers) : Sound called { r with cell := c } where
  nodup := h.nodup
  handle := h.handle
  stands n x hn := by
    rw [hc]
    exact h.stands n x hn
  closed hc' := by
    rw [hs]
    exact h.closed (hc ▸ hc')

omit [BEq ι] in
theorem lt (h : Sound called r) {e : Nat × ι} (he : e ∈ r.standing) : e.1 < r.handles.length :=
  (List.getElem?_eq_some_iff.mp (h.handle e he)).1

theorem subscribe (h : Sound called r) (x : ι) : Sound called (r.on (.subscribe x)) := by
  unfold Registry.on
  dsimp only
  split
  · next hc =>
    refine ⟨h.nodup, fun e he => ?_, fun n y _ => .inr (.inr hc), h.closed⟩
    rw [(h.closed hc).2] at he
    cases he
  · next hc =>
    have hopen : (r.cell.on (.subscribe x)).isClosed ≠ true := by
      rw [on_isClosed]
      simpa using hc
    refine ⟨?_, fun e he => ?_, fun n y hn => ?_, fun hc' => absurd hc' hopen⟩
    · rw [List.map_append, List.nodup_append]
      refine ⟨h.nodup, List.pairwise_singleton _ _, fun m hm k hk => ?_⟩
      obtain ⟨e, he, rfl⟩ := List.mem_map.mp hm
      obtain rfl := List.mem_singleton.mp hk
      exact Nat.ne_of_lt (h.lt he)
    · rcases List.mem_append.mp he with he | he
      · exact (List.getElem?_append_left (h.lt he)).trans (h.handle e he)
      · obtain rfl := List.mem_singleton.mp he
        exact List.getElem?_concat_length
    · by_cases hlt : n < r.handles.length
      · rw [List.getElem?_append_left hlt] at hn
        rcases h.stands n y hn with hstands | hcalled | hc'
        · exact .inl (List.mem_append_left _ hstands)
        · exact .inr (.inl hcalled)
        · exact absurd hc' hc
      · rw [List.getElem?_append_right (Nat.le_of_not_lt hlt)] at hn
        obtain ⟨hzero, rfl⟩ : n - r.handles.length = 0 ∧ x = y := by
          simpa [List.getElem?_singleton] using hn
        obtain rfl : n = r.handles.length := by omega
        exact .inl (List.mem_append_right _ List.mem_cons_self)

theorem call (h : Sound called r) (n : Nat) : Sound (called ++ [n]) (r.on (.call n)) := by
  unfold Registry.on
  dsimp only
  split
  · next x hx =>
    refine ⟨h.nodup.sublist (List.filter_sublist.map _), fun e he => h.handle e (List.mem_filter.mp he).1,
      fun m y hm => ?_, fun hc => ?_⟩
    · rw [on_isClosed]
      rcases h.stands m y hm with hstands | hcalled | hc
      · by_cases hmn : m = n
        · exact .inr (.inl (by simp [hmn]))
        · exact .inl (List.mem_filter.mpr ⟨hstands, bne_iff_ne.mpr hmn⟩)
      · exact .inr (.inl (List.mem_append_left _ hcalled))
      · exact .inr (.inr (by rw [hc]; rfl))
    · rw [on_isClosed, Bool.or_false] at hc
      obtain ⟨hs, hstanding⟩ := h.closed hc
      rw [on_subscribers, hs, hstanding]
      exact ⟨rfl, rfl⟩
  · exact h.mono [n]

theorem released (h : Sound called r) : (r.on .complete).cell.subscribers = [] := by
  change (r.cell.on .complete).subscribers = []
  rw [on_subscribers]
  dsimp only
  split
  · next hc => exact (h.closed hc).1
  · rfl

theorem on (h : Sound called r) (a : Act α ι) : Sound (called ++ calls [a]) (r.on a) := by
  cases a with
  | subscribe x => exact (h.subscribe x).mono []
  | call n => exact h.call n
  | next v => exact (h.congr ((on_isClosed _ _).trans (Bool.or_false _)) (on_subscribers _ _)).mono []
  | reset v => exact (h.congr ((on_isClosed _ _).trans (Bool.or_false _)) (on_subscribers _ _)).mono []
  | complete =>
    have hc : (r.cell.on .complete).isClosed = true := by
      rw [on_isClosed]
      exact Bool.or_true _
    exact ⟨List.nodup_nil, fun e he => absurd he List.not_mem_nil, fun n x _ => .inr (.inr hc),
      fun _ => ⟨h.released, rfl⟩⟩

theorem after (h : Sound called r) (acts : List (Act α ι)) : Sound (called ++ calls acts) (r.after acts) := by
  induction acts generalizing called r with
  | nil => exact (List.append_nil called).symm ▸ h
  | cons a acts ih =>
    have hcalls : calls (a :: acts) = calls [a] ++ calls acts := List.filterMap_append (l := [a])
    rw [hcalls, ← List.append_assoc]
    exact ih (h.on a)

omit [BEq ι] in
/-- A cell tells its subscribers; when it is closed, there are none. -/
theorem told (h : Sound called r) (v : α) : (r.cell.next v).2 = r.cell.subscribers := by
  unfold Cell.next
  split
  · next hc => exact (h.closed hc).1.symm
  · rfl

end Sound

/-! ### One call -/

omit [BEq ι] in
theorem filter_eq_self (hn : n ∉ l.map (·.1)) : l.filter (·.1 != n) = l :=
  List.filter_eq_self.mpr fun _ he => bne_iff_ne.mpr fun h => hn (h ▸ List.mem_map_of_mem he)

variable [LawfulBEq ι]

/-- Once the first subscription of a subscriber has been passed, taking off one that has a number gives the same
subscribers if only subscriptions of that subscriber come before it. -/
theorem cons_filter_eq_iff (hn : ∀ y, (n, y) ∈ l → y = x) (hl : (l.map (·.1)).Nodup) :
    x :: (l.filter (·.1 != n)).map (·.2) = l.map (·.2) ↔ (l.takeWhile (·.2 == x)).any (·.1 == n) = true := by
  induction l with
  | nil => simp
  | cons e l ih =>
    obtain ⟨m, y⟩ := e
    obtain ⟨hm, hl⟩ := List.nodup_cons.mp hl
    have ih := ih (fun y hy => hn y (List.mem_cons_of_mem _ hy)) hl
    by_cases hmn : m = n
    · subst hmn
      obtain rfl := hn y List.mem_cons_self
      simp [filter_eq_self hm]
    · by_cases hy : y = x
      · subst hy
        simp [hmn, ih]
      · simp [hmn, hy, Ne.symm hy]

/-- To take off a subscription is to take off the first one of its subscriber exactly if it is its turn. -/
theorem erase_eq_filter_iff (hn : ∀ y, (n, y) ∈ l → y = x) (hl : (l.map (·.1)).Nodup) :
    (l.map (·.2)).erase x = (l.filter (·.1 != n)).map (·.2) ↔ inTurn x n l = true := by
  induction l with
  | nil => simp [inTurn]
  | cons e l ih =>
    obtain ⟨m, y⟩ := e
    obtain ⟨hm, hl⟩ := List.nodup_cons.mp hl
    have hn' : ∀ y, (n, y) ∈ l → y = x := fun y hy => hn y (List.mem_cons_of_mem _ hy)
    -- the head is the subscription that is taken off, an earlier one of the same subscriber, or passed
    by_cases hy : y = x
    · subst hy
      by_cases hmn : m = n
      · subst hmn
        simp [inTurn, filter_eq_self hm]
      · have hstay : inTurn y n ((m, y) :: l) = (l.takeWhile (·.2 == y)).any (·.1 == n) := by simp [inTurn, hmn]
        rw [hstay, ← cons_filter_eq_iff hn' hl, List.map_cons, List.erase_cons_head,
          List.filter_cons_of_pos (by simp [hmn]), List.map_cons]
        exact eq_comm
    · have hmn : m ≠ n := fun h => hy (hn y (h ▸ List.mem_cons_self))
      have hpass : inTurn x n ((m, y) :: l) = inTurn x n l := by
        unfold inTurn
        rw [List.dropWhile_cons_of_pos (by simp [hy])]
      rw [hpass, ← ih hn' hl, List.map_cons, List.erase_cons_tail (by simp [hy]),
        List.filter_cons_of_pos (by simp [hmn]), List.map_cons, List.cons_inj_right]

namespace Sound

variable {called : List Nat}

/-- Where subscribers are those of the subscriptions that stand, they still are afterwards exactly if no handle is
called out of turn. -/
theorem entitled_on (h : Sound called r) (he : r.cell.subscribers = r.entitled) (a : Act α ι) :
    (r.on a).cell.subscribers = (r.on a).entitled ↔ ∀ n, a = .call n → r.isTurn n = true := by
  cases a with
  | subscribe x =>
    refine iff_of_true ?_ fun n hn => by cases hn
    unfold Registry.on entitled
    dsimp only
    split
    · exact he
    · next hc =>
      rw [on_subscribers]
      simp [hc, he, entitled]
  | call n =>
    have hn : (∀ m, Act.call (α := α) (ι := ι) n = .call m → r.isTurn m = true) ↔ r.isTurn n = true :=
      ⟨fun hall => hall n rfl, fun hturn m hm => by cases hm; exact hturn⟩
    rw [hn]
    unfold Registry.on isTurn
    dsimp only
    split
    · next x hx =>
      rw [← erase_eq_filter_iff (fun y hy => ?_) h.nodup]
      · rw [on_subscribers, he]
        rfl
      · have hy' := h.handle _ hy
        rw [hx] at hy'
        exact (Option.some.inj (Option.some.inj hy')).symm
    · exact iff_of_true he rfl
  | next v =>
    refine iff_of_true ?_ fun n hn => by cases hn
    exact (on_subscribers _ _).trans he
  | reset v =>
    refine iff_of_true ?_ fun n hn => by cases hn
    exact (on_subscribers _ _).trans he
  | complete => exact iff_of_true h.released fun n hn => by cases hn

/-- Where they are those of the subscriptions that stand in some order, they are so afterwards if no handle is called
a second time. -/
theorem perm_on (h : Sound called r) (hp : r.cell.subscribers.Perm r.entitled) {a : Act α ι}
    (ha : ∀ n, a = .call n → n ∉ called) : (r.on a).cell.subscribers.Perm (r.on a).entitled := by
  cases a with
  | subscribe x =>
    unfold Registry.on
    dsimp only
    split
    · exact hp
    · next hc =>
      rw [on_subscribers]
      simpa [hc, entitled] using hp.append_right [x]
  | call n =>
    unfold Registry.on
    dsimp only
    split
    · next x hx =>
      rw [on_subscribers]
      rcases h.stands n x hx with hstands | hcalled | hc
      · obtain ⟨l₁, l₂, heq⟩ := List.append_of_mem hstands
        have hnodup := h.nodup
        rw [heq, List.map_append, List.map_cons, List.perm_middle.nodup_iff, List.nodup_cons, List.mem_append,
          not_or] at hnodup
        unfold entitled at hp ⊢
        rw [heq, List.map_append, List.map_cons] at hp
        rw [heq, List.filter_append, List.filter_cons_of_neg (by simp), filter_eq_self hnodup.1.1,
          filter_eq_self hnodup.1.2, List.map_append]
        have herase := (hp.trans List.perm_middle).erase x
        rwa [List.erase_cons_head] at herase
      · exact absurd hcalled (ha n rfl)
      · obtain ⟨hs, hstanding⟩ := h.closed hc
        simp [hs, hstanding, entitled]
    · exact hp
  | next v => exact (List.Perm.of_eq (on_subscribers _ _)).trans hp
  | reset v => exact (List.Perm.of_eq (on_subscribers _ _)).trans hp
  | complete => exact .of_eq h.released

end Sound

omit [BEq ι] [LawfulBEq ι] in
theorem sound_fresh (v : α) : Sound [] (fresh (ι := ι) v) where
  nodup := List.nodup_nil
  handle e he := absurd he List.not_mem_nil
  stands n x hn := by cases hn
  closed hc := by cases hc

theorem perm_after {called : List Nat} (h : Sound called r) (hp : r.cell.subscribers.Perm r.entitled)
    (hacts : (calls acts).Nodup) (hcalled : ∀ n ∈ calls acts, n ∉ called) :
    (r.after acts).cell.subscribers.Perm (r.after acts).entitled := by
  induction acts generalizing called r with
  | nil => exact hp
  | cons a acts ih =>
    have hcalls : calls (a :: acts) = calls [a] ++ calls acts := List.filterMap_append (l := [a])
    rw [hcalls, List.nodup_append] at hacts
    rw [hcalls] at hcalled
    refine ih (h.on a) (h.perm_on hp fun n hn => hcalled n ?_) hacts.2.1 fun n hn hmem => ?_
    · subst hn
      exact List.mem_append_left _ List.mem_cons_self
    · rcases List.mem_append.mp hmem with hmem | hmem
      · exact hcalled n (List.mem_append_right _ hn) hmem
      · exact hacts.2.2 n hmem n hn rfl

/-- Whatever is done with a new cell from outside, in which the same subscriber may come several times and any handle
be called any number of times: at every moment, the cell tells the subscribers of those subscriptions whose own handle
has not been called since, in order and once each, exactly if every handle has been called in turn. If no handle has
been called twice, it tells them in any case, though maybe in another order. -/
theorem told_as_entitled (v : α) (acts : List (Act α ι)) :
    ((∀ acts₁ acts₂, acts = acts₁ ++ acts₂ →
        ∀ a, (((fresh v).after acts₁).cell.next a).2 = ((fresh v).after acts₁).entitled) ↔
      ∀ acts₁ n acts₂, acts = acts₁ ++ .call n :: acts₂ → ((fresh v).after acts₁).isTurn n = true) ∧
    ((calls acts).Nodup →
      ∀ a, (((fresh v).after acts).cell.next a).2.Perm ((fresh v).after acts).entitled) := by
  have sound : ∀ acts : List (Act α ι), Sound (calls acts) ((fresh v).after acts) := (sound_fresh v).after
  refine ⟨⟨fun htold acts₁ n acts₂ hacts => ?_, fun hturn acts₁ => ?_⟩, fun hcalls a => ?_⟩
  · have h := sound acts₁
    have hbefore := htold acts₁ (.call n :: acts₂) hacts v
    have hafter := htold (acts₁ ++ [.call n]) acts₂ (by simp [hacts]) v
    rw [(sound _).told, after_append] at hafter
    rw [h.told] at hbefore
    exact (h.entitled_on hbefore (.call n)).mp hafter n rfl
  -- what is told after an act is compared with what was told before it
  · induction acts₁ using List.reverseRecOn with
    | nil => exact fun acts₂ hacts a => rfl
    | append_singleton acts₁ act ih =>
      intro acts₂ hacts a
      have h := sound acts₁
      have hbefore := ih (act :: acts₂) (by simp [hacts]) a
      rw [h.told] at hbefore
      rw [(sound _).told, after_append]
      exact (h.entitled_on hbefore act).mpr fun n hn => hturn acts₁ n acts₂ (by simp [hacts, hn])
  · rw [(sound acts).told]
    exact perm_after (sound_fresh v) .rfl hcalls fun n _ => List.not_mem_nil

/-- A subscriber that has come twice stays once when the handle of its first subscription is called. -/
theorem told_as_entitled_once : (((fresh (0 : Nat)).after
    [.subscribe "a", .subscribe "b", .subscribe "a", .call 0]).cell.next 1).2.Perm ["b", "a"] :=
  (told_as_entitled 0 [.subscribe "a", .subscribe "b", .subscribe "a", .call 0]).2 (by decide) 1

/-- A subscriber that has come twice is let go altogether when the handle of its first subscription is called
twice; and when two others have come alternately, calling the handle of a later subscription changes their order. -/
theorem handle_ends_another :
    let twice : List (Act Nat String) := [.subscribe "a", .subscribe "a", .call 0, .call 0]
    let alternate : List (Act Nat String) := [.subscribe "a", .subscribe "b", .subscribe "a", .call 2]
    ((((fresh 0).after twice).cell.next 1).2 = [] ∧ ((fresh 0).after twice).entitled = ["a"]) ∧
      (((fresh 0).after alternate).cell.next 1).2 = ["b", "a"] ∧ ((fresh 0).after alternate).entitled = ["a", "b"] :=
  ⟨⟨rfl, rfl⟩, rfl, rfl⟩

end Registry

end LiveSvg.Cell
