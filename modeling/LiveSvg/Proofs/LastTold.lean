import LiveSvg.Proofs.Notifying
/-!
What a subscriber has been told last when the outermost call of `next` returns. It is the value of the cell,
unless an earlier call of `next` had still to tell it of an older one.
-/

namespace LiveSvg.Cell.Notifying

variable {α ι : Type} [BEq ι] {s t u : Notifying α ι} {e : Event α ι} {es : List (Event α ι)} {x : ι}

/-- What somebody hears of what is told. -/
def heard (x : ι) (told : List (ι × α)) : List α := (told.filter (·.1 == x)).map (·.2)

theorem heard_append (x : ι) (xs ys : List (ι × α)) : heard x (xs ++ ys) = heard x xs ++ heard x ys := by
  unfold heard
  rw [List.filter_append, List.map_append]

/-- Whoever is told of one value only hears that one last. -/
theorem getLast?_heard_map [LawfulBEq ι] {xs : List ι} (hx : x ∈ xs) (v : α) :
    (heard x (xs.map (·, v))).getLast? = some v := by
  have hne : heard x (xs.map (·, v)) ≠ [] := fun h => by
    have hmem : v ∈ heard x (xs.map (·, v)) :=
      List.mem_map.mpr ⟨(x, v), List.mem_filter.mpr ⟨List.mem_map_of_mem hx, beq_self_eq_true x⟩, rfl⟩
    rw [h] at hmem
    cases hmem
  rw [List.getLast?_eq_some_getLast hne]
  obtain ⟨y, hy, hv⟩ := List.mem_map.mp (List.getLast_mem hne)
  obtain ⟨z, -, rfl⟩ := List.mem_map.mp (List.mem_filter.mp hy).1
  exact congrArg some hv.symm

omit [BEq ι] in
/-- Where something is told, there is a value that is told last. -/
theorem exists_last {v : α} (h : .deal (.next v) ∈ es) : ∃ es₁ w es₂,
    es = es₁ ++ .deal (.next w) :: es₂ ∧ ∀ a, .deal (.next a) ∉ es₂ := by
  induction es generalizing v with
  | nil => cases h
  | cons e es ih =>
    by_cases hes : ∃ a, .deal (.next a) ∈ es
    · obtain ⟨a, ha⟩ := hes
      obtain ⟨es₁, w, es₂, rfl, hlast⟩ := ih ha
      exact ⟨e :: es₁, w, es₂, rfl, hlast⟩
    · rw [not_exists] at hes
      obtain rfl := (List.mem_cons.mp h).resolve_right (hes v)
      exact ⟨[], v, es, rfl, hes⟩

theorem Runs.isClosed (h : Runs s es t) (hc : s.cell.isClosed = true) : t.cell.isClosed = true := by
  induction h with
  | nil s => exact hc
  | cons h _ ih => exact ih (h.isClosed hc)

/-- Only a new value or a replaced one changes what a cell holds. -/
theorem on_value {c : Cell α ι} {d : Deal α ι} (hn : ∀ a, d ≠ .next a) (hr : ∀ a, d ≠ .reset a) :
    (c.on d).value = c.value := by
  cases d with
  | next a => exact absurd rfl (hn a)
  | reset a => exact absurd rfl (hr a)
  | subscribe y =>
    change (c.subscribe y).value = c.value
    unfold subscribe
    split <;> rfl
  | complete =>
    change c.complete.value = c.value
    unfold complete
    split <;> rfl
  | read i =>
    change (c.read i).1.value = c.value
    unfold read
    split <;> rfl
  | _ => rfl

theorem Runs.value (h : Runs s es t) (hn : ∀ a, .deal (.next a) ∉ es) (hr : ∀ a, .deal (.reset a) ∉ es) :
    t.cell.value = s.cell.value := by
  induction h with
  | nil s => rfl
  | @cons s t u e es h _ ih =>
    refine (ih (fun a ha => hn a (List.mem_cons_of_mem _ ha)) fun a ha => hr a (List.mem_cons_of_mem _ ha)).trans ?_
    cases h with
    | deal d hrun =>
      exact on_value (fun a ha => hn a (ha ▸ List.mem_cons_self)) fun a ha => hr a (ha ▸ List.mem_cons_self)
    | _ => rfl

omit [BEq ι] in
theorem next_open {c : Cell α ι} (h : c.isClosed = false) (w : α) :
    (c.next w).1.value = w ∧ (c.next w).2 = c.subscribers := by
  unfold next
  rw [h]
  exact ⟨rfl, rfl⟩

variable [LawfulBEq ι]

theorem mem_subscribers_on {c : Cell α ι} {d : Deal α ι} (hx : x ∈ c.subscribers) (hd : d ≠ .unsubscribe x)
    (hc : (c.on d).isClosed = false) : x ∈ (c.on d).subscribers := by
  rw [on_isClosed] at hc
  rw [on_subscribers]
  cases d with
  | subscribe y =>
    dsimp only
    split
    · exact hx
    · exact List.mem_append_left _ hx
  | unsubscribe y => exact (List.mem_erase_of_ne fun h : x = y => hd (by rw [h])).mpr hx
  | complete => simp at hc
  | _ => exact hx

/-- Whoever is subscribed stays so unless it is let go. -/
theorem Step.keeps (h : Step s e t) (hx : x ∈ s.cell.subscribers) (he : e ≠ .deal (.unsubscribe x))
    (ht : t.cell.isClosed = false) : x ∈ t.cell.subscribers := by
  cases h with
  | deal d hrun => exact mem_subscribers_on hx (fun h => he (h ▸ rfl)) ht
  | _ => exact hx

theorem Runs.keeps (h : Runs s es t) (hx : x ∈ s.cell.subscribers) (he : .deal (.unsubscribe x) ∉ es)
    (ht : t.cell.isClosed = false) : x ∈ t.cell.subscribers := by
  induction h with
  | nil s => exact hx
  | cons h hrest ih =>
    rw [List.mem_cons, not_or] at he
    refine ih (h.keeps hx (Ne.symm he.1) ?_) he.2 ht
    exact Bool.eq_false_iff.mpr fun hc => Bool.false_ne_true (ht.symm.trans (hrest.isClosed hc))

/-- What a subscriber of an open cell has heard last, once a value has been told and all that is due with it. -/
theorem getLast?_heard {w : α} (hx : x ∈ s.cell.subscribers) (hs : s.cell.isClosed = false)
    (h : Runs { s with cell := s.cell.on (.next w), frames := opened s.cell (.next w) ++ s.frames } es t)
    (hlast : ∀ a, .deal (.next a) ∉ es) (hf : .fail ∉ es) (ht : t.frames = []) :
    (heard x t.told).getLast? = some ((heard x s.due).getLast?.getD w) := by
  have hall : heard x t.told = heard x (s.told ++ (s.cell.subscribers.map (·, w) ++ s.due)) := by
    have haccount := (h.account (p := (· == x)) (.of_untold hlast)).2 hf
    rw [due_opened, due_eq_nil ht, List.append_nil, added, (next_open hs w).2] at haccount
    exact congrArg (·.map Prod.snd) haccount
  rw [hall, heard_append, heard_append, List.getLast?_append, List.getLast?_append, getLast?_heard_map hx]
  cases (heard x s.due).getLast? <;> rfl

/-- When the outermost call of `next` returns and the cell is still open, the value that has been accepted last is
the one that it holds (unless it has been replaced silently). A subscriber that has not been let go, and that no
earlier call of `next` had still to tell of its value when the last one was accepted, has been told of the last one
last. Else it has been told last of the value of the outermost one of those calls. -/
theorem last_told {v : α} (h : Runs s (.deal (.next v) :: es) t) (ht : t.frames = [])
    (hopen : t.cell.isClosed = false) (hx : x ∈ s.cell.subscribers) (hkept : .deal (.unsubscribe x) ∉ es) :
    ∃ es₁ w es₂ u, .deal (.next v) :: es = es₁ ++ .deal (.next w) :: es₂ ∧ (∀ a, .deal (.next a) ∉ es₂) ∧
      Runs s es₁ u ∧ ((∀ a, .deal (.reset a) ∉ es₂) → t.cell.value = w) ∧
        (.fail ∉ es₂ → (heard x t.told).getLast? = some ((heard x u.due).getLast?.getD w)) := by
  obtain ⟨es₁, w, es₂, hes, hlast⟩ := exists_last (List.mem_cons_self (a := .deal (.next v)) (l := es))
  rw [hes] at h
  -- the course is split where the last value is accepted
  obtain ⟨u, h₁, h₂⟩ := runs_append.mp h
  refine ⟨es₁, w, es₂, u, hes, hlast, h₁, ?_⟩
  have hkept₁ : .deal (.unsubscribe x) ∉ es₁ := fun hmem => by
    have hmem' : .deal (.unsubscribe x) ∈ .deal (.next v) :: es := by
      rw [hes]
      exact List.mem_append_left _ hmem
    exact hkept ((List.mem_cons.mp hmem').resolve_left (by simp))
  obtain ⟨⟩ | ⟨h₂, h₃⟩ := h₂
  have hu : u.cell.isClosed = false :=
    Bool.eq_false_iff.mpr fun hc => Bool.false_ne_true (hopen.symm.trans (h₃.isClosed (h₂.isClosed hc)))
  cases h₂ with
  | deal _ hrun =>
    refine ⟨fun hreset => (h₃.value hlast hreset).trans (next_open hu w).1, fun hf => ?_⟩
    exact getLast?_heard (h₁.keeps hx hkept₁ hu) hu h₃ hlast hf ht

/-- Two subscribers. -/
def both : Notifying Nat String := { cell := { value := 0, subscribers := ["a", "b"] } }

/-- What happens when the first of two subscribers answers 1 by 2: before the second one is told of 1, both are
told of 2. -/
def answering : List (Event Nat String) :=
  [.tell, .deal (.next 2), .tell, .finish, .tell, .finish, .leave, .finish, .tell, .finish, .leave]

theorem answering_runs : Runs both (.deal (.next 1) :: answering)
    { cell := { value := 2, subscribers := ["a", "b"] }, told := [("a", 1), ("a", 2), ("b", 2), ("b", 1)] } :=
  .cons (.deal _ _ rfl) <| .cons (.tell ..) <| .cons (.deal _ _ rfl) <| .cons (.tell ..) <| .cons (.finish ..) <|
    .cons (.tell ..) <| .cons (.finish ..) <| .cons (.leave ..) <| .cons (.finish ..) <| .cons (.tell ..) <|
      .cons (.finish ..) <| .one (.leave ..)

/-- The second of them has been told last of what was due to it when 2 was accepted. -/
theorem last_told_answering : ∃ es₁ es₂ u, .deal (.next 1) :: answering = es₁ ++ .deal (.next 2) :: es₂ ∧
    Runs both es₁ u ∧ some 1 = some ((heard "b" u.due).getLast?.getD 2) := by
  obtain ⟨es₁, w, es₂, u, hes, -, h₁, hvalue, hheard⟩ :=
    last_told (x := "b") answering_runs rfl rfl (by decide) (by simp [answering])
  have hmem : ∀ e ∈ es₂, e ∈ .deal (.next 1) :: answering := fun e he => by
    rw [hes]
    simp [he]
  obtain rfl : 2 = w := hvalue fun a ha => by simpa [answering] using hmem _ ha
  exact ⟨es₁, es₂, u, hes, h₁, hheard fun ha => by simpa [answering] using hmem _ ha⟩

/-- The second one has been told of 1 last, though the cell holds 2. -/
theorem told_older : ∃ t : Notifying Nat String, Runs both (.deal (.next 1) :: answering) t ∧ t.frames = [] ∧
    t.cell.isClosed = false ∧ t.cell.value = 2 ∧ (heard "b" t.told).getLast? = some 1 :=
  ⟨_, answering_runs, rfl, rfl, rfl, rfl⟩

/-- So it is in a session. -/
example : ((Session.fresh 0).takes [.subscribe "a" "a" [.next 2], .subscribe "b" "b" [], .next 1]).calls =
    [("a", 1), ("a", 2), ("b", 2), ("b", 1)] := rfl

end LiveSvg.Cell.Notifying
