import LiveSvg.Proofs.Accounts
/-!
Whether a visual says that it is busy. It says what the last request has to say that has begun or
ended, whichever one that is: while one is out, another one that ends takes the word back.
-/

namespace LiveSvg

open Script (Datum)

variable {J J' : List Job} {a b w w₁ : World}

/-! ### What is said -/

/-- What an entry has to say of being busy. -/
def Entry.busy? : Entry → Option Bool
  | .called _ => some true
  | .concluded _ => some false
  | .reached (.begun _) => some true
  | .reached (.ended _) => some false
  | _ => none

theorem Event.busy?_eq (e : Event) : e.busy? = e.entry?.bind Entry.busy? := by
  obtain ⟨deed, s⟩ := e
  cases deed with
  | call id value observer =>
    unfold busy? entry?
    dsimp only
    cases s.setterFor? id <;> rfl
  | _ => rfl

/-- What has been told of being busy is what the books have to say of it. -/
theorem told_busy (past : List Event) :
    told Event.busy? past = (told Event.entry? past).filterMap Entry.busy? := by
  unfold told
  rw [List.filterMap_reverse, List.filterMap_filterMap]
  exact congrArg _ (congrArg (List.filterMap · past) (funext Event.busy?_eq))

namespace Ledger

/-- All that has been said of being busy, in order. -/
def flags (l : Ledger) : List Bool := l.entries.filterMap Entry.busy?

/-- A request is out: a dispatch that has not been concluded, or a batch of values that has not ended. -/
def isOut (l : Ledger) : Prop :=
  l.dispatches ≠ 0 ∨ ∃ batch, .begun batch ∈ l.milestones ∧ .ended batch ∉ l.milestones

/-- A request has not settled: a dispatch that has not been concluded, or a value of a batch that has
neither come nor failed to. -/
def awaits (l : Ledger) (getters : Nat) : Prop :=
  l.dispatches ≠ 0 ∨ ∃ batch, .begun batch ∈ l.milestones ∧
    ∃ getter < getters, .got batch getter ∉ l.milestones

variable {l l' : Ledger}

theorem mem_milestones {m : Milestone} : m ∈ l.milestones ↔ .reached m ∈ l.entries := by
  unfold milestones
  rw [List.mem_filterMap]
  constructor
  · rintro ⟨e, he, hm⟩
    cases e <;> cases hm
    exact he
  · exact fun h => ⟨_, h, rfl⟩

/-- Where a request has not settled, something has been said. -/
theorem awaits.flags_ne (h : l.awaits N) (hb : l.Balanced N) : l.flags ≠ [] := by
  have hmem : ∀ {e : Entry}, e ∈ l.entries → e.busy? = some true → l.flags ≠ [] := by
    intro e he ht hn
    have hm : true ∈ l.flags := List.mem_filterMap.mpr ⟨e, he, ht⟩
    rw [hn] at hm
    cases hm
  rcases h with hd | ⟨batch, hbegun, -⟩
  · obtain ⟨d, hd⟩ := Multiset.exists_mem_of_ne_zero hd
    have hcalls : d ∈ (l.calls : Multiset Dispatch) := by
      rw [hb.concluded]
      exact Multiset.mem_add.mpr (.inr hd)
    obtain ⟨e, he, hc⟩ := List.mem_filterMap.mp (Multiset.mem_coe.mp hcalls)
    cases e <;> cases hc
    exact hmem he rfl
  · exact hmem (mem_milestones.mp hbegun) rfl

end Ledger

/-- A request is out as long as the last word is that one has begun. -/
theorem Turn.out {v : Visual} {l l' : Ledger} (h : Turn v l l')
    (hl : l.flags.getLast? = some true → l.isOut) : l'.flags.getLast? = some true → l'.isOut := by
  have skip : ∀ {t : Task}, t.dispatch? = none → ∀ u ∈ ({t} : Multiset Task), u.dispatch? = none :=
    fun ht u k => Multiset.mem_singleton.mp k ▸ ht
  unfold Ledger.flags Ledger.isOut Ledger.dispatches at hl ⊢
  intro hf
  cases h with
  | still => exact hl hf
  | @call d hd =>
    dsimp only
    rw [dispatches_add rfl, Multiset.singleton_add]
    exact .inl (Multiset.cons_ne_zero)
  | @hand d T S ht hs =>
    dsimp only at hf ⊢
    rw [ht, dispatches_add rfl] at hl
    rw [dispatches_add rfl, Multiset.singleton_add]
    exact .inl Multiset.cons_ne_zero
  | conclude | finish =>
    dsimp only at hf
    rw [filterMap_snoc] at hf
    simp [Entry.busy?] at hf
  | @spread batch T ht =>
    rw [ht, dispatches_skip (skip rfl)] at hl
    dsimp only at hf ⊢
    rw [dispatches_skip fun t k => ?_]
    · exact hl hf
    · obtain ⟨getter, -, rfl⟩ := List.mem_map.mp (Multiset.mem_coe.mp k)
      rfl
  | @got batch getter T ht =>
    rw [ht, dispatches_skip (skip rfl)] at hl
    dsimp only at hf ⊢
    rw [filterMap_snoc] at hf
    rw [dispatches_skip (skip rfl)]
    refine (hl (by simpa [Entry.busy?] using hf)).imp_right fun ⟨n, hb, he⟩ => ⟨n, ?_, ?_⟩
    · rw [Ledger.mem_milestones] at hb ⊢
      exact List.mem_append_left _ hb
    · rw [Ledger.mem_milestones] at he ⊢
      simpa using he
  | @settle batch T ht =>
    rw [ht, dispatches_skip (skip rfl)] at hl
    dsimp only at hf ⊢
    rw [dispatches_skip fun t k => ?_]
    · exact hl hf
    · split at k
      · exact skip rfl t k
      · exact absurd k (Multiset.notMem_zero t)

theorem Visual.busied_or_silent (m : Move (J, a) (J', b)) (live : a.isLive) :
    (b.visual.loading = a.visual.loading ∧ b.visual.busy = a.visual.busy) ∨
      ∃ busy, b.visual.loading = (a.visual.busied busy).loading ∧
        b.visual.busy = (a.visual.busied busy).busy := by
  cases m with
  | idle i => exact .inl ⟨i.visual.loading, i.visual.busy⟩
  | fail n f e =>
    obtain ⟨log, hw⟩ := Run.failed_after n f e a
    rw [hw]
    exact .inl ⟨rfl, rfl⟩
  | missed batch getter f =>
    obtain ⟨log, hw⟩ := Run.missed_after live batch getter f
    rw [hw]
    exact .inl ⟨rfl, rfl⟩
  | call => exact .inr ⟨true, rfl, rfl⟩
  | finish => exact .inr ⟨false, rfl, rfl⟩
  | conclude setter value o result =>
    obtain ⟨log, hw⟩ := Run.concludeDispatch_after live setter value o result
    rw [hw]
    cases result <;> exact .inr ⟨false, rfl, rfl⟩
  | _ => exact .inl ⟨rfl, rfl⟩

namespace World

/-- The cell shows what was told last, and a request is out if that is that one has begun. -/
structure Candid (w : World) (J : List Job) : Prop where
  value : w.visual.loading.value = w.visual.busy.getLast?.getD false
  out : (w.ledger J).flags.getLast? = some true → (w.ledger J).isOut

theorem Candid.move (m : Move (J, a) (J', b)) (i : a.InOrder J) (h : a.Candid J) : b.Candid J' := by
  refine ⟨?_, (m.turn i.sound).out h.out⟩
  rcases Visual.busied_or_silent m i.sound.live with ⟨hl, hb⟩ | ⟨busy, hl, hb⟩
  · rw [hl, hb]
    exact h.value
  · rw [hl, hb, (i.told.busied_loading busy).2.2]
    simp [Visual.busied, Cell.next, i.told.isOpen]

theorem Candid.moves (m : Moves (J, a) (J', b)) (i : a.InOrder J) (h : a.Candid J) : b.Candid J' := by
  have hm : ∀ {x y : List Job × World}, Moves x y → x.2.InOrder x.1 ∧ x.2.Candid x.1 →
      y.2.InOrder y.1 ∧ y.2.Candid y.1 := fun m h => by
    induction m with
    | refl => exact h
    | tail _ s ih => exact ⟨(ih.1.move s).1, ih.2.move s ih.1⟩
  exact (hm m ⟨i, h⟩).2

/-! ### Whole runs -/

theorem Candid.stable : Stable fun w => w.Founded ∧ w.Candid [] where
  free f h := ⟨h.1.free f, h.2.moves (f []) h.1.toInOrder⟩
  grow g h := by
    refine ⟨h.1.grow g, ?_, ?_⟩
    · rw [g.visual.loading, g.visual.busy]
      exact h.2.value
    · rw [g.ledger]
      exact h.2.out

/-- Nothing is said before there is anything to say. -/
theorem Waiting.candid (h : w.Waiting) (live : w.isLive) : w.Candid [] := by
  induction h with
  | setup s => exact ⟨rfl, fun h => by cases h⟩
  | step s h ih =>
    obtain ⟨live, hs⟩ := Step.live_before live
    exact (ih live).moves (Step.moves hs _) (h.founded live).1.toInOrder

theorem Placed.candid (h : w₁.Placed) (live : w₁.isLive) : w₁.Founded ∧ w₁.Candid [] := by
  obtain ⟨w₀, h₀, hp⟩ := h
  have live := place_live hp live
  exact Candid.stable.place ⟨(h₀.founded live).1, h₀.candid live⟩ hp

/-- When values begin to be acquired, that is said, and they are out. -/
theorem Founded.begun_candid (h : a.Founded) : a.begun.Candid [] := by
  constructor
  · change (a.visual.busied true).loading.value = (a.visual.busied true).busy.getLast?.getD false
    rw [(h.told.busied_loading true).2.2]
    simp [Visual.busied, Cell.next, h.told.isOpen]
  · intro
    have hm := (h.balanced.acquired.unbatched h.unbatched).2
    have he : (a.begun.ledger []).milestones = [.begun a.visual.batches.size] := by
      unfold Ledger.milestones at hm ⊢
      change (told Event.entry? (_ :: a.past)).filterMap _ = _
      rw [told_some (f := Event.entry?) rfl, filterMap_snoc]
      exact congrArg (· ++ _) hm
    refine .inr ⟨a.visual.batches.size, ?_, ?_⟩ <;> simp [he]

theorem Founded.presented_candid (h : a.Founded) (c : a.Candid []) (hp : Run.present Run.play a = .ok () b) :
    b.Candid [] := by
  obtain ⟨_, d, hd, hp⟩ := Run.bind_eq_ok.mp hp
  obtain ⟨hf, hc⟩ := Candid.stable.free ((Free.render Free.plays).leads hd) ⟨h, c⟩
  obtain ⟨_, e, he, hp⟩ := Run.bind_eq_ok.mp hp
  have he : e.InOrder [] ∧ e.Candid [] := by
    rw [← Run.after_ok he, startAcquisition_after]
    split
    · exact ⟨hf.toInOrder, hc⟩
    · next hg => exact ⟨hf.begun hg, hf.begun_candid⟩
  obtain ⟨_, f, hf, hp⟩ := Run.bind_eq_ok.mp hp
  cases hf
  refine he.2.moves (.single (.idle ?_)) he.1
  cases hp
  exact .of_eq rfl rfl rfl rfl .rfl

theorem Follows.candid (h : w₁.Follows w) (h₁ : w₁.Placed) (live : w.isLive) : w.InOrder [] ∧ w.Candid [] := by
  have hl : w₁.isLive := (live_driven.follows (fun _ _ => rfl) h live).symm.trans live
  obtain ⟨hf, hc⟩ := h₁.candid hl
  have C : Course fun a b : World => a.InOrder [] ∧ a.Candid [] → b.InOrder [] ∧ b.Candid [] := .keeps _
  obtain ⟨w₂, h₂, -, k⟩ := h.course C (fun s hs w k =>
    ⟨(k.1.moves (Step.moves hs w)).1, k.2.moves (Step.moves hs w) k.1⟩) live
  exact k ⟨(hf.presented h₂).1, hf.presented_candid hc h₂⟩

/-- What the last request has said that has begun or ended: that the visual is busy, or that it is not. -/
def lastWord (w : World) : Option Bool := (told Event.busy? w.past).getLast?

end World

/-- In every live world that follows a visual put in place: while any dispatch or any value that is
acquired has not settled, the visual is busy as long as no request has ended since one has begun. The
visual says so only while a request is out. -/
theorem busy_until_one_ends (h₁ : w₁.Placed) (h : w₁.Follows w) (live : w.isLive) :
    ((w.ledger []).awaits w.visual.getters.size →
      (w.visual.loading.value = true ↔ w.lastWord ≠ some false)) ∧
    (w.visual.loading.value = true → (w.ledger []).isOut) := by
  obtain ⟨i, c⟩ := h.candid h₁ live
  have hflags : (w.ledger []).flags = told Event.busy? w.past := (told_busy w.past).symm
  have hvalue : w.visual.loading.value = w.lastWord.getD false := by
    rw [c.value, i.told.busy]
    rfl
  refine ⟨fun ha => ?_, fun hv => c.out ?_⟩
  · have hne := ha.flags_ne i.balanced
    rw [hflags] at hne
    obtain ⟨busy, hb⟩ : ∃ busy, w.lastWord = some busy := ⟨_, List.getLast?_eq_some_getLast hne⟩
    rw [hvalue, hb]
    cases busy <;> simp
  · rw [hflags]
    change w.lastWord = some true
    rw [hvalue] at hv
    cases hb : w.lastWord with
    | none => simp [hb] at hv
    | some busy => simpa [hb] using hv

/-- A drawing with a value that the host takes its time for, and a switch that sends one. -/
def lateSetup : World.Setup where
  path := "late"
  documents := [("late", "<svg xmlns:t='https://thingsboard.io/svg'><t:metadata>" ++
    "\x7b\"behavior\":[\x7b\"id\":1,\"name\":\"B\",\"type\":\"value\",\"valueId\":\"v\"\x7d," ++
    "\x7b\"id\":2,\"type\":\"action\"\x7d]\x7d</t:metadata></svg>")]
  getDelays := [("B", .int 100)]

set_option maxRecDepth 100000 in
/-- It is so when the value of the drawing is being acquired and nothing else has been asked for. -/
theorem busy_until_one_ends_late : ∃ w₁ w : World, w₁.Placed ∧ w₁.Follows w ∧ w.isLive ∧
    (w.ledger []).awaits w.visual.getters.size ∧ w.visual.loading.value = true := by
  obtain ⟨w₁, w, hp, hf, ht⟩ := World.Setup.leads_ok lateSetup [.turn, .turn] (fun _ w =>
    !w.visual.isDestroyed && w.visual.getters.size == 1 && w.lastWord == some true &&
      (w.ledger []).milestones == [.begun 0]) (by decide +kernel)
  simp only [Bool.and_eq_true, Bool.not_eq_true', beq_iff_eq] at ht
  obtain ⟨⟨⟨live, hg⟩, hl⟩, hm⟩ := ht
  have h₁ : w₁.Placed := ⟨_, .setup lateSetup, hp⟩
  have ha : (w.ledger []).awaits w.visual.getters.size :=
    .inr ⟨0, by simp [hm], 0, by simp [hg], by simp [hm]⟩
  exact ⟨w₁, w, h₁, hf, live, ha, ((busy_until_one_ends h₁ hf live).1 ha).mpr (by simp [hl])⟩

set_option maxRecDepth 100000 in
/-- A switch that is used meanwhile takes the word back: the value is still out, and the visual says
that it is not busy. -/
theorem idle_while_late : ∃ w₁ w : World, w₁.Placed ∧ w₁.Follows w ∧ w.isLive ∧
    (w.ledger []).awaits w.visual.getters.size ∧ w.visual.loading.value = false := by
  obtain ⟨w₁, w, hp, hf, ht⟩ := World.Setup.leads_ok lateSetup
    [.call .null (.int 2) (.int 5) ⟨false, false, false⟩, .turn, .turn, .turn] (fun _ w =>
      !w.visual.isDestroyed && w.visual.getters.size == 1 && !w.visual.loading.value &&
        (w.ledger []).milestones == [.begun 0]) (by decide +kernel)
  simp only [Bool.and_eq_true, Bool.not_eq_true', beq_iff_eq] at ht
  obtain ⟨⟨⟨live, hg⟩, hl⟩, hm⟩ := ht
  exact ⟨w₁, w, ⟨_, .setup lateSetup, hp⟩, hf, live,
    .inr ⟨0, by simp [hm], 0, by simp [hg], by simp [hm]⟩, hl⟩

end LiveSvg
