import LiveSvg.Proofs.Pieces
import LiveSvg.Text.Lines
/-!
Reading a script step by step: where a reading comes by, and how long it takes at most.
-/

namespace LiveSvg.Script.Token

open Text

/-- Whether the reading is at the start of a line, outside brackets. -/
def State.atLine (st : State) : Bool := st.fresh && st.brackets == 0

/-- Whether the text ends with a line that says nothing. -/
def State.ends (st : State) (cs : List Char) : Bool :=
  st.atLine && isIdle (takeDepth ⟨0, 0⟩ cs).2 && ((takeDepth ⟨0, 0⟩ cs).2.dropWhile (· ≠ '\n')).isEmpty

/-- One step of a reading: its tokens, and where it goes on. -/
def step (st : State) (cs : List Char) : Option (List Token × State × List Char) :=
  if st.atLine then
    if isIdle (takeDepth ⟨0, 0⟩ cs).2 then
      ((takeDepth ⟨0, 0⟩ cs).2.dropWhile (· ≠ '\n')).tail?.map fun rest => ([], st, rest)
    else
      (enter (takeDepth ⟨0, 0⟩ cs).1 st.depths).map fun y =>
        (y.1, { st with depths := y.2, fresh := false }, (takeDepth ⟨0, 0⟩ cs).2)
  else
    match cs with
    | [] => if st.brackets = 0 then some ([], { st with fresh := true }, []) else none
    | c :: rest =>
      if c = '\n' then
        if st.brackets = 0 then some ([.newline], { st with fresh := true }, rest) else some ([], st, rest)
      else if c = '#' then some ([], st, rest.dropWhile (· ≠ '\n'))
      else if c = '\x5c' ∧ rest.head? = some '\n' then
        if rest.tail.isEmpty then none else some ([], st, rest.tail)
      else (piece st.brackets c rest).map fun y => (y.1, { st with brackets := y.2.1 }, y.2.2)

theorem isIdentifierPart_of_ascii {c : Char} (hc : c.toNat < 128) (h : isIdentifierStart c = true) :
    isIdentifierPart c = true := by
  simp only [isIdentifierStart, isIdentifierPart, if_pos hc, Char.isAlphanum, Bool.or_eq_true] at h ⊢
  tauto

/-- What a reading makes of a character that no line ends with, no comment starts with and no line goes on after. -/
theorem read_other {st : State} {c : Char} {rest : List Char} (hst : st.atLine = false) (hn : c ≠ '\n')
    (hc : c ≠ '#') (hb : ¬(c = '\x5c' ∧ rest.head? = some '\n')) (fuel : Nat) :
    read (fuel + 1) st (c :: rest) =
      if c = ' ' ∨ c = '\t' ∨ c = '\x0c' then read fuel st rest
      else if c = '\x22' ∨ c = '\x27' then
        takeQuoted c rest >>= fun y => read fuel st y.2 >>= fun ts => some (y.1 :: ts)
      else if isIdentifierStart c then
        read fuel st ((c :: rest).dropWhile isIdentifierPart) >>= fun ts =>
          some (.name (String.ofList ((c :: rest).takeWhile isIdentifierPart)) :: ts)
      else if isAsciiDigit c || (c == '.' && (rest.head?.map isAsciiDigit).getD false) then
        takeNumber (c :: rest) >>= fun y => read fuel st y.2 >>= fun ts => some (y.1 :: ts)
      else takeSigns (c :: rest) >>= fun y => bracketed st.brackets y.1 >>= fun b =>
        read fuel { st with brackets := b } y.2 >>= fun ts => some (.sign y.1 :: ts) := by
  have hst' : ¬((st.fresh && st.brackets == 0) = true) := by
    simpa [State.atLine] using hst
  rw [read, if_neg hst']
  · split
    · rfl
    split
    · rfl
    split
    · rfl
    split
    · rfl
    refine bind_congr fun y => ?_
    simp only [bracketed]
    split
    · split <;> rfl
    split
    · split <;> rfl
    · rfl
  · exact hn
  · exact hc
  · rintro rest' rfl rfl
    exact hb ⟨rfl, rfl⟩

/-- No reading gets past a character that identifiers start with and never go on with. -/
theorem read_stuck {st : State} {c : Char} {rest : List Char} (hst : st.atLine = false)
    (hs : isIdentifierStart c = true) (hp : isIdentifierPart c = false) (fuel : Nat) :
    read fuel st (c :: rest) = none := by
  have hascii : ∀ d : Char, d.toNat < 128 → c ≠ d := by
    rintro d hd rfl
    rw [isIdentifierPart_of_ascii hd hs] at hp
    cases hp
  induction fuel with
  | zero => rfl
  | succ fuel ih =>
    have hblank : ¬(c = ' ' ∨ c = '\t' ∨ c = '\x0c') := by
      simp only [not_or]
      exact ⟨hascii _ (by decide), hascii _ (by decide), hascii _ (by decide)⟩
    have hquote : ¬(c = '\x22' ∨ c = '\x27') := by
      simp only [not_or]
      exact ⟨hascii _ (by decide), hascii _ (by decide)⟩
    rw [read_other hst (hascii _ (by decide)) (hascii _ (by decide)) fun h => hascii _ (by decide) h.1,
      if_neg hblank, if_neg hquote, if_pos hs, List.dropWhile_cons_of_neg (by simp [hp]), ih]
    rfl

theorem read_succ (fuel : Nat) (st : State) (cs : List Char) :
    read (fuel + 1) st cs =
      if st.ends cs then some (List.replicate (st.depths.length - 1) .dedent)
      else step st cs >>= fun y => read fuel y.2.1 y.2.2 >>= fun ts => some (y.1 ++ ts) := by
  cases hst : st.atLine with
  | true =>
    have hst' : (st.fresh && st.brackets == 0) = true := hst
    conv_lhs => unfold read
    rw [if_pos hst']
    simp only [State.ends, step, hst, Bool.true_and, if_true]
    split
    · next hi =>
      simp only [hi, Bool.true_and]
      cases (takeDepth ⟨0, 0⟩ cs).2.dropWhile (· ≠ '\n') with
      | nil => rfl
      | cons c w => simp
    · next hi =>
      simp only [hi, Bool.false_and, Bool.false_eq_true, if_false]
      cases enter (takeDepth ⟨0, 0⟩ cs).1 st.depths <;> rfl
  | false =>
    have hst' : ¬((st.fresh && st.brackets == 0) = true) := by
      simpa [State.atLine] using hst
    simp only [State.ends, step, hst, Bool.false_and, Bool.false_eq_true, if_false]
    rcases cs with _ | ⟨c, rest⟩
    · rw [read, if_neg hst']
      dsimp only
      split <;> simp
    dsimp only
    by_cases hn : c = '\n'
    · subst hn
      rw [read, if_neg hst', if_pos rfl]
      split <;> simp
    by_cases hc : c = '#'
    · subst hc
      rw [read, if_neg hst', if_neg hn, if_pos rfl]
      simp
    by_cases hb : c = '\x5c' ∧ rest.head? = some '\n'
    · rw [if_neg hn, if_neg hc, if_pos hb]
      obtain ⟨rfl, hr⟩ := hb
      obtain ⟨w, rfl⟩ := List.head?_eq_some_iff.mp hr
      rw [read, if_neg hst']
      cases w <;> simp
    · rw [read_other hst hn hc hb, if_neg hn, if_neg hc, if_neg hb]
      unfold piece
      split
      · simp
      split
      · cases takeQuoted c rest <;> rfl
      split
      · next hs =>
        cases hp : isIdentifierPart c with
        | true =>
          rw [List.dropWhile_cons_of_pos hp, List.takeWhile_cons_of_pos hp]
          rfl
        | false =>
          rw [List.dropWhile_cons_of_neg (by simp [hp]), read_stuck hst hs hp fuel]
          rfl
      split
      · cases takeNumber (c :: rest) <;> rfl
      · cases takeSigns (c :: rest) with
        | none => rfl
        | some y =>
          rw [Option.bind_some, Option.bind_eq_bind, Option.bind_some]
          cases bracketed st.brackets y.1 <;> rfl

/-- Where the reading of a text comes by. -/
def trail (fuel : Nat) (st : State) (cs : List Char) : List (State × List Char) :=
  match fuel with
  | 0 => []
  | fuel + 1 => (st, cs) :: ((step st cs).elim [] fun y => trail fuel y.2.1 y.2.2)

/-- More steps than the reading of a text takes. -/
def cost (st : State) (cs : List Char) : Nat := 2 * cs.length + if st.atLine then 2 else 1

/-- Whether a text is read as the tokens given, with all the fuel that it can take. -/
def Reads (st : State) (cs : List Char) (ts : List Token) : Prop :=
  ∀ fuel, cost st cs ≤ fuel → read fuel st cs = some ts

section

variable {st st' : State} {cs cs' u w : List Char} {ts us : List Token}

theorem Reads.end (h : st.ends cs = true) : Reads st cs (List.replicate (st.depths.length - 1) .dedent) := by
  intro fuel hf
  have hpos : 0 < cost st cs := by
    rw [cost]
    split <;> omega
  obtain ⟨k, rfl⟩ : ∃ k, fuel = k + 1 := ⟨fuel - 1, by omega⟩
  rw [read_succ, if_pos h]

theorem ends_eq_false_of_step (h : (step st cs).isSome = true) : st.ends cs = false := by
  by_contra he
  rw [Bool.not_eq_false, State.ends, Bool.and_eq_true, Bool.and_eq_true, List.isEmpty_iff] at he
  obtain ⟨⟨hl, hi⟩, hd⟩ := he
  unfold step at h
  rw [if_pos hl, if_pos hi, hd] at h
  cases h

theorem Reads.step (hs : step st cs = some (ts, st', cs')) (hc : cost st' cs' < cost st cs) (h : Reads st' cs' us) :
    Reads st cs (ts ++ us) := by
  intro fuel hf
  obtain ⟨k, rfl⟩ : ∃ k, fuel = k + 1 := ⟨fuel - 1, by omega⟩
  have hends : ¬(st.ends cs = true) := by
    rw [ends_eq_false_of_step (by rw [hs]; rfl)]
    exact Bool.false_ne_true
  rw [read_succ, if_neg hends, hs]
  have hrest := h k (by omega)
  rw [Option.bind_eq_bind, Option.bind_some, hrest]
  rfl

/-- What a reading that does not end does first. -/
theorem read_step {fuel : Nat} (h : read (fuel + 1) st cs = some ts) (he : st.ends cs = false) :
    ∃ y us, Token.step st cs = some y ∧ read fuel y.2.1 y.2.2 = some us ∧ ts = y.1 ++ us := by
  rw [read_succ, if_neg (by simp [he])] at h
  obtain ⟨y, hy, h⟩ := Option.bind_eq_some_iff.mp h
  obtain ⟨us, hus, h⟩ := Option.bind_eq_some_iff.mp h
  cases h
  exact ⟨y, us, hy, hus, rfl⟩

theorem trail_step {fuel : Nat} {y : List Token × State × List Char} (h : Token.step st cs = some y) :
    trail (fuel + 1) st cs = (st, cs) :: trail fuel y.2.1 y.2.2 := by
  rw [trail, h]
  rfl

/-! ### Within a line -/

theorem cost_lt_of_length (hst : st.atLine = false) (h : cs'.length < cs.length) : cost st' cs' < cost st cs := by
  rw [cost, cost, hst]
  split <;> simp <;> omega

theorem length_line_lt {c : Char} (h : v.length ≤ u.length) (w : List Char) :
    (v ++ '\n' :: w).length < (c :: (u ++ '\n' :: w)).length := by
  rw [List.length_cons, List.length_append, List.length_append]
  omega

theorem dropWhile_feed (hu : '\n' ∉ u) (w : List Char) : (u ++ '\n' :: w).dropWhile (· ≠ '\n') = '\n' :: w := by
  rw [List.dropWhile_append_of_pos fun d hd => decide_eq_true (ne_of_mem_of_not_mem hd hu)]
  exact List.dropWhile_cons_of_neg (by simp)

/-- What a step makes of a character in a line, and of what follows it there. -/
theorem step_text {c : Char} (hst : st.atLine = false) (hc : c ≠ '\n') (hu : '\n' ∉ u) (hq : isClosed c u = true) :
    Token.step st (c :: (u ++ '\n' :: w)) =
      if c = '#' then some ([], st, '\n' :: w)
      else if c = '\x5c' ∧ u = [] then if w.isEmpty then none else some ([], st, w)
      else (piece st.brackets c u).map fun y => (y.1, { st with brackets := y.2.1 }, y.2.2 ++ '\n' :: w) := by
  have hhead : (u ++ '\n' :: w).head? = some '\n' ↔ u = [] := by
    rcases u with _ | ⟨d, u⟩
    · simp
    · have hd : d ≠ '\n' := by
        rintro rfl
        exact hu (List.mem_cons_self ..)
      simp [hd]
  unfold Token.step
  rw [if_neg (by simp [hst])]
  dsimp only
  rw [if_neg hc, dropWhile_feed hu]
  simp only [hhead]
  split
  · rfl
  split
  · next hb =>
    rw [hb.2]
    rfl
  · rw [piece_line hq, Option.map_map]
    rfl

theorem step_feed (hst : st.atLine = false) (w : List Char) :
    Token.step st ('\n' :: w) =
      if st.brackets = 0 then some ([.newline], { st with fresh := true }, w) else some ([], st, w) := by
  unfold Token.step
  rw [if_neg (by simp [hst])]
  dsimp only
  rw [if_pos rfl]

theorem step_margin {c : Char} (hst : st.atLine = false) (hc : isMargin c = true) (w : List Char) :
    Token.step st (c :: w) = some ([], st, w) := by
  rw [isMargin, Bool.or_eq_true, beq_iff_eq, beq_iff_eq] at hc
  unfold Token.step
  rw [if_neg (by simp [hst])]
  rcases hc with rfl | rfl <;> rfl

/-- Within a line a margin says nothing. -/
theorem Reads.margin (hst : st.atLine = false) (h : Reads st cs ts) {m : List Char} (hm : m.all isMargin = true) :
    Reads st (m ++ cs) ts := by
  induction m with
  | nil => exact h
  | cons c m ih =>
    rw [List.all_cons, Bool.and_eq_true] at hm
    exact Reads.step (step_margin hst hm.1 _) (cost_lt_of_length hst (by simp)) (ih hm.2)

/-- No reading ends with a bracket open. -/
theorem read_open {fuel : Nat} (hb : st.brackets ≠ 0) (hcs : ∀ c ∈ cs, isMargin c = true ∨ c = '\n') :
    read fuel st cs = none := by
  have hst : st.atLine = false := by
    simp [State.atLine, hb]
  induction fuel generalizing cs with
  | zero => rfl
  | succ fuel ih =>
    have hends : ¬(st.ends cs = true) := by
      simp [State.ends, hst]
    rw [read_succ, if_neg hends]
    rcases cs with _ | ⟨c, cs⟩
    · unfold Token.step
      rw [if_neg (by simp [hst])]
      dsimp only
      rw [if_neg hb]
      rfl
    · have hs : Token.step st (c :: cs) = some ([], st, cs) := by
        rcases hcs c (List.mem_cons_self ..) with hc | rfl
        · exact step_margin hst hc cs
        · rw [step_feed hst, if_neg hb]
      rw [hs, Option.bind_eq_bind, Option.bind_some, ih fun d hd => hcs d (List.mem_cons_of_mem _ hd)]
      rfl

/-! ### At the start of a line -/

/-- The text of a line after its margin. -/
def textOf (line : List Char) : List Char := line.dropWhile isMargin

/-- How deep a line stands that starts with a margin. -/
def depthOf (margin : List Char) : Depth := (takeDepth ⟨0, 0⟩ margin).1

theorem takeDepth_other {c : Char} (hs : c ≠ ' ') (ht : c ≠ '\t') (hf : c ≠ '\x0c') (d : Depth) (cs : List Char) :
    takeDepth d (c :: cs) = (d, c :: cs) := by
  rw [takeDepth]
  · intro rest h
    exact hs (List.cons.inj h).1
  · intro rest h
    exact ht (List.cons.inj h).1
  · intro rest h
    exact hf (List.cons.inj h).1

theorem takeDepth_line {l : List Char} (hl : '\x0c' ∉ l) (d : Depth) (w : List Char) :
    takeDepth d (l ++ '\n' :: w) = ((takeDepth d (marginOf l)).1, textOf l ++ '\n' :: w) := by
  induction l generalizing d with
  | nil => rfl
  | cons c l ih =>
    rw [List.mem_cons, not_or] at hl
    by_cases hs : c = ' '
    · subst hs
      exact ih hl.2 _
    by_cases ht : c = '\t'
    · subst ht
      exact ih hl.2 _
    have hc : isMargin c = false := by
      simp [isMargin, hs, ht]
    rw [List.cons_append, takeDepth_other hs ht (Ne.symm hl.1), marginOf, textOf,
      List.takeWhile_cons_of_neg (by simp [hc]), List.dropWhile_cons_of_neg (by simp [hc])]
    rfl

theorem isIdle_line (u w : List Char) : isIdle (u ++ '\n' :: w) = isIdle u := by
  rcases u with _ | ⟨c, u⟩
  · rfl
  · by_cases hn : c = '\n'
    · subst hn
      rfl
    by_cases hc : c = '#'
    · subst hc
      rfl
    have hother : ∀ cs, isIdle (c :: cs) = false := by
      intro cs
      rw [isIdle] <;> simp [hn, hc]
    rw [List.cons_append, hother, hother]

theorem step_line {l : List Char} (hst : st.atLine = true) (hl : '\n' ∉ l) (hf : '\x0c' ∉ l) (w : List Char) :
    Token.step st (l ++ '\n' :: w) =
      if isIdle (textOf l) then some ([], st, w)
      else (enter (depthOf (marginOf l)) st.depths).map fun y =>
        (y.1, { st with depths := y.2, fresh := false }, textOf l ++ '\n' :: w) := by
  have ht : '\n' ∉ textOf l := fun h => hl ((List.dropWhile_sublist _).subset h)
  unfold Token.step
  rw [if_pos hst, takeDepth_line hf]
  dsimp only
  rw [isIdle_line, dropWhile_feed ht]
  rfl

/-! ### Depths -/

/-- Whether a line stands less deep than another one, however wide tabs are. -/
def Depth.Under (d e : Depth) : Prop := d.wide < e.wide ∧ d.narrow < e.narrow

theorem Depth.Under.trans {d e f : Depth} (h : d.Under e) (h' : e.Under f) : d.Under f :=
  ⟨Nat.lt_trans h.1 h'.1, Nat.lt_trans h.2 h'.2⟩

theorem takeDepth_margin {c : Char} (hc : isMargin c = true) (d : Depth) :
    ∃ e, d.Under e ∧ ∀ cs, takeDepth d (c :: cs) = takeDepth e cs := by
  rw [isMargin, Bool.or_eq_true, beq_iff_eq, beq_iff_eq] at hc
  rcases hc with rfl | rfl
  · exact ⟨_, ⟨Nat.lt_succ_self _, Nat.lt_succ_self _⟩, fun cs => rfl⟩
  · exact ⟨⟨(d.wide / 8 + 1) * 8, d.narrow + 1⟩, ⟨show d.wide < (d.wide / 8 + 1) * 8 by omega, Nat.lt_succ_self _⟩, fun cs => rfl⟩

theorem takeDepth_append {a : List Char} (ha : a.all isMargin = true) (d : Depth) (b : List Char) :
    takeDepth d (a ++ b) = takeDepth (takeDepth d a).1 b := by
  induction a generalizing d with
  | nil => rfl
  | cons c a ih =>
    rw [List.all_cons, Bool.and_eq_true] at ha
    obtain ⟨e, -, he⟩ := takeDepth_margin ha.1 d
    rw [List.cons_append, he, he, ih ha.2]

theorem under_takeDepth {b : List Char} (hb : b.all isMargin = true) (hne : b ≠ []) (d : Depth) :
    d.Under (takeDepth d b).1 := by
  induction b generalizing d with
  | nil => exact absurd rfl hne
  | cons c b ih =>
    rw [List.all_cons, Bool.and_eq_true] at hb
    obtain ⟨e, hde, he⟩ := takeDepth_margin hb.1 d
    rw [he]
    by_cases hnil : b = []
    · subst hnil
      exact hde
    · exact hde.trans (ih hb.2 hnil e)

/-- A margin that goes on where another one ends makes a line stand deeper. -/
theorem depthOf_under {a b : List Char} (hb : b.all isMargin = true) (h : a <+: b) (hne : a ≠ b) :
    (depthOf a).Under (depthOf b) := by
  obtain ⟨c, rfl⟩ := h
  rw [List.all_append, Bool.and_eq_true] at hb
  have hc : c ≠ [] := by
    rintro rfl
    exact hne (List.append_nil a).symm
  rw [depthOf, depthOf, takeDepth_append hb.1]
  exact under_takeDepth hb.2 hc _

theorem enter_same (d : Depth) (ds : List Depth) : enter d (d :: ds) = some ([], d :: ds) := by
  rw [enter, if_pos rfl, if_pos rfl]

theorem enter_deeper {d e : Depth} (h : e.Under d) (ds : List Depth) :
    enter d (e :: ds) = some ([.indent], d :: e :: ds) := by
  rw [enter, if_neg (Nat.ne_of_gt h.1), if_pos h.1, if_pos h.2]

theorem enter_back {d e : Depth} (h : d.Under e) (ds : List Depth) :
    enter d (e :: ds) = (enter d ds).bind fun y => if y.1 = [.indent] then none else some (.dedent :: y.1, y.2) := by
  rw [enter, if_neg (Nat.ne_of_lt h.1), if_neg (Nat.lt_asymm h.1)]

/-- Lines whose margins go on where others end stand alike by any two measures that tell so. -/
theorem enter_alike {S : List (List Char)} {m a : List Char} {f g : List Char → Depth} {rs : List (List Char)}
    (hS : ∀ a ∈ S, ∀ b ∈ S, a <+: b ∨ b <+: a) (hm : ∀ a ∈ S, m <+: a)
    (hf : ∀ a b, b ∈ S → m <+: a → a <+: b → a ≠ b → (f a).Under (f b))
    (hg : ∀ a b, b ∈ S → m <+: a → a <+: b → a ≠ b → (g a).Under (g b))
    (ha : a ∈ S) (hrs : ∀ r ∈ rs, r ∈ S ∧ r ≠ m) (below below' : List Depth) {ts : List Token} {ds : List Depth}
    (h : enter (f a) (rs.map f ++ f m :: below) = some (ts, ds)) :
    ∃ rs' : List (List Char), (∀ r ∈ rs', r ∈ S ∧ r ≠ m) ∧ ds = rs'.map f ++ f m :: below ∧
      enter (g a) (rs.map g ++ g m :: below') = some (ts, rs'.map g ++ g m :: below') := by
  induction rs generalizing ts ds with
  | nil =>
    by_cases heq : m = a
    · subst heq
      rw [List.map_nil, List.nil_append, enter_same] at h
      cases h
      exact ⟨[], hrs, rfl, enter_same ..⟩
    · rw [List.map_nil, List.nil_append, enter_deeper (hf m a ha List.prefix_rfl (hm a ha) heq)] at h
      cases h
      refine ⟨[a], ?_, rfl, enter_deeper (hg m a ha List.prefix_rfl (hm a ha) heq) _⟩
      intro r hr
      rw [List.mem_singleton] at hr
      subst hr
      exact ⟨ha, Ne.symm heq⟩
  | cons r rs ih =>
    obtain ⟨hr, hrm⟩ := hrs r (List.mem_cons_self ..)
    have hrs' : ∀ r ∈ rs, r ∈ S ∧ r ≠ m := fun r h => hrs r (List.mem_cons_of_mem _ h)
    by_cases heq : r = a
    · subst heq
      rw [List.map_cons, List.cons_append, enter_same] at h
      cases h
      exact ⟨r :: rs, hrs, rfl, enter_same ..⟩
    rcases hS r hr a ha with hra | har
    · rw [List.map_cons, List.cons_append, enter_deeper (hf r a ha (hm r hr) hra heq)] at h
      cases h
      refine ⟨a :: r :: rs, ?_, rfl, enter_deeper (hg r a ha (hm r hr) hra heq) _⟩
      intro r' hr'
      rcases List.mem_cons.mp hr' with rfl | hr'
      · refine ⟨ha, ?_⟩
        rintro rfl
        exact hrm (hra.eq_of_length (Nat.le_antisymm hra.length_le (hm r hr).length_le))
      · exact hrs r' hr'
    · rw [List.map_cons, List.cons_append, enter_back (hf a r hr (hm a ha) har (Ne.symm heq))] at h
      obtain ⟨⟨ts', ds'⟩, hy, h⟩ := Option.bind_eq_some_iff.mp h
      obtain ⟨rs', hrs'', rfl, hg'⟩ := ih hrs' hy
      rw [List.map_cons, List.cons_append, enter_back (hg a r hr (hm a ha) har (Ne.symm heq)), hg']
      split at h
      · cases h
      · next hi =>
        cases h
        exact ⟨rs', hrs'', rfl, by rw [Option.bind_some, if_neg hi]⟩

/-- Back at the margin of the first line every block has ended. -/
theorem enter_first {S : List (List Char)} {m : List Char} {f : List Char → Depth} {rs : List (List Char)}
    (hm : ∀ a ∈ S, m <+: a) (hf : ∀ a b, b ∈ S → m <+: a → a <+: b → a ≠ b → (f a).Under (f b))
    (hrs : ∀ r ∈ rs, r ∈ S ∧ r ≠ m) (below : List Depth) :
    enter (f m) (rs.map f ++ f m :: below) = some (List.replicate rs.length .dedent, f m :: below) := by
  induction rs with
  | nil => exact enter_same ..
  | cons r rs ih =>
    obtain ⟨hr, hrm⟩ := hrs r (List.mem_cons_self ..)
    rw [List.map_cons, List.cons_append, enter_back (hf m r hr List.prefix_rfl (hm r hr) (Ne.symm hrm)),
      ih fun r h => hrs r (List.mem_cons_of_mem _ h), Option.bind_some, if_neg]
    · rfl
    · cases rs <;> simp [List.replicate_succ]

end

end LiveSvg.Script.Token
