import LiveSvg.Proofs.Margins
import LiveSvg.Proofs.Phrases
import LiveSvg.Proofs.Reading
/-!
A body and the program that is made of it are read side by side: both say the same, as long as nothing
that the margin is part of goes on from one line to another.
-/

namespace LiveSvg.Script

open Text

namespace Token

/-! ### Lines of a body and of its program -/

/-- A line of a body with a margin: of spaces and tabs alone, or with the margin and more than blanks after it. -/
structure IsLine (m l : List Char) : Prop where
  feed : '\n' ∉ l
  formFeed : '\x0c' ∉ l
  cases : l.all isMargin = true ∨ l.all isBlank = false ∧ m <+: marginOf l

section

variable {m l : List Char}

theorem textOf_of_margin (h : l.all isMargin = true) : textOf l = [] :=
  List.dropWhile_eq_nil_iff.mpr (List.all_eq_true.mp h)

theorem textOf_append {a : List Char} (ha : a.all isMargin = true) (v : List Char) : textOf (a ++ v) = textOf v :=
  List.dropWhile_append_of_pos (List.all_eq_true.mp ha)

theorem marginOf_append {a : List Char} (ha : a.all isMargin = true) (v : List Char) :
    marginOf (a ++ v) = a ++ marginOf v :=
  List.takeWhile_append_of_pos (List.all_eq_true.mp ha)

theorem all_isMargin_of_start {a : List Char} (h : a <+: marginOf l) : a.all isMargin = true :=
  List.all_eq_true.mpr fun c hc => List.all_eq_true.mp (all_marginOf l) c (h.subset hc)

theorem IsLine.textOf_replaced (h : IsLine m l) : textOf (replaced m l) = textOf l := by
  rcases h.cases with hb | ⟨hb, hm⟩
  · rw [replaced_of_margin hb, textOf_of_margin hb]
    rfl
  · obtain ⟨v, rfl, hr⟩ := replaced_of_text hm hb
    rw [hr, textOf_append (by decide), textOf_append (all_isMargin_of_start hm)]

theorem IsLine.marginOf_replaced (h : IsLine m l) (ht : textOf l ≠ []) :
    m <+: marginOf l ∧ marginOf (replaced m l) = bodyMargin ++ (marginOf l).drop m.length := by
  rcases h.cases with hb | ⟨hb, hm⟩
  · exact absurd (textOf_of_margin hb) ht
  · refine ⟨hm, ?_⟩
    have hall := all_isMargin_of_start hm
    obtain ⟨v, rfl, hr⟩ := replaced_of_text hm hb
    rw [hr, marginOf_append (by decide), marginOf_append hall, List.drop_left]

theorem IsLine.replaced (h : IsLine m l) : '\n' ∉ replaced m l ∧ '\x0c' ∉ replaced m l := by
  constructor
  · intro hc
    rcases mem_replaced hc with hc | hc
    · exact h.feed hc
    · exact absurd hc (by decide)
  · intro hc
    rcases mem_replaced hc with hc | hc
    · exact h.formFeed hc
    · exact absurd hc (by decide)

/-- Within brackets, or where a line goes on, only what comes after the margins matters. -/
theorem IsLine.exists_text (h : IsLine m l) :
    ∃ x u a, l = x ++ u ∧ Script.replaced m l = a ++ u ∧ x.all isMargin = true ∧ a.all isMargin = true := by
  rcases h.cases with hb | ⟨hb, hm⟩
  · exact ⟨l, [], [], (List.append_nil l).symm, replaced_of_margin hb, hb, rfl⟩
  · have hall := all_isMargin_of_start hm
    obtain ⟨v, hl, hr⟩ := replaced_of_text hm hb
    exact ⟨m, v, bodyMargin, hl, hr, hall, by decide⟩

end

/-! ### What the text must keep to -/

/-- Whether nothing goes on over the end of a line but statements: a text between quotation marks ends where it
starts, and a line that goes on does so with something. -/
def isSettled (place : State × List Char) : Bool :=
  place.1.atLine || match place.2 with
    | [] => true
    | c :: rest =>
      isClosed c (rest.takeWhile (· ≠ '\n')) &&
        !(c == '\x5c' && rest.head? == some '\n' && rest.all fun d => isMargin d || d == '\n')

/-- The margin of a line that a statement starts on. -/
def startOf? (place : State × List Char) : Option (List Char) :=
  if place.1.atLine && !isIdle (textOf place.2) then some (marginOf place.2) else none

/-- Whether a place is settled, and a statement that starts there after a margin does so on one of those given. -/
def Settled (margin : List Char) (margins : List (List Char)) (place : State × List Char) : Prop :=
  isSettled place = true ∧ ∀ r, startOf? place = some r → margin <+: r → r ∈ margins

/-- Whether what is read in one text, up to blocks open around it, is read in the other one before a last statement. -/
def Pairs (margin : List Char) (margins : List (List Char)) (around fuel : Nat) (st : State) (cs : List Char)
    (st' : State) (cs' : List Char) : Prop :=
  ∀ ts, read fuel st cs = some ts → (∀ p ∈ trail fuel st cs, Settled margin margins p) →
    ∃ b, ts = b ++ List.replicate around .dedent ∧ Reads st' cs' (b ++ Grammar.passEnd)

section

variable {m : List Char} {S : List (List Char)} {k fuel : Nat} {st st' s s' : State} {cs cs' ds ds' : List Char} {t : List Token}

theorem Pairs.zero : Pairs m S k 0 st cs st' cs' := by
  intro ts h
  cases h

/-- One step of the first reading is one of the second one, or none at all. -/
theorem Pairs.of_step (he : st.ends cs = false)
    (h : ∀ t s ds, Settled m S (st, cs) → Token.step st cs = some (t, s, ds) →
      (∃ s' ds', Token.step st' cs' = some (t, s', ds') ∧ cost s' ds' < cost st' cs' ∧ Pairs m S k fuel s ds s' ds') ∨
        t = [] ∧ Pairs m S k fuel s ds st' cs') : Pairs m S k (fuel + 1) st cs st' cs' := by
  intro ts hts hp
  obtain ⟨⟨t, s, ds⟩, us, hs, hus, rfl⟩ := read_step hts he
  rw [trail_step hs] at hp
  have hrest : ∀ p ∈ trail fuel s ds, Settled m S p := fun p hp' => hp p (List.mem_cons_of_mem _ hp')
  rcases h t s ds (hp _ (List.mem_cons_self ..)) hs with ⟨s', ds', hs', hc, hpairs⟩ | ⟨rfl, hpairs⟩
  · obtain ⟨b, rfl, hr⟩ := hpairs us hus hrest
    refine ⟨t ++ b, (List.append_assoc ..).symm, ?_⟩
    rw [List.append_assoc]
    exact Reads.step hs' hc hr
  · exact hpairs us hus hrest

theorem ends_of_text (hst : st.atLine = false) : st.ends cs = false := by
  rw [State.ends, hst]
  rfl

theorem ends_line {l : List Char} (hst : st.atLine = true) (hl : '\n' ∉ l) (hf : '\x0c' ∉ l) (w : List Char) :
    st.ends (l ++ '\n' :: w) = false := by
  by_cases hi : isIdle (textOf l) = true
  · refine ends_eq_false_of_step ?_
    rw [step_line hst hl hf, if_pos hi]
    rfl
  · rw [State.ends, takeDepth_line hf, isIdle_line]
    simp [hi]

/-! ### Side by side -/

/-- How deep a line of a program stands for a line with a margin. -/
def newDepth (m r : List Char) : Depth := depthOf (bodyMargin ++ r.drop m.length)

/-- Two readings that stand alike: in as many brackets, and in blocks for lines with the same margins. -/
structure Alike (S : List (List Char)) (m : List Char) (below : List Depth) (rs : List (List Char)) (st st' : State) :
    Prop where
  brackets : st'.brackets = st.brackets
  fresh : st'.fresh = st.fresh
  depths : st.depths = rs.map depthOf ++ depthOf m :: below
  newDepths : st'.depths = rs.map (newDepth m) ++ newDepth m m :: [⟨0, 0⟩]
  inside : ∀ r ∈ rs, r ∈ S ∧ r ≠ m

/-- The margins of the lines that statements start on: each goes on where the margin of the body ends, and of two
of them one goes on where the other one ends. -/
structure Aligned (m : List Char) (S : List (List Char)) : Prop where
  margins : ∀ a ∈ S, a.all isMargin = true
  own : ∀ a ∈ S, m <+: a
  chain : ∀ a ∈ S, ∀ b ∈ S, a <+: b ∨ b <+: a

variable {u x : List Char} {rs L post : List (List Char)} {below : List Depth}

theorem Aligned.depthOf_under (h : Aligned m S) {a b : List Char} (hb : b ∈ S) (hab : a <+: b) (hne : a ≠ b) :
    (depthOf a).Under (depthOf b) := Token.depthOf_under (h.margins b hb) hab hne

theorem Aligned.newDepth_under (h : Aligned m S) {a b : List Char} (hb : b ∈ S) (hm : m <+: a) (hab : a <+: b)
    (hne : a ≠ b) : (newDepth m a).Under (newDepth m b) := by
  obtain ⟨v, rfl⟩ := hm
  obtain ⟨w, rfl⟩ := hab
  have hall := h.margins _ hb
  rw [List.all_append, List.all_append, Bool.and_eq_true, Bool.and_eq_true] at hall
  rw [newDepth, newDepth, List.drop_left, List.append_assoc, List.drop_left]
  refine Token.depthOf_under ?_ ?_ ?_
  · rw [List.all_append, List.all_append, hall.1.2, hall.2]
    decide
  · rw [← List.append_assoc]
    exact List.prefix_append ..
  · intro heq
    have hw : w = [] := by simpa using heq
    exact hne (by rw [hw, List.append_nil])

theorem Alike.atLine (h : Alike S m below rs st st') : st'.atLine = st.atLine := by
  rw [State.atLine, State.atLine, h.brackets, h.fresh]

/-- A line that a statement starts on opens and closes the same blocks. -/
theorem Alike.enter (h : Alike S m below rs st st') (hS : Aligned m S) {a : List Char} (ha : a ∈ S) {ds : List Depth}
    (he : Token.enter (depthOf a) st.depths = some (t, ds)) :
    ∃ rs' ds', Token.enter (newDepth m a) st'.depths = some (t, ds') ∧
      Alike S m below rs' { st with depths := ds, fresh := false } { st' with depths := ds', fresh := false } := by
  rw [h.depths] at he
  obtain ⟨rs', hrs', rfl, he'⟩ := enter_alike hS.chain hS.own
    (fun a b hb _ hab hne => hS.depthOf_under hb hab hne) (fun a b hb hm hab hne => hS.newDepth_under hb hm hab hne)
    ha h.inside below [⟨0, 0⟩] he
  rw [← h.newDepths] at he'
  exact ⟨rs', _, he', h.brackets, rfl, rfl, rfl, hrs'⟩

theorem flat_of_margin {l : List Char} (hl : l.all isMargin = true) : '\n' ∉ l ∧ '\x0c' ∉ l :=
  ⟨fun hc => absurd (List.all_eq_true.mp hl _ hc) (by decide), fun hc => absurd (List.all_eq_true.mp hl _ hc) (by decide)⟩

/-- Lines of spaces and tabs say nothing: what is open then ends. -/
theorem read_post (hst : st.atLine = true) (hpost : ∀ l ∈ post, l.all isMargin = true) {ts : List Token}
    (h : read fuel st (ended post) = some ts) : ts = List.replicate (st.depths.length - 1) .dedent := by
  induction post generalizing fuel with
  | nil =>
    cases fuel with
    | zero => cases h
    | succ fuel =>
      have he : st.ends (ended []) = true := by
        rw [State.ends, hst]
        rfl
      rw [read_succ, if_pos he] at h
      exact (Option.some.inj h).symm
  | cons l post ih =>
    obtain ⟨hn, hf⟩ := flat_of_margin (hpost l (List.mem_cons_self ..))
    rw [ended_cons] at h
    cases fuel with
    | zero => cases h
    | succ fuel =>
      obtain ⟨y, us, hy, hus, rfl⟩ := read_step h (ends_line hst hn hf _)
      rw [step_line hst hn hf, textOf_of_margin (hpost l (List.mem_cons_self ..)), if_pos (show isIdle [] = true from rfl)] at hy
      cases hy
      exact ih (fun l hl => hpost l (List.mem_cons_of_mem _ hl)) hus

/-- The last line of a program is a statement of its own. -/
theorem reads_passLine (hst : st'.atLine = true) {depths : List Depth}
    (he : Token.enter (depthOf bodyMargin) st'.depths = some (t, depths)) (hl : depths.length = 2) :
    Reads st' (ended [passLine]) (t ++ Grammar.passEnd) := by
  obtain ⟨s, hs⟩ : ∃ s : State, { st' with depths := depths, fresh := false } = s := ⟨_, rfl⟩
  have hb : st'.brackets = 0 := by
    rw [State.atLine, Bool.and_eq_true, beq_iff_eq] at hst
    exact hst.2
  have hsb : s.brackets = 0 := by rw [← hs, hb]
  have hsl : s.atLine = false := by rw [← hs]; rfl
  have hline : Token.step st' (passLine ++ '\n' :: []) = some (t, s, ['p', 'a', 's', 's', '\n']) := by
    rw [step_line hst (by decide) (by decide), ← hs, if_neg (by decide), show marginOf passLine = bodyMargin from rfl, he]
    rfl
  have hword : Token.step s ['p', 'a', 's', 's', '\n'] = some ([.name "pass"], s, ['\n']) := by
    have hpiece : piece s.brackets 'p' ['a', 's', 's'] = some ([.name "pass"], s.brackets, []) := rfl
    have htext := step_text (u := ['a', 's', 's']) (c := 'p') (w := []) hsl (by decide) (by decide) rfl
    rw [hpiece] at htext
    exact htext
  have hfeed : Token.step s ['\n'] = some ([.newline], { s with fresh := true }, []) := by
    rw [step_feed hsl, if_pos hsb]
  have hend : ({ s with fresh := true } : State).ends [] = true := by
    simp [State.ends, State.atLine, hsb, takeDepth, isIdle]
  have hlast : Reads { s with fresh := true } [] [.dedent] := by
    have hdepths : s.depths.length = 2 := by rw [← hs, hl]
    have hr := Reads.end hend
    rwa [show ({ s with fresh := true } : State).depths.length = 2 from hdepths] at hr
  refine Reads.step hline ?_ (Reads.step hword ?_ (Reads.step hfeed ?_ hlast))
  · rw [cost, cost, hst, hsl]
    decide
  · exact cost_lt_of_length hsl (by decide)
  · exact cost_lt_of_length hsl (by decide)

theorem startOf?_line {l : List Char} (hst : st.atLine = true) (hi : ¬(isIdle (textOf l) = true)) (w : List Char) :
    startOf? (st, l ++ '\n' :: w) = some (marginOf l) := by
  have ht : textOf (l ++ '\n' :: w) = textOf l ++ '\n' :: w := dropWhile_line (by decide) l w
  have hm : marginOf (l ++ '\n' :: w) = marginOf l := takeWhile_line (by decide) l w
  rw [startOf?, hst, ht, isIdle_line, hm, if_pos]
  simpa using hi

theorem Pairs.margin (hst : st'.atLine = false) (h : Pairs m S k fuel st cs st' cs') {a : List Char}
    (ha : a.all isMargin = true) : Pairs m S k fuel st cs st' (a ++ cs') := by
  intro ts hts hp
  obtain ⟨b, hb, hr⟩ := h ts hts hp
  exact ⟨b, hb, Reads.margin hst hr ha⟩

theorem newDepth_own (m : List Char) : newDepth m m = depthOf bodyMargin := by
  rw [newDepth, List.drop_length, List.append_nil]

theorem mem_ended_of_margin {c : Char} (hpost : ∀ l ∈ post, l.all isMargin = true) (hc : c ∈ ended post) :
    isMargin c = true ∨ c = '\n' := by
  obtain ⟨l, hl, hc⟩ := List.mem_flatMap.mp hc
  rcases List.mem_append.mp hc with hc | hc
  · exact .inl (List.all_eq_true.mp (hpost l hl) c hc)
  · exact .inr (List.mem_singleton.mp hc)

/-- Whether readings that stand alike go on alike, at the start of a line and within one, with the fuel given. In the
body the margin of a line may be still to come. -/
structure GoesAlike (S : List (List Char)) (m : List Char) (below : List Depth) (post : List (List Char)) (fuel : Nat) :
    Prop where
  line : ∀ {rs st st' L}, Alike S m below rs st st' → st.atLine = true → (∀ l ∈ L, IsLine m l) →
    Pairs m S below.length fuel st (ended (L ++ post)) st' (ended (L.map (replaced m) ++ [passLine]))
  text : ∀ {rs st st' L x u}, Alike S m below rs st st' → st.fresh = false → (∀ l ∈ L, IsLine m l) →
    x.all isMargin = true → '\n' ∉ u →
    Pairs m S below.length fuel st (x ++ (u ++ '\n' :: ended (L ++ post))) st'
      (u ++ '\n' :: ended (L.map (replaced m) ++ [passLine]))

theorem GoesAlike.zero : GoesAlike S m below post 0 :=
  ⟨fun _ _ _ => Pairs.zero, fun _ _ _ _ _ => Pairs.zero⟩

/-- After the last line of the body what is open ends, and in the program the last statement comes. -/
theorem pairs_post (hS : Aligned m S) (hpost : ∀ l ∈ post, l.all isMargin = true) (h : Alike S m below rs st st')
    (hst : st.atLine = true) : Pairs m S below.length fuel st (ended post) st' (ended [passLine]) := by
  intro ts hts hp
  refine ⟨List.replicate rs.length .dedent, ?_, ?_⟩
  · rw [read_post hst hpost hts, h.depths, List.replicate_append_replicate]
    congr 1
    simp
  · have he := enter_first hS.own (fun a b hb hm hab hne => hS.newDepth_under hb hm hab hne) h.inside [⟨0, 0⟩]
    rw [← h.newDepths, newDepth_own] at he
    exact reads_passLine (h.atLine.trans hst) he rfl

theorem GoesAlike.succ_line (hg : GoesAlike S m below post fuel) (hS : Aligned m S) (h : Alike S m below rs st st')
    (hst : st.atLine = true) {l : List Char} (hL : ∀ l' ∈ l :: L, IsLine m l') :
    Pairs m S below.length (fuel + 1) st (ended (l :: L ++ post)) st' (ended ((l :: L).map (replaced m) ++ [passLine])) := by
  have hst' : st'.atLine = true := h.atLine.trans hst
  have hl := hL l (List.mem_cons_self ..)
  have hL' : ∀ l ∈ L, IsLine m l := fun l hl => hL l (List.mem_cons_of_mem _ hl)
  rw [List.cons_append, ended_cons, List.map_cons, List.cons_append, ended_cons]
  refine Pairs.of_step (ends_line hst hl.feed hl.formFeed _) fun t s ds hset hs => .inl ?_
  have hs' := step_line hst' hl.replaced.1 hl.replaced.2 (ended (L.map (replaced m) ++ [passLine]))
  rw [hl.textOf_replaced] at hs'
  rw [step_line hst hl.feed hl.formFeed] at hs
  by_cases hi : isIdle (textOf l) = true
  · rw [if_pos hi] at hs hs'
    cases hs
    refine ⟨st', _, hs', ?_, hg.line h hst hL'⟩
    rw [cost, cost, List.length_append, List.length_cons]
    omega
  · rw [if_neg hi] at hs hs'
    obtain ⟨⟨t', depths⟩, he, hy⟩ := Option.map_eq_some_iff.mp hs
    cases hy
    have ht : textOf l ≠ [] := by
      intro hnil
      rw [hnil] at hi
      exact hi rfl
    have htl : '\n' ∉ textOf l := fun hc => hl.feed ((List.dropWhile_sublist _).subset hc)
    obtain ⟨hm, hmr⟩ := hl.marginOf_replaced ht
    obtain ⟨rs', depths', he', halike⟩ := h.enter hS (hset.2 _ (startOf?_line hst hi _) hm) he
    rw [hmr, show depthOf (bodyMargin ++ (marginOf l).drop m.length) = newDepth m (marginOf l) from rfl, he'] at hs'
    refine ⟨_, _, hs', ?_, hg.text (x := []) halike rfl hL' rfl htl⟩
    have hlen : (textOf l).length ≤ (replaced m l).length := by
      rw [← hl.textOf_replaced]
      exact (List.dropWhile_sublist _).length_le
    rw [cost, cost, hst', show ({ st' with depths := depths', fresh := false } : State).atLine = false from rfl,
      if_pos rfl, if_neg Bool.false_ne_true, List.length_append, List.length_append]
    omega

/-- Within brackets, and where a line goes on, the next line is read from where its margin ends. -/
theorem GoesAlike.next (hg : GoesAlike S m below post fuel) (h : Alike S m below rs st st') (hst : st.fresh = false)
    {l : List Char} (hL : ∀ l' ∈ l :: L, IsLine m l') :
    Pairs m S below.length fuel st (ended (l :: L ++ post)) st' (ended ((l :: L).map (replaced m) ++ [passLine])) := by
  have hst' : st'.atLine = false := by
    rw [State.atLine, h.fresh, hst]
    rfl
  have hl := hL l (List.mem_cons_self ..)
  obtain ⟨x, u, a, hxu, hr, hx, ha⟩ := hl.exists_text
  have hu : '\n' ∉ u := fun hc => hl.feed (hxu ▸ List.mem_append_right _ hc)
  rw [List.cons_append, ended_cons, List.map_cons, List.cons_append, ended_cons, hr, hxu, List.append_assoc,
    List.append_assoc]
  exact (hg.text h hst (fun l hl => hL l (List.mem_cons_of_mem _ hl)) hx hu).margin hst' ha

/-- At the end of a line. -/
theorem GoesAlike.succ_feed (hg : GoesAlike S m below post fuel) (hpost : ∀ l ∈ post, l.all isMargin = true)
    (h : Alike S m below rs st st') (hst : st.fresh = false) (hL : ∀ l ∈ L, IsLine m l) :
    Pairs m S below.length (fuel + 1) st ('\n' :: ended (L ++ post)) st' ('\n' :: ended (L.map (replaced m) ++ [passLine])) := by
  have hsl : st.atLine = false := by
    rw [State.atLine, hst]
    rfl
  have hsl' : st'.atLine = false := h.atLine.trans hsl
  by_cases hb : st.brackets = 0
  · refine Pairs.of_step (ends_of_text hsl) fun t s ds hset hs => .inl ?_
    rw [step_feed hsl, if_pos hb] at hs
    cases hs
    have halike : Alike S m below rs { st with fresh := true } { st' with fresh := true } :=
      ⟨h.brackets, rfl, h.depths, h.newDepths, h.inside⟩
    have hline : ({ st with fresh := true } : State).atLine = true := by
      simp [State.atLine, hb]
    refine ⟨_, _, ?_, cost_lt_of_length hsl' (by simp), hg.line halike hline hL⟩
    rw [step_feed hsl', if_pos (h.brackets.trans hb)]
  · rcases L with _ | ⟨l, L⟩
    · intro ts hts hp
      have hopen : read (fuel + 1) st ('\n' :: ended post) = none := by
        refine read_open hb fun c hc => ?_
        rcases List.mem_cons.mp hc with rfl | hc
        · exact .inr rfl
        · exact mem_ended_of_margin hpost hc
      rw [List.nil_append, hopen] at hts
      cases hts
    · refine Pairs.of_step (ends_of_text hsl) fun t s ds hset hs => .inl ?_
      rw [step_feed hsl, if_neg hb] at hs
      cases hs
      refine ⟨_, _, ?_, cost_lt_of_length hsl' (by simp), hg.next h hst hL⟩
      rw [step_feed hsl', if_neg (by rwa [h.brackets])]

/-- At a character within a line. -/
theorem GoesAlike.succ_text (hg : GoesAlike S m below post fuel) (hpost : ∀ l ∈ post, l.all isMargin = true)
    (h : Alike S m below rs st st') (hst : st.fresh = false) (hL : ∀ l ∈ L, IsLine m l) {c : Char} (hc : c ≠ '\n')
    (hu : '\n' ∉ u) :
    Pairs m S below.length (fuel + 1) st (c :: (u ++ '\n' :: ended (L ++ post))) st'
      (c :: (u ++ '\n' :: ended (L.map (replaced m) ++ [passLine]))) := by
  have hsl : st.atLine = false := by
    rw [State.atLine, hst]
    rfl
  have hsl' : st'.atLine = false := h.atLine.trans hsl
  refine Pairs.of_step (ends_of_text hsl) fun t s ds hset hs => .inl ?_
  have hset := hset.1
  rw [isSettled, hsl, Bool.false_or, Bool.and_eq_true] at hset
  have hq : isClosed c u = true := by
    have htake : (u ++ '\n' :: ended (L ++ post)).takeWhile (· ≠ '\n') = u := by
      rw [takeWhile_line (by decide)]
      exact List.takeWhile_eq_self_iff.mpr fun d hd => decide_eq_true (ne_of_mem_of_not_mem hd hu)
    rw [htake] at hset
    exact hset.1
  have hs' := step_text hsl' hc hu hq (w := ended (L.map (replaced m) ++ [passLine]))
  rw [step_text hsl hc hu hq] at hs
  by_cases hh : c = '#'
  · rw [if_pos hh] at hs hs'
    cases hs
    refine ⟨_, _, hs', cost_lt_of_length hsl' (length_line_lt (v := []) (Nat.zero_le _) _), ?_⟩
    exact hg.text (x := []) (u := []) h hst hL rfl List.not_mem_nil
  rw [if_neg hh] at hs hs'
  by_cases hb : c = '\x5c' ∧ u = []
  · obtain ⟨rfl, rfl⟩ := hb
    rw [if_pos ⟨rfl, rfl⟩] at hs hs'
    rcases L with _ | ⟨l, L⟩
    · -- nothing but blanks comes where the line would go on
      have hall : ('\n' :: ended post).all (fun d => isMargin d || d == '\n') = true := by
        rw [List.all_eq_true]
        intro d hd
        rcases List.mem_cons.mp hd with rfl | hd
        · rfl
        · simpa using mem_ended_of_margin hpost hd
      have hgoes := hset.2
      simp [hall] at hgoes
    · have hne : ∀ ls : List (List Char), ls ≠ [] → (ended ls).isEmpty = false := by
        intro ls hls
        obtain ⟨l, ls, rfl⟩ := List.exists_cons_of_ne_nil hls
        rw [ended_cons]
        simp
      rw [hne _ (by simp)] at hs hs'
      cases hs
      exact ⟨_, _, hs', cost_lt_of_length hsl' (Nat.lt_of_succ_lt (length_line_lt (v := []) le_rfl _)), hg.next h hst hL⟩
  · rw [if_neg hb] at hs hs'
    obtain ⟨⟨ts, b, v⟩, hp, hy⟩ := Option.map_eq_some_iff.mp hs
    cases hy
    rw [h.brackets, hp] at hs'
    have hv := (piece_spec hp).1
    have halike : Alike S m below rs { st with brackets := b } { st' with brackets := b } :=
      ⟨rfl, h.fresh, h.depths, h.newDepths, h.inside⟩
    refine ⟨_, _, hs', cost_lt_of_length hsl' (length_line_lt hv.length_le _), ?_⟩
    exact hg.text (x := []) halike hst hL rfl fun hn => hu (hv.subset hn)

/-- Readings that stand alike go on alike. -/
theorem goesAlike (hS : Aligned m S) (hpost : ∀ l ∈ post, l.all isMargin = true) (fuel : Nat) :
    GoesAlike S m below post fuel := by
  induction fuel with
  | zero => exact .zero
  | succ fuel hg =>
    constructor
    · intro rs st st' L h hst hL
      rcases L with _ | ⟨l, L⟩
      · exact pairs_post hS hpost h hst
      · exact hg.succ_line hS h hst hL
    · intro rs st st' L x u h hst hL hx hu
      rcases x with _ | ⟨c, x⟩
      · rcases u with _ | ⟨c, u⟩
        · exact hg.succ_feed hpost h hst hL
        · rw [List.mem_cons, not_or] at hu
          exact hg.succ_text hpost h hst hL (Ne.symm hu.1) hu.2
      · have hsl : st.atLine = false := by
          rw [State.atLine, hst]
          rfl
        rw [List.all_cons, Bool.and_eq_true] at hx
        refine Pairs.of_step (ends_of_text hsl) fun t s ds hset hs => .inr ?_
        rw [List.cons_append, step_margin hsl hx.1] at hs
        cases hs
        exact ⟨rfl, hg.text h hst hL hx.2 hu⟩

/-! ### From the first line on -/

/-- The tokens of statements as those of one block. -/
def enclosed (ts : List Token) : List Token := if ts.head? = some .indent then ts else .indent :: (ts ++ [.dedent])

/-- What is read within a line does not start with the depth of one. -/
theorem head?_of_read {ts : List Token} (hst : st.fresh = false) (h : read fuel st cs = some ts) :
    ts.head? ≠ some .indent := by
  induction fuel generalizing st cs ts with
  | zero => cases h
  | succ fuel ih =>
    have hsl : st.atLine = false := by
      rw [State.atLine, hst]
      rfl
    obtain ⟨y, us, hy, hus, rfl⟩ := read_step h (ends_of_text hsl)
    have hgo : ∀ s ds, s.fresh = false → y = ([], s, ds) → (y.1 ++ us).head? ≠ some .indent := by
      rintro s ds hs rfl
      exact ih hs hus
    unfold Token.step at hy
    rw [if_neg (by simp [hsl])] at hy
    rcases cs with _ | ⟨c, rest⟩
    · dsimp only at hy
      split at hy
      · next hb =>
        cases hy
        have hline : ({ st with fresh := true } : State).atLine = true := by
          simp [State.atLine, hb]
        have hend : us = List.replicate (st.depths.length - 1) .dedent :=
          read_post hline (List.forall_mem_nil _) hus
        rw [List.nil_append, hend]
        cases st.depths.length - 1 <;> simp [List.replicate_succ]
      · cases hy
    · dsimp only at hy
      split at hy
      · split at hy
        · cases hy
          simp
        · exact hgo st rest hst (Option.some.inj hy).symm
      split at hy
      · exact hgo st _ hst (Option.some.inj hy).symm
      split at hy
      · split at hy
        · cases hy
        · exact hgo st _ hst (Option.some.inj hy).symm
      · obtain ⟨⟨t, b, v⟩, hp, hy⟩ := Option.map_eq_some_iff.mp hy
        rcases t with _ | ⟨t, ts⟩
        · exact hgo { st with brackets := b } v hst hy.symm
        · have ht := (piece_spec hp).2
          rw [List.mem_cons, not_or] at ht
          rw [← hy]
          simpa using Ne.symm ht.1

/-- Lines of spaces and tabs before all others say nothing. -/
theorem read_pre {ts : List Token} {pre : List (List Char)} (hst : st.atLine = true) (hpre : ∀ l ∈ pre, l.all isMargin = true)
    (h : read fuel st (ended (pre ++ L)) = some ts) :
    ∃ n, read n st (ended L) = some ts ∧ ∀ p ∈ trail n st (ended L), p ∈ trail fuel st (ended (pre ++ L)) := by
  induction pre generalizing fuel ts with
  | nil => exact ⟨fuel, h, fun p hp => hp⟩
  | cons l pre ih =>
    obtain ⟨hn, hf⟩ := flat_of_margin (hpre l (List.mem_cons_self ..))
    rw [List.cons_append, ended_cons] at h ⊢
    cases fuel with
    | zero => cases h
    | succ fuel =>
      obtain ⟨y, us, hy, hus, rfl⟩ := read_step h (ends_line hst hn hf _)
      rw [trail_step hy]
      rw [step_line hst hn hf, textOf_of_margin (hpre l (List.mem_cons_self ..)), if_pos (show isIdle [] = true from rfl)] at hy
      cases hy
      obtain ⟨n, hr, ht⟩ := ih (fun l hl => hpre l (List.mem_cons_of_mem _ hl)) hus
      exact ⟨n, hr, fun p hp => List.mem_cons_of_mem _ (ht p hp)⟩

/-- A body and its program are read alike from the first line on, if the first statement starts on the margin. -/
theorem reads_first (hS : Aligned m S) (hpost : ∀ l ∈ post, l.all isMargin = true) (hL : ∀ l ∈ L, IsLine m l)
    (hfirst : ∀ l, L.find? (fun l => !isIdle (textOf l)) = some l → marginOf l = m) {ts : List Token}
    (h : read fuel {} (ended (L ++ post)) = some ts) (hp : ∀ p ∈ trail fuel {} (ended (L ++ post)), Settled m S p) :
    ∃ b, enclosed ts = .indent :: (b ++ Grammar.blockEnd) ∧
      Reads {} (ended (L.map (replaced m) ++ [passLine])) (.indent :: (b ++ Grammar.passEnd)) := by
  induction L generalizing fuel ts with
  | nil =>
    have he : Token.enter (depthOf bodyMargin) [⟨0, 0⟩] = some ([.indent], [depthOf bodyMargin, ⟨0, 0⟩]) := by
      decide
    have hr : Reads {} (ended [passLine]) ([.indent] ++ Grammar.passEnd) := reads_passLine rfl he rfl
    rw [read_post rfl hpost h]
    exact ⟨[], rfl, hr⟩
  | cons l L ih =>
    have hl := hL l (List.mem_cons_self ..)
    have hL' : ∀ l ∈ L, IsLine m l := fun l hl => hL l (List.mem_cons_of_mem _ hl)
    rw [List.cons_append, ended_cons] at h hp
    rw [List.map_cons, List.cons_append, ended_cons]
    have hst : State.atLine {} = true := rfl
    have hs' := step_line hst hl.replaced.1 hl.replaced.2 (ended (L.map (replaced m) ++ [passLine]))
    rw [hl.textOf_replaced] at hs'
    cases fuel with
    | zero => cases h
    | succ fuel =>
      obtain ⟨y, us, hy, hus, rfl⟩ := read_step h (ends_line rfl hl.feed hl.formFeed _)
      rw [trail_step hy] at hp
      rw [step_line rfl hl.feed hl.formFeed] at hy
      by_cases hi : isIdle (textOf l) = true
      · rw [if_pos hi] at hy hs'
        cases hy
        have hfirst' : ∀ l, L.find? (fun l => !isIdle (textOf l)) = some l → marginOf l = m := by
          intro l' hl'
          refine hfirst l' ?_
          rw [List.find?_cons_of_neg (by simp [hi]), hl']
        obtain ⟨b, hb, hr⟩ := ih hL' hfirst' hus fun p hp' => hp p (List.mem_cons_of_mem _ hp')
        refine ⟨b, hb, Reads.step hs' ?_ hr⟩
        rw [cost, cost, List.length_append, List.length_cons]
        omega
      · rw [if_neg hi] at hy hs'
        have hm : marginOf l = m := hfirst l (List.find?_cons_of_pos (by simpa using hi))
        have ht : textOf l ≠ [] := by
          intro hnil
          rw [hnil] at hi
          exact hi rfl
        have htl : '\n' ∉ textOf l := fun hc => hl.feed ((List.dropWhile_sublist _).subset hc)
        have hlen : (textOf l).length ≤ (replaced m l).length := by
          rw [← hl.textOf_replaced]
          exact (List.dropWhile_sublist _).length_le
        have hmargin : m.all isMargin = true := hm ▸ all_marginOf l
        have henter' : Token.enter (depthOf (marginOf (replaced m l))) [⟨0, 0⟩] =
            some ([.indent], [newDepth m m, ⟨0, 0⟩]) := by
          rw [(hl.marginOf_replaced ht).2, hm, newDepth, List.drop_length, List.append_nil]
          exact enter_deeper (Token.depthOf_under (a := []) (by decide) List.nil_prefix (by decide)) []
        have henter : ∃ t below, Token.enter (depthOf (marginOf l)) [⟨0, 0⟩] = some (t, depthOf m :: below) ∧
            (t = [] ∧ below = [] ∨ t = [.indent] ∧ below = [⟨0, 0⟩]) := by
          rw [hm]
          by_cases hnil : m = []
          · subst hnil
            exact ⟨[], [], rfl, .inl ⟨rfl, rfl⟩⟩
          · exact ⟨_, _, enter_deeper (Token.depthOf_under hmargin List.nil_prefix (Ne.symm hnil)) [], .inr ⟨rfl, rfl⟩⟩
        obtain ⟨t, below, he, hbelow⟩ := henter
        rw [he] at hy
        rw [henter'] at hs'
        cases hy
        have halike : Alike S m below [] { depths := depthOf m :: below, fresh := false }
            { depths := [newDepth m m, ⟨0, 0⟩], fresh := false } := ⟨rfl, rfl, rfl, rfl, List.forall_mem_nil _⟩
        obtain ⟨b, rfl, hr⟩ := (goesAlike hS hpost fuel).text (x := []) halike rfl hL' rfl htl us hus
          fun p hp' => hp p (List.mem_cons_of_mem _ hp')
        refine ⟨b, ?_, Reads.step hs' ?_ hr⟩
        · rcases hbelow with ⟨rfl, rfl⟩ | ⟨rfl, rfl⟩
          · rw [List.length_nil, List.replicate_zero, List.append_nil] at hus
            have hhead := head?_of_read rfl hus
            simp [enclosed, hhead, Grammar.blockEnd]
          · rfl
        · rw [cost, cost, hst]
          simp [State.atLine]
          omega

end

end Token

end LiveSvg.Script
