import LiveSvg.Document
import LiveSvg.Proofs.Characters
import LiveSvg.Proofs.Names
import LiveSvg.Proofs.Rereading
/-!
Texts that are no descriptors. Reading recovers from all that is wrong with one but for two things: an
integer with too many digits, and a list or an object in the place of a name that may not be repeated.
-/

namespace LiveSvg

namespace Json

open Number Text

variable {α β : Type} {fuel depth : Nat} {cs rest : List Char}

/-! ### Integers with too many digits -/

/-- Whether more digits than an integer may have stand in a row somewhere. -/
def Overlong (cs : List Char) : Prop :=
  ∃ run, run <:+: cs ∧ maxIntDigits < run.length ∧ ∀ c ∈ run, isAsciiDigit c = true

/-- Whether a reader has left an end of a text, or has found too many digits in it if it says so. -/
def Onward (cs : List Char) : Except ReadError (α × List Char) → Prop
  | .ok (_, rest) => rest <:+ cs
  | .error e => e = .hugeInteger → Overlong cs

theorem Overlong.mono (h : Overlong rest) (hs : rest <:+ cs) : Overlong cs := by
  obtain ⟨run, hrun, hlen, hall⟩ := h
  exact ⟨run, hrun.trans hs.isInfix, hlen, hall⟩

theorem Onward.mono {r : Except ReadError (α × List Char)} (h : Onward rest r) (hs : rest <:+ cs) : Onward cs r := by
  cases r with
  | error e => exact fun he => (h he).mono hs
  | ok found => exact List.IsSuffix.trans h hs

theorem Onward.malformed : Onward cs (.error .malformed : Except ReadError (α × List Char)) := by
  intro h
  cases h

theorem Onward.tooDeep : Onward cs (.error .tooDeep : Except ReadError (α × List Char)) := by
  intro h
  cases h

/-- A reader that goes on where another one has stopped. -/
theorem Onward.bind {x : Except ReadError (α × List Char)} {f : α × List Char → Except ReadError (β × List Char)}
    (hx : Onward cs x) (hf : ∀ a rest, Onward rest (f (a, rest))) : Onward cs (x >>= f) := by
  cases x with
  | error e => exact hx
  | ok found => exact (hf found.1 found.2).mono hx

theorem skipSpace_suffix (cs : List Char) : skipSpace cs <:+ cs := List.dropWhile_suffix _

/-- What stands after blanks and a sign is an end of the text. -/
theorem suffix_of_skipSpace {c : Char} (h : skipSpace cs = c :: rest) : rest <:+ cs :=
  (h ▸ List.suffix_cons c rest : rest <:+ skipSpace cs).trans (skipSpace_suffix cs)

theorem unit?_suffix {n : Nat} (h : unit? cs = some (n, rest)) : rest <:+ cs := by
  unfold unit? at h
  split at h
  · next a b c d more =>
    simp only [Option.bind_eq_bind, Option.bind_eq_some_iff, Option.pure_def, Option.some.injEq, Prod.mk.injEq] at h
    obtain ⟨_, -, _, -, _, -, _, -, -, rfl⟩ := h
    exact ⟨[a, b, c, d], rfl⟩
  · cases h

theorem lowUnit?_suffix {n : Nat} (h : lowUnit? cs = some (n, rest)) : rest <:+ cs := by
  unfold lowUnit? at h
  split at h
  · next more =>
    obtain ⟨⟨m, after⟩, hu, h⟩ := Option.bind_eq_some_iff.mp h
    dsimp only at h
    split at h
    · cases h
      exact (unit?_suffix hu).trans ⟨['\x5c', 'u'], rfl⟩
    · cases h
  · cases h

theorem readText_onward (fuel : Nat) (done cs : List Char) : Onward cs (readText fuel done cs) := by
  induction fuel generalizing done cs with
  | zero => exact Onward.malformed
  | succ fuel ih =>
    unfold readText
    split
    · exact Onward.malformed
    · exact List.suffix_cons _ _
    · next more =>
      have hmore : more <:+ '\x5c' :: 'u' :: more := ⟨['\x5c', 'u'], rfl⟩
      split
      · exact Onward.malformed
      · next n after hu =>
        have hafter := (unit?_suffix hu).trans hmore
        split
        · split
          · next hl => exact (ih _ _).mono ((lowUnit?_suffix hl).trans hafter)
          · exact (ih _ _).mono hafter
        · split <;> exact (ih _ _).mono hafter
    · next c more _ =>
      split
      · exact (ih _ _).mono ⟨['\x5c', c], rfl⟩
      · exact Onward.malformed
    · next c more _ _ _ =>
      split
      · exact Onward.malformed
      · exact (ih _ _).mono (List.suffix_cons _ _)

theorem takeWhole_split (cs : List Char) : (takeWhole cs).1 ++ (takeWhole cs).2 = cs := by
  unfold takeWhole
  split
  · rfl
  · exact List.takeWhile_append_dropWhile

theorem takeFraction_suffix (cs : List Char) : (takeFraction cs).2 <:+ cs := by
  unfold takeFraction
  split
  · next more =>
    split
    · exact List.suffix_refl _
    · exact (List.dropWhile_suffix _).trans (List.suffix_cons _ _)
  · exact List.suffix_refl _

theorem takeExponent_suffix (cs : List Char) : (takeExponent cs).2 <:+ cs := by
  have hsign : ∀ cs : List Char, (takeSign cs).2 <:+ cs := by
    intro cs
    unfold takeSign
    split
    · exact List.suffix_cons _ _
    · exact List.suffix_cons _ _
    · exact List.suffix_refl _
  unfold takeExponent
  split
  · next c more =>
    split
    · dsimp only
      split
      · exact List.suffix_refl _
      · next ds after _ hd =>
        have hafter : after <:+ (takeSign more).2 := by
          rw [show after = (takeDigits (takeSign more).2).2 from (congrArg Prod.snd hd).symm]
          exact List.dropWhile_suffix _
        exact (hafter.trans (hsign more)).trans (List.suffix_cons _ _)
    · exact List.suffix_refl _
  · exact List.suffix_refl _

theorem readNumber_onward (cs : List Char) : Onward cs (readNumber cs) := by
  have hminus : (takeMinus cs).2 <:+ cs := by
    unfold takeMinus
    split
    · exact List.suffix_cons _ _
    · exact List.suffix_refl _
  have hsplit := takeWhole_split (takeMinus cs).2
  have hrest : (takeWhole (takeMinus cs).2).2 <:+ cs := List.IsSuffix.trans ⟨_, hsplit⟩ hminus
  unfold readNumber
  dsimp only
  split
  · exact Onward.malformed
  · split
    · split
      · next hlen =>
        -- the digits before the point are the run that is too long
        intro _
        refine Overlong.mono ⟨(takeWhole (takeMinus cs).2).1, ?_, hlen, takeWhole_fst _⟩ hminus
        exact List.IsPrefix.isInfix ⟨_, hsplit⟩
      · exact hrest
    · exact ((takeExponent_suffix _).trans (takeFraction_suffix _)).trans hrest

theorem readWord?_suffix {v : Value} (h : readWord? cs = some (v, rest)) : rest <:+ cs := by
  obtain ⟨⟨word, w⟩, -, h⟩ := List.exists_of_findSome?_eq_some h
  dsimp only at h
  split at h
  · cases h
    exact List.drop_suffix _ _
  · cases h

/-- Values, items and members are read on from where they start. -/
theorem read_onward (fuel : Nat) :
    (∀ depth cs, Onward cs (readValue fuel depth cs)) ∧ (∀ depth cs, Onward cs (readItems fuel depth cs)) ∧
      (∀ depth cs, Onward cs (readMembers fuel depth cs)) := by
  induction fuel with
  | zero =>
    refine ⟨fun depth cs => ?_, fun depth cs => ?_, fun depth cs => ?_⟩
    · rw [readValue]
      exact Onward.malformed
    · rw [readItems]
      exact Onward.malformed
    · rw [readMembers]
      exact Onward.malformed
  | succ fuel ih =>
    obtain ⟨ihv, ihi, ihm⟩ := ih
    refine ⟨fun depth cs => ?_, fun depth cs => ?_, fun depth cs => ?_⟩
    · unfold readValue
      split
      · refine Onward.mono (Onward.bind (readText_onward _ _ _) fun _ _ => ?_) (List.suffix_cons _ _)
        exact List.suffix_refl _
      · split
        · exact Onward.tooDeep
        · split
          · next hs => exact (suffix_of_skipSpace hs).trans (List.suffix_cons _ _)
          · refine Onward.mono (Onward.bind (ihi _ _) fun _ _ => List.suffix_refl _) ?_
            exact (skipSpace_suffix _).trans (List.suffix_cons _ _)
      · split
        · exact Onward.tooDeep
        · split
          · next hs => exact (suffix_of_skipSpace hs).trans (List.suffix_cons _ _)
          · refine Onward.mono (Onward.bind (ihm _ _) fun _ _ => List.suffix_refl _) ?_
            exact (skipSpace_suffix _).trans (List.suffix_cons _ _)
      · split
        · next hw => exact readWord?_suffix hw
        · exact readNumber_onward _
    · unfold readItems
      refine Onward.bind (ihv depth cs) fun v after => ?_
      dsimp only
      split
      · next hs =>
        refine Onward.mono (Onward.bind (ihi _ _) fun _ _ => List.suffix_refl _) ?_
        exact (skipSpace_suffix _).trans (suffix_of_skipSpace hs)
      · next hs => exact suffix_of_skipSpace hs
      · exact Onward.malformed
    · unfold readMembers
      split
      · refine Onward.mono (Onward.bind (readText_onward _ _ _) fun key after => ?_) (List.suffix_cons _ _)
        dsimp only
        split
        · next hs =>
          refine Onward.mono (Onward.bind (ihv _ _) fun v more => ?_)
            ((skipSpace_suffix _).trans (suffix_of_skipSpace hs))
          dsimp only
          split
          · next hs =>
            refine Onward.mono (Onward.bind (ihm _ _) fun _ _ => List.suffix_refl _) ?_
            exact (skipSpace_suffix _).trans (suffix_of_skipSpace hs)
          · next hs => exact suffix_of_skipSpace hs
          · exact Onward.malformed
        · exact Onward.malformed
      · exact Onward.malformed

/-- Only a text with too many digits in a row is not read because of an integer. -/
theorem overlong_of_read {s : String} (h : read s = .error .hugeInteger) : Overlong s.toList := by
  unfold read at h
  rw [chars_eq] at h
  dsimp only at h
  have hv := (read_onward (2 * s.toList.length + 2)).1 maxDepth (skipSpace s.toList)
  cases hr : readValue (2 * s.toList.length + 2) maxDepth (skipSpace s.toList) with
  | error e =>
    rw [hr] at h hv
    cases h
    exact (hv rfl).mono (skipSpace_suffix _)
  | ok found =>
    rw [hr] at h
    obtain ⟨v, rest⟩ := found
    change (if _ then _ else _) = _ at h
    split at h <;> cases h

end Json

namespace Descriptor

variable {α β : Type} {v : Value} {ms : List (String × Value)}

/-! ### Problems with the structure -/

/-- Whether a problem is one of the descriptor, which reading recovers from. -/
def Problem.IsForeseen (p : Problem) : Prop := p.failure.cause = .descriptor

/-- Whether nothing but foreseen problems can come of a reading. -/
def Foresees (x : Except Problem α) : Prop := ∀ p, x = .error p → p.IsForeseen

theorem Foresees.ok (a : α) : Foresees (.ok a : Except Problem α) := by
  intro p h
  cases h

theorem Foresees.error {p : Problem} (h : p.IsForeseen) : Foresees (.error p : Except Problem α) := by
  intro q hq
  cases hq
  exact h

theorem Foresees.bind {x : Except Problem α} {f : α → Except Problem β} (hx : Foresees x)
    (hf : ∀ a, Foresees (f a)) : Foresees (x >>= f) := by
  cases x with
  | error p => exact Foresees.error (hx p rfl)
  | ok a => exact hf a

theorem Foresees.mapM {f : α → Except Problem β} (hf : ∀ a, Foresees (f a)) (xs : List α) :
    Foresees (xs.mapM f) := by
  induction xs with
  | nil => exact Foresees.ok []
  | cons x xs ih =>
    rw [List.mapM_cons]
    exact Foresees.bind (hf x) fun b => Foresees.bind ih fun bs => Foresees.ok (b :: bs)

theorem foresees_members? (v : Value) : Foresees (members? v) := by
  unfold members?
  split
  · exact Foresees.ok _
  · exact Foresees.error rfl

theorem foresees_items (ms : List (String × Value)) (key : String) : Foresees (items ms key) := by
  unfold items
  split
  · exact Foresees.ok _
  · exact Foresees.ok _
  · exact Foresees.ok _
  · exact Foresees.ok _
  · exact Foresees.error rfl

theorem foresees_required (ms : List (String × Value)) (key : String) : Foresees (required ms key) := by
  unfold required
  split
  · exact Foresees.ok _
  · exact Foresees.error rfl

theorem foresees_actionOf (v : Value) : Foresees (actionOf v) :=
  Foresees.bind (foresees_members? _) fun _ => Foresees.ok _

theorem foresees_actionsOf (v : Value) : Foresees (actionsOf v) := by
  unfold actionsOf
  split
  · exact Foresees.ok _
  · refine Foresees.bind (foresees_members? _) fun ms => Foresees.bind (Foresees.mapM ?_ ms) fun _ => Foresees.ok _
    exact fun m => Foresees.bind (foresees_actionOf m.2) fun _ => Foresees.ok _

theorem foresees_tagOf (v : Value) : Foresees (tagOf v) :=
  Foresees.bind (foresees_members? v) fun ms => Foresees.bind (foresees_required ms "tag") fun _ =>
    Foresees.bind (foresees_actionsOf _) fun _ => Foresees.ok _

theorem foresees_behaviorOf (v : Value) : Foresees (behaviorOf v) := by
  refine Foresees.bind (foresees_members? v) fun ms => ?_
  dsimp only
  split
  · exact Foresees.error rfl
  · split
    · exact Foresees.bind (foresees_required ms "id") fun _ =>
        Foresees.bind (foresees_required ms "valueId") fun _ => Foresees.ok _
    · exact Foresees.bind (foresees_required ms "id") fun _ => Foresees.ok _
    · exact Foresees.bind (foresees_required ms "id") fun _ => Foresees.ok _
    · exact Foresees.ok _

theorem foresees_propertyOf (v : Value) : Foresees (propertyOf v) :=
  Foresees.bind (foresees_members? v) fun ms => Foresees.bind (foresees_required ms "id") fun _ =>
    Foresees.bind (foresees_required ms "type") fun _ => Foresees.ok _

/-- Whatever a value lacks for a descriptor is foreseen. -/
theorem foresees_ofValue (v : Value) : Foresees (ofValue v) := by
  unfold ofValue
  split
  · next ms =>
    refine Foresees.bind (foresees_items ms "behavior") fun bs => Foresees.bind (Foresees.mapM foresees_behaviorOf bs) ?_
    refine fun _ => Foresees.bind (foresees_items ms "tags") fun ts => Foresees.bind (Foresees.mapM foresees_tagOf ts) ?_
    refine fun _ => Foresees.bind (foresees_items ms "properties") fun ps => ?_
    exact Foresees.bind (Foresees.mapM foresees_propertyOf ps) fun _ => Foresees.ok _
  · exact Foresees.error rfl

/-! ### Names -/

/-- Whether names are all proper ones, and no two of them the same. -/
def Apart (names : List Value) : Prop :=
  (∀ n ∈ names, isName n = true) ∧ names.Pairwise fun n n' => sameName n' n = false

/-- Whether the first name that could not follow those before it is none at all. -/
def Lacking (names : List Value) : Prop :=
  ∃ good bad rest, names = good ++ bad :: rest ∧ Apart good ∧ isName bad = false

/-- The names that may not be repeated, each kind by itself, in the order in which they are looked at. -/
def namings (d : Descriptor) : List (List Value) :=
  [d.tags.map (·.name), d.behaviors.map (·.id), d.properties.map (·.id)]

/-- Whether a list or an object stands where a name should, and nothing is wrong with the names before it. -/
def Nameless (d : Descriptor) : Prop :=
  ∃ before names after, d.namings = before ++ names :: after ∧ (∀ ns ∈ before, Apart ns) ∧ Lacking names

theorem checkUnique_isOk_iff {naming : Naming} {seen names : List Value} : checkUnique naming seen names = .ok () ↔
    Apart names ∧ ∀ n ∈ names, ∀ s ∈ seen, sameName n s = false := by
  constructor
  · intro h
    obtain ⟨hn, hs, hp⟩ := checkUnique_ok h
    exact ⟨⟨hn, hp⟩, hs⟩
  · intro h
    induction names generalizing seen with
    | nil => rfl
    | cons name names ih =>
      obtain ⟨⟨hn, hp⟩, hs⟩ := h
      obtain ⟨hfirst, hp⟩ := List.pairwise_cons.mp hp
      have hnew : seen.any (sameName name) = false := by
        simpa [List.any_eq_false] using hs name List.mem_cons_self
      rw [checkUnique, hn name List.mem_cons_self, hnew]
      refine ih ⟨⟨fun n hm => hn n (List.mem_cons_of_mem _ hm), hp⟩, fun n hm s hk => ?_⟩
      rcases List.mem_cons.mp hk with rfl | hk
      · exact hfirst n hm
      · exact hs n (List.mem_cons_of_mem _ hm) s hk

theorem checkUnique_noName_iff {naming : Naming} {seen names : List Value} :
    checkUnique naming seen names = .error .noName ↔ ∃ good bad rest, names = good ++ bad :: rest ∧
      checkUnique naming seen good = .ok () ∧ isName bad = false := by
  induction names generalizing seen with
  | nil => simp [checkUnique]
  | cons name names ih =>
    constructor
    · intro h
      rw [checkUnique] at h
      split at h
      · next hn => exact ⟨[], name, names, rfl, rfl, by simpa using hn⟩
      · next hn =>
        split at h
        · cases h
        · next hs =>
          obtain ⟨good, bad, rest, rfl, hgood, hbad⟩ := ih.mp h
          refine ⟨name :: good, bad, rest, rfl, ?_, hbad⟩
          rw [checkUnique, if_neg hn, if_neg hs]
          exact hgood
    · rintro ⟨good, bad, rest, hnames, hgood, hbad⟩
      cases good with
      | nil =>
        cases hnames
        simp [checkUnique, hbad]
      | cons n good =>
        cases hnames
        rw [checkUnique] at hgood ⊢
        split at hgood
        · cases hgood
        · next hn =>
          split at hgood
          · cases hgood
          · next hs =>
            rw [if_neg hn, if_neg hs]
            exact ih.mpr ⟨good, bad, rest, rfl, hgood, hbad⟩

/-- The checks of several kinds of names, one after the other. -/
def checkEach : List (Naming × List Value) → Except Problem Unit
  | [] => .ok ()
  | (naming, names) :: rest => checkUnique naming [] names >>= fun _ => checkEach rest

theorem foresees_of_checkEach {checks : List (Naming × List Value)} {p : Problem} (h : checkEach checks = .error p)
    (hp : p ≠ .noName) : p.IsForeseen := by
  have hunique : ∀ naming seen names, checkUnique naming seen names = .error p → p.IsForeseen := by
    intro naming seen names h
    induction names generalizing seen with
    | nil => cases h
    | cons name names ih =>
      rw [checkUnique] at h
      split at h
      · cases h
        exact absurd rfl hp
      · split at h
        · cases h
          rfl
        · exact ih _ h
  induction checks with
  | nil => cases h
  | cons check checks ih =>
    rw [checkEach] at h
    cases hc : checkUnique check.1 [] check.2 with
    | error q =>
      rw [hc] at h
      cases h
      exact hunique _ _ _ hc
    | ok _ =>
      rw [hc] at h
      exact ih h

/-- Names are found to be none if and only if something that is no name comes before all repetitions. -/
theorem checkEach_noName_iff {checks : List (Naming × List Value)} : checkEach checks = .error .noName ↔
    ∃ before names after, checks.map (·.2) = before ++ names :: after ∧ (∀ ns ∈ before, Apart ns) ∧ Lacking names := by
  have hok : ∀ naming names, checkUnique naming [] names = .ok () ↔ Apart names := fun naming names => by
    simp [checkUnique_isOk_iff]
  have hno : ∀ naming names, checkUnique naming [] names = .error .noName ↔ Lacking names := fun naming names => by
    simp only [checkUnique_noName_iff, hok, Lacking]
  induction checks with
  | nil => simp [checkEach]
  | cons check checks ih =>
    obtain ⟨naming, names⟩ := check
    rw [checkEach]
    constructor
    · intro h
      cases hc : checkUnique naming [] names with
      | error q =>
        rw [hc] at h
        cases h
        exact ⟨[], names, _, rfl, nofun, (hno naming names).mp hc⟩
      | ok _ =>
        rw [hc] at h
        obtain ⟨before, names', after, hmap, hbefore, hlack⟩ := ih.mp h
        refine ⟨names :: before, names', after, by rw [List.map_cons, hmap]; rfl, ?_, hlack⟩
        exact List.forall_mem_cons.mpr ⟨(hok naming names).mp hc, hbefore⟩
    · rintro ⟨before, names', after, hmap, hbefore, hlack⟩
      cases before with
      | nil =>
        obtain rfl : names = names' := (List.cons.inj hmap).1
        rw [(hno naming names).mpr hlack]
        rfl
      | cons ns before =>
        obtain ⟨rfl, htail⟩ := List.cons.inj hmap
        rw [(hok naming names).mpr (hbefore names List.mem_cons_self)]
        exact ih.mpr ⟨before, names', after, htail, fun ns h => hbefore ns (List.mem_cons_of_mem _ h), hlack⟩

theorem checkEach_isOk_iff {checks : List (Naming × List Value)} :
    checkEach checks = .ok () ↔ ∀ check ∈ checks, Apart check.2 := by
  induction checks with
  | nil => simp [checkEach]
  | cons check checks ih =>
    rw [checkEach, List.forall_mem_cons, ← ih, Json.bind_eq_ok]
    constructor
    · rintro ⟨_, hc, h⟩
      exact ⟨(checkUnique_isOk_iff.mp hc).1, h⟩
    · rintro ⟨hc, h⟩
      exact ⟨(), checkUnique_isOk_iff.mpr ⟨hc, by simp⟩, h⟩

/-! ### Reading -/

/-- Whether a text is one of those that reading does not recover from: it has an integer that is too
long to be read, or no proper name stands where one should. -/
def Escapes (text : String) : Prop :=
  Json.read text = .error .hugeInteger ∨ ∃ v d, Json.read text = .ok v ∧ ofValue v = .ok d ∧ d.Nameless

/-- A descriptor is read in three stages. -/
theorem parse_eq (text : String) : parse text = (Json.read text).mapError readProblem >>= fun v =>
    ofValue v >>= fun d => checkEach [(.tag, d.tags.map (·.name)), (.behavior, d.behaviors.map (·.id)),
      (.property, d.properties.map (·.id))] >>= fun _ => .ok d := by
  unfold parse
  refine congrArg (_ >>= ·) (funext fun v => congrArg (_ >>= ·) (funext fun d => ?_))
  simp only [checkEach]
  cases checkUnique .tag [] (d.tags.map (·.name)) with
  | error _ => rfl
  | ok _ =>
    cases checkUnique .behavior [] (d.behaviors.map (·.id)) with
    | error _ => rfl
    | ok _ => cases checkUnique .property [] (d.properties.map (·.id)) <;> rfl

/-- A text is a descriptor if its value is one but for the names, and these are proper and not repeated. -/
theorem parse_eq_ok {text : String} {d : Descriptor} : parse text = .ok d ↔
    ∃ v, Json.read text = .ok v ∧ ofValue v = .ok d ∧ ∀ ns ∈ d.namings, Apart ns := by
  have hchecks : (checkEach [(.tag, d.tags.map (·.name)), (.behavior, d.behaviors.map (·.id)),
      (.property, d.properties.map (·.id))] = .ok ()) ↔ ∀ ns ∈ d.namings, Apart ns := by
    rw [checkEach_isOk_iff]
    simp [namings]
  rw [parse_eq, ← hchecks]
  cases Json.read text with
  | error e =>
    constructor
    · intro h
      cases h
    · rintro ⟨v, h, -⟩
      cases h
  | ok v =>
    change (ofValue v >>= _) = _ ↔ _
    constructor
    · intro h
      obtain ⟨d', hd, h⟩ := Json.bind_eq_ok.mp h
      obtain ⟨_, hc, h⟩ := Json.bind_eq_ok.mp h
      cases h
      exact ⟨v, rfl, hd, hc⟩
    · rintro ⟨_, h, hd, hc⟩
      cases h
      exact Json.bind_eq_ok.mpr ⟨d, hd, Json.bind_eq_ok.mpr ⟨(), hc, rfl⟩⟩

/-- The names in a descriptor that was read are proper, and not repeated. -/
theorem parse_apart {text : String} {d : Descriptor} (h : parse text = .ok d) :
    Apart (d.tags.map (·.name)) ∧ Apart (d.behaviors.map (·.id)) ∧ Apart (d.properties.map (·.id)) := by
  obtain ⟨-, -, -, h⟩ := parse_eq_ok.mp h
  simpa [namings] using h

theorem parse_distinct {text : String} {d : Descriptor} (h : parse text = .ok d) : d.Distinct := by
  obtain ⟨-, ⟨names, pairwise⟩, -⟩ := parse_apart h
  exact ⟨fun b hb => names b.id (List.mem_map_of_mem hb), List.pairwise_map.mp pairwise⟩

/-- Reading ends in a problem that is none of the descriptor for the texts that it does not recover from,
and for no others. -/
theorem escapes_iff {text : String} : Escapes text ↔ ∃ p, parse text = .error p ∧ ¬ p.IsForeseen := by
  rw [parse_eq]
  cases hread : Json.read text with
  | error e =>
    constructor
    · rintro (h | ⟨_, _, h, -⟩)
      · rw [hread] at h
        cases h
        exact ⟨.hugeInteger, rfl, fun k => by cases k⟩
      · rw [hread] at h
        cases h
    · rintro ⟨p, h, hp⟩
      cases h
      cases e with
      | hugeInteger => exact .inl hread
      | malformed => exact absurd rfl hp
      | tooDeep => exact absurd rfl hp
  | ok v =>
    have hbind : ∀ f : Value → Except Problem Descriptor,
        ((.ok v : Except Json.ReadError Value).mapError readProblem >>= f) = f v := fun _ => rfl
    rw [hbind]
    cases hof : ofValue v with
    | error q =>
      refine iff_of_false ?_ ?_
      · rintro (h | ⟨v', d, h, hof', -⟩)
        · rw [hread] at h
          cases h
        · rw [hread] at h
          cases h
          rw [hof] at hof'
          cases hof'
      · rintro ⟨p, h, hp⟩
        cases h
        exact hp (foresees_ofValue v _ hof)
    | ok d =>
      have hnameless : d.Nameless ↔ checkEach [(.tag, d.tags.map (·.name)), (.behavior, d.behaviors.map (·.id)),
          (.property, d.properties.map (·.id))] = .error .noName := by
        rw [checkEach_noName_iff]
        rfl
      constructor
      · rintro (h | ⟨v', d', h, hof', hd⟩)
        · rw [hread] at h
          cases h
        · rw [hread] at h
          cases h
          rw [hof] at hof'
          cases hof'
          refine ⟨.noName, ?_, fun k => by cases k⟩
          change (checkEach _ >>= fun _ => _) = _
          rw [hnameless.mp hd]
          rfl
      · rintro ⟨p, h, hp⟩
        change (checkEach _ >>= fun _ => _) = _ at h
        cases hc : checkEach [(.tag, d.tags.map (·.name)), (.behavior, d.behaviors.map (·.id)),
          (.property, d.properties.map (·.id))] with
        | ok _ =>
          rw [hc] at h
          cases h
        | error q =>
          rw [hc] at h
          cases h
          refine .inr ⟨v, d, hread, hof, hnameless.mpr ?_⟩
          by_cases hq : p = .noName
          · rw [hc, hq]
          · exact absurd (foresees_of_checkEach hc hq) hp

end Descriptor

namespace Document

open Markup

variable {ι : Type}

/-- The text of the first descriptor of a document. -/
def carried? (root : Option (Element ι)) : Option String :=
  (root.bind fun e => (descriptors e).head?).map (·.inner.leadingData)

/-- What the descriptor of a document is read as; a document that is none carries none. -/
def descriptorIn (root : Option (Element ι)) : Except Failure Descriptor :=
  match root with
  | none => .ok Descriptor.empty
  | some e => (descriptor e).2

theorem descriptorOf_eq (source : Source) : (descriptorOf source).2 = descriptorIn (Markup.read source) := by
  unfold descriptorOf read
  cases Markup.read source <;> rfl

/-- What the descriptor of a document is read as depends on the text of the first one. -/
theorem descriptorIn_eq (root : Option (Element ι)) : descriptorIn root =
    match carried? root with
    | none => .ok Descriptor.empty
    | some text =>
      match Descriptor.parse text with
      | .ok d => .ok d
      | .error p => if p.failure.cause = .descriptor then .ok Descriptor.empty else .error p.failure := by
  cases root with
  | none => rfl
  | some e =>
    unfold descriptorIn descriptor carried?
    dsimp only [Option.bind_some]
    cases descriptors e with
    | nil => rfl
    | cons x rest =>
      dsimp only [List.head?_cons, Option.map_some]
      cases Descriptor.parse x.inner.leadingData with
      | ok d => rfl
      | error p =>
        dsimp only
        split <;> rfl

end Document

open Document Descriptor Markup in
/-- Every text is a descriptor, or it is refused as none, but for those with too many digits in a row or
with a list or an object for a name. The descriptor of a document is what the text of its first one is
read as, and the empty one where there is no such text or it is refused; nothing else can go wrong. -/
theorem descriptors_recovered (text : String) (source : Source) (root : Option (Element Unit)) (d : Descriptor) :
    ((∃ d, parse text = .ok d) ∨ (∃ p, parse text = .error p ∧ p.failure.cause = .descriptor) ∨ Escapes text) ∧
    (Escapes text ↔ ∃ p, parse text = .error p ∧ p.failure.cause ≠ .descriptor) ∧
    (Escapes text → Json.Overlong text.toList ∨
      ∃ v d, Json.read text = .ok v ∧ ofValue v = .ok d ∧ d.Nameless) ∧
    (descriptorOf source).2 = descriptorIn (Markup.read source) ∧
    ((∃ d, descriptorIn root = .ok d) ↔ ∀ text, carried? root = some text → ¬ Escapes text) ∧
    (descriptorIn root = .ok d ↔
      (∃ text, carried? root = some text ∧ parse text = .ok d) ∨
        d = Descriptor.empty ∧ ∀ text, carried? root = some text →
          ∃ p, parse text = .error p ∧ p.failure.cause = .descriptor) := by
  refine ⟨?_, escapes_iff, fun h => ?_, descriptorOf_eq source, ?_, ?_⟩
  · cases hp : parse text with
    | ok d => exact .inl ⟨d, rfl⟩
    | error p =>
      by_cases hf : p.failure.cause = .descriptor
      · exact .inr (.inl ⟨p, rfl, hf⟩)
      · exact .inr (.inr (escapes_iff.mpr ⟨p, hp, hf⟩))
  · exact h.imp_left Json.overlong_of_read
  · rw [descriptorIn_eq]
    cases carried? root with
    | none => simp
    | some text =>
      simp only [Option.some.injEq, forall_eq', escapes_iff]
      cases hp : parse text with
      | ok d => simp
      | error p => by_cases hf : p.failure.cause = .descriptor <;> simp [hf, Problem.IsForeseen]
  · rw [descriptorIn_eq]
    cases carried? root with
    | none => simp [eq_comm]
    | some text =>
      simp only [Option.some.injEq, forall_eq', exists_eq_left']
      cases hp : parse text with
      | ok d' => simp
      | error p => by_cases hf : p.failure.cause = .descriptor <;> simp [hf, @eq_comm _ Descriptor.empty]

/-- A descriptor with a list for the name of a tag. -/
def listedText : String := "\x7b\"tags\":[\x7b\"tag\":[]\x7d]\x7d"

set_option maxRecDepth 100000 in
/-- Such a name is not refused as one of a descriptor, and so not recovered from in a document either. -/
theorem escapes_listed :
    (∃ p, Descriptor.parse listedText = .error p ∧ p.failure.cause = .wrongType) ∧
      ∃ f, (Document.descriptorOf (.text ("<t:metadata xmlns:t='https://thingsboard.io/svg'>" ++ listedText ++
        "</t:metadata>"))).2 = .error f ∧ f.cause = .wrongType := by
  have hparse : (match Descriptor.parse listedText with
    | .error p => p.failure.cause == .wrongType
    | .ok _ => false) = true := rfl
  have hof : (match (Document.descriptorOf (.text ("<t:metadata xmlns:t='https://thingsboard.io/svg'>" ++ listedText ++
      "</t:metadata>"))).2 with
    | .error f => f.cause == .wrongType
    | .ok _ => false) = true := rfl
  constructor
  · cases hp : Descriptor.parse listedText with
    | ok d =>
      rw [hp] at hparse
      cases hparse
    | error p =>
      rw [hp] at hparse
      exact ⟨p, rfl, beq_iff_eq.mp hparse⟩
  · split at hof
    · next f hf => exact ⟨f, hf, beq_iff_eq.mp hof⟩
    · cases hof

end LiveSvg
