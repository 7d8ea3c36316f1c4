import LiveSvg.Proofs.Tending
import LiveSvg.Proofs.Wiring
import Mathlib.Algebra.Order.Group.Multiset
/-!
How animations end. What waits for the end of an animation is called back once, the animation is under way until
then and no longer, and it is the only one of its element if it was asked for from there on.
-/

namespace LiveSvg

open Number (Binary64)
open Script (Act Datum)

variable {α β : Type} {play : Player} {a b c w : World} {n : Nat}

/-! ### What the past tells -/

/-- The change that a deed asks an animation for. -/
def Deed.asked? (n : Nat) : Deed → Option Change
  | .queue m c => if m = n then some c else none
  | _ => none

/-- The change that has just been applied for an animation. -/
def Deed.applied? (n : Nat) : Deed → Option Change
  | .effected m (.change c) (.ok _) => if m = n then some c else none
  | _ => none

/-- The callback that a deed lets wait for the end of an animation. -/
def Deed.awaited? (n : Nat) : Deed → Option Datum
  | .await m callback => if m = n then some callback else none
  | _ => none

/-- The callback that a deed is about to call for an animation. -/
def Deed.called? (n : Nat) : Deed → Option Datum
  | .effect m (.call callback) => if m = n then some callback else none
  | _ => none

/-- Whether a deed is not that something which an animation brings about has failed. -/
def Deed.isSmooth : Deed → Bool
  | .effected _ _ (.error _) => false
  | _ => true

/-- What the deeds of a past give, the earliest first. -/
def collect (f : Deed → Option α) (past : List Event) : List α := (past.filterMap fun e => f e.deed).reverse

theorem collect_append (f : Deed → Option α) (new old : List Event) :
    collect f (new ++ old) = collect f old ++ collect f new := by
  unfold collect
  rw [List.filterMap_append, List.reverse_append]

theorem collect_cons (f : Deed → Option α) (e : Event) (old : List Event) :
    collect f (e :: old) = collect f old ++ (f e.deed).toList := by
  rw [← List.singleton_append, collect_append]
  unfold collect
  cases h : f e.deed <;> simp [h]

theorem collect_single {f : Deed → Option α} {d : Deed} (h : f d = none) (s : Situation) : collect f [⟨d, s⟩] = [] :=
  (collect_cons f ⟨d, s⟩ []).trans (by rw [h]; rfl)

theorem collect_eq_nil {f : Deed → Option α} {past : List Event} (h : ∀ e ∈ past, f e.deed = none) :
    collect f past = [] := by
  unfold collect
  rw [List.filterMap_eq_nil_iff.mpr h, List.reverse_nil]

theorem Deed.quiet_of_isIdle {d : Deed} (h : d.isIdle = true) (n : Nat) :
    d.asked? n = none ∧ d.applied? n = none ∧ d.awaited? n = none ∧ d.called? n = none := by
  cases d <;> first | exact ⟨rfl, rfl, rfl, rfl⟩ | cases h

/-! ### Computations that fail with what animations bring about -/

/-- Something that an animation brings about has failed between one world and a later one. -/
def Stumbles (a b : World) : Prop := ∃ new, b.past = new ++ a.past ∧ ∃ e ∈ new, e.deed.isSmooth = false

theorem Stumbles.after (h : Later a b) (k : Stumbles b c) : Stumbles a c := by
  obtain ⟨new, hb⟩ := h
  obtain ⟨more, hc, e, he, hs⟩ := k
  exact ⟨more ++ new, by rw [hc, hb, List.append_assoc], e, List.mem_append_left _ he, hs⟩

theorem Stumbles.before (h : Stumbles a b) (k : Later b c) : Stumbles a c := by
  obtain ⟨new, hb, e, he, hs⟩ := h
  obtain ⟨more, hc⟩ := k
  exact ⟨more ++ new, by rw [hc, hb, List.append_assoc], e, List.mem_append_right _ he, hs⟩

/-- Where a computation succeeds it leads along a relation, and it only fails with what an animation brings
about. -/
structure Smoothly (R : World → World → Prop) (x : Run α) : Prop where
  leads {w w' : World} {r : α} : x w = .ok r w' → R w w'
  fails {w w' : World} {f : Failure} : x w = .error f w' → Stumbles w w'

theorem Smoothly.bind {Q R S : World → World → Prop} {x : Run α} {g : α → Run β} (hx : Smoothly Q x)
    (hg : ∀ r, Smoothly R (g r)) (later : ∀ {a b}, Q a b → Later a b)
    (comp : ∀ {a b c}, Q a b → R b c → S a c) : Smoothly S (x >>= g) where
  leads h := by
    obtain ⟨r, w₁, h₁, h₂⟩ := Run.bind_eq_ok.mp h
    exact comp (hx.leads h₁) ((hg r).leads h₂)
  fails {w w' f} h := by
    cases h₁ : x w with
    | error f w₁ =>
      rw [Run.bind_error h₁] at h
      cases h
      exact hx.fails h₁
    | ok r w₁ =>
      rw [Run.bind_ok h₁] at h
      exact .after (later (hx.leads h₁)) ((hg r).fails h)

theorem Smoothly.modify {R : World → World → Prop} {g : World → World} (h : ∀ w, R w (g w)) :
    Smoothly R (modify g : Run Unit) where
  leads hw := by
    cases hw
    exact h _
  fails hw := by cases hw

/-- Doing one thing after another for a list. -/
theorem Smoothly.forM {Q : β → World → World → Prop} {R : List β → World → World → Prop} {f : β → Run Unit}
    (hf : ∀ x, Smoothly (Q x) (f x)) (later : ∀ {x a b}, Q x a b → Later a b) (nil : ∀ w, R [] w w)
    (cons : ∀ {x l a b c}, Q x a b → R l b c → R (x :: l) a c) (l : List β) : Smoothly (R l) (l.forM f) := by
  induction l with
  | nil =>
    refine ⟨fun h => ?_, fun h => by cases h⟩
    cases h
    exact nil _
  | cons x l ih => exact (hf x).bind (fun _ => ih) later cons

namespace Run

theorem effect_ok {e : Effect} {x : Run Unit} {w' : World}
    (h : x ((record (.effect n e)).after w) = .ok () w') :
    effect n e x w = .ok () ((record (.effected n e (.ok ()))).after w') := by
  have h₁ : record (.effect n e) w = .ok () ((record (.effect n e)).after w) := rfl
  unfold effect
  rw [bind_ok h₁, bind_ok (attempt_ok h)]
  rfl

theorem effect_error {e : Effect} {x : Run Unit} {f : Failure} {w' : World}
    (h : x ((record (.effect n e)).after w) = .error f w') :
    effect n e x w = .error f ((record (.effected n e (.error f))).after w') := by
  have h₁ : record (.effect n e) w = .ok () ((record (.effect n e)).after w) := rfl
  unfold effect
  rw [bind_ok h₁, bind_ok (attempt_error h)]
  rfl

end Run

theorem setIfInBounds_eq_modify {xs : Array α} {x : α} {f : α → α} (h : xs[n]? = some x) :
    xs.setIfInBounds n (f x) = xs.modify n f := by
  refine Array.ext_getElem? fun m => ?_
  rw [Array.getElem?_setIfInBounds, Array.getElem?_modify]
  split
  · subst m
    obtain ⟨hn, -⟩ := Array.getElem?_eq_some_iff.mp h
    rw [if_pos hn, h]
    rfl
  · rfl

/-- What an animation brings about leads along what it does between being begun and having succeeded. -/
theorem Smoothly.effect {Q R : World → World → Prop} {e : Effect} {x : Run Unit} (hx : Along Q x)
    (later : ∀ {a b}, Q a b → Later a b)
    (h : ∀ {w w'}, x ((Run.record (.effect n e)).after w) = .ok () w' → Q ((Run.record (.effect n e)).after w) w' →
      R w ((Run.record (.effected n e (.ok ()))).after w')) : Smoothly R (Run.effect n e x) where
  leads {w w' r} hw := by
    cases hx₁ : x ((Run.record (.effect n e)).after w) with
    | ok u w₁ =>
      rw [Run.effect_ok hx₁] at hw
      cases hw
      exact h hx₁ (hx.leads hx₁)
    | error f w₁ =>
      rw [Run.effect_error hx₁] at hw
      cases hw
  fails {w w' f} hw := by
    cases hx₁ : x ((Run.record (.effect n e)).after w) with
    | ok u w₁ =>
      rw [Run.effect_ok hx₁] at hw
      cases hw
    | error f w₁ =>
      rw [Run.effect_error hx₁] at hw
      cases hw
      have hq := hx ((Run.record (.effect n e)).after w)
      rw [Run.after_error hx₁] at hq
      obtain ⟨new, hn⟩ := later hq
      refine ⟨⟨.effected n e (.error f), w₁.toSituation⟩ :: (new ++ [⟨.effect n e, w.toSituation⟩]), ?_,
        ⟨.effected n e (.error f), w₁.toSituation⟩, List.mem_cons_self .., rfl⟩
      change _ :: w₁.past = _
      rw [hn, List.cons_append, List.append_assoc]
      rfl

/-! ### Applying changes -/

/-- Nothing but new drawings has come about. -/
structure Drawing.Only (a b : World) : Prop where
  past : ∃ new, b.past = new ++ a.past ∧ ∀ e ∈ new, (∃ d, e.deed = .draw d) ∧ e.before.animations = a.animations
  animations : b.animations = a.animations
  clock : b.clock = a.clock
  hasLoop : b.hasLoop = a.hasLoop

theorem Drawing.Only.plot : Plot Drawing.Only where
  refl _ := ⟨⟨[], rfl, fun _ h => absurd h List.not_mem_nil⟩, rfl, rfl, rfl⟩
  trans := by
    rintro a b c ⟨⟨new, hb, h⟩, hn, hc, hl⟩ ⟨⟨more, hc', k⟩, kn, kc, kl⟩
    refine ⟨⟨more ++ new, by rw [hc', hb, List.append_assoc], fun e he => ?_⟩, kn.trans hn, kc.trans hc, kl.trans hl⟩
    rcases List.mem_append.mp he with he | he
    · exact ⟨(k e he).1, (k e he).2.trans hn⟩
    · exact h e he
  grow _ _ _ := ⟨⟨[], rfl, fun _ h => absurd h List.not_mem_nil⟩, rfl, rfl, rfl⟩
  draw w d := by
    refine ⟨⟨[_], rfl, fun e h => ?_⟩, rfl, rfl, rfl⟩
    rw [List.mem_singleton.mp h]
    exact ⟨⟨d, rfl⟩, rfl⟩

/-- One change has been applied to an element for an animation. -/
structure Applies (n id : Nat) (c : Change) (a b : World) : Prop where
  past : ∃ draws s, b.past = ⟨.effected n (.change c) (.ok ()), s⟩ :: (draws ++ ⟨.effect n (.change c), a.toSituation⟩ :: a.past) ∧
    Run.applyChange id c ((Run.record (.effect n (.change c))).after a) =
      .ok () ⟨s, draws ++ ⟨.effect n (.change c), a.toSituation⟩ :: a.past⟩ ∧
    s.animations = a.animations ∧ ∀ e ∈ draws, (∃ d, e.deed = .draw d) ∧ e.before.animations = a.animations
  animations : b.animations = a.animations
  clock : b.clock = a.clock
  hasLoop : b.hasLoop = a.hasLoop

theorem Applies.later {id : Nat} {ch : Change} (h : Applies n id ch a b) : Later a b := by
  obtain ⟨draws, s, hb, -⟩ := h.past
  exact ⟨⟨.effected n (.change ch) (.ok ()), s⟩ :: (draws ++ [⟨.effect n (.change ch), a.toSituation⟩]), by
    rw [hb, List.cons_append, List.append_assoc]
    rfl⟩

theorem change_applies (n id : Nat) (ch : Change) : Smoothly (Applies n id ch) (Run.change n id ch) := by
  refine .effect (Drawing.Only.plot.applyChange id ch) (fun h => ?_) fun {w w'} hrun h => ?_
  · obtain ⟨new, hb, -⟩ := h.past
    exact ⟨new, hb⟩
  · obtain ⟨draws, hb, hd⟩ := h.past
    have hpast : w'.past = draws ++ ⟨.effect n (.change ch), w.toSituation⟩ :: w.past := hb
    refine ⟨⟨draws, w'.toSituation, ?_, ?_, h.animations, hd⟩, h.animations, h.clock, h.hasLoop⟩
    · change _ :: w'.past = _
      rw [hpast]
    · rw [hrun, ← hpast]

/-! ### Callbacks -/

namespace Animation

/-- What waits for the end of an animation that has not ended. -/
def awaiting (x : Animation) : List Datum := if x.isFinished then [] else x.callbacks

/-- Whether an animation is under way as long as it has not ended. -/
def isSettled (x : Animation) : Prop := x.isRunning = !x.isFinished

end Animation

/-- What waits for the end of the animation with a number. -/
def Situation.awaiting (s : Situation) (n : Nat) : Multiset Datum :=
  ((s.animations[n]?.map Animation.awaiting).getD [] : List Datum)

theorem Situation.awaiting_of {s : Situation} {x : Animation} (h : s.animations[n]? = some x) :
    s.awaiting n = (x.awaiting : List Datum) := by
  unfold awaiting
  rw [h]
  rfl

theorem Situation.awaiting_modify {s t : Situation} {f : Animation → Animation}
    (h : t.animations = s.animations.modify n f) (hf : ∀ x, (f x).awaiting = x.awaiting) (m : Nat) :
    t.awaiting m = s.awaiting m := by
  unfold awaiting
  rw [h, Array.getElem?_modify]
  split
  · rw [Option.map_map, (funext hf : Animation.awaiting ∘ f = Animation.awaiting)]
  · rfl

/-- What has become of animations while something came to pass: those that were there are, what had ended has,
and what was settled is; new ones are told of, and callbacks are called that waited or were owed. -/
structure Settling (owed : Nat → Multiset Datum) (a b : World) (new : List Event) : Prop where
  stays : ∀ {n : Nat} {x : Animation}, a.animations[n]? = some x → ∃ y : Animation, b.animations[n]? = some y ∧ y.element = x.element ∧
    (x.isFinished = true → y.isFinished = true) ∧ (x.isSettled → y.isSettled)
  added : ∀ {n : Nat} {y : Animation}, a.animations[n]? = none → b.animations[n]? = some y → y.isSettled ∧
    ∃ e ∈ new, ∃ due, e.deed = .animate n y.element due
  called : ∀ n, owed n + a.awaiting n + collect (Deed.awaited? n) new = collect (Deed.called? n) new + b.awaiting n

theorem Settling.refl (w : World) : Settling 0 w w [] := by
  refine ⟨fun {n x} hx => ⟨x, hx, rfl, id, id⟩, fun {n y} hx hy => ?_, fun n => ?_⟩
  · cases hx.symm.trans hy
  · simp [collect]

theorem Settling.comp {owed more : Nat → Multiset Datum} {new new' : List Event} (h : Settling owed a b new)
    (k : Settling more b c new') : Settling (owed + more) a c (new' ++ new) := by
  refine ⟨fun {n x} hx => ?_, fun {n z} hx hz => ?_, fun n => ?_⟩
  · obtain ⟨y, hy, he, hf, hr⟩ := h.stays hx
    obtain ⟨z, hz, ke, kf, kr⟩ := k.stays hy
    exact ⟨z, hz, ke.trans he, kf ∘ hf, kr ∘ hr⟩
  · cases hy : b.animations[n]? with
    | none =>
      obtain ⟨hset, e, he, hd⟩ := k.added hy hz
      exact ⟨hset, e, List.mem_append_left _ he, hd⟩
    | some y =>
      obtain ⟨hset, e, he, due, hd⟩ := h.added hx hy
      obtain ⟨z', hz', ke, -, kr⟩ := k.stays hy
      obtain rfl := Option.some.inj (hz.symm.trans hz')
      exact ⟨kr hset, e, List.mem_append_right _ he, due, by rw [hd, ke]⟩
  · have hsum := congrArg₂ (· + ·) (h.called n) (k.called n)
    rw [collect_append, collect_append, ← Multiset.coe_add, ← Multiset.coe_add, Pi.add_apply]
    refine add_right_cancel (b := b.awaiting n) ?_
    calc owed n + more n + a.awaiting n + (collect (Deed.awaited? n) new + collect (Deed.awaited? n) new') + b.awaiting n
        = owed n + a.awaiting n + collect (Deed.awaited? n) new +
            (more n + b.awaiting n + collect (Deed.awaited? n) new') := by ac_rfl
      _ = _ := hsum
      _ = _ := by ac_rfl

/-- The past goes on, and if all goes smoothly, so it is with animations. -/
def Settles (owed : Nat → Multiset Datum) (a b : World) : Prop :=
  ∃ new, b.past = new ++ a.past ∧ ((∀ e ∈ new, e.deed.isSmooth = true) → Settling owed a b new)

namespace Settles

variable {owed more : Nat → Multiset Datum}

theorem later (h : Settles owed a b) : Later a b := by
  obtain ⟨new, hb, -⟩ := h
  exact ⟨new, hb⟩

theorem comp (h : Settles owed a b) (k : Settles more b c) : Settles (owed + more) a c := by
  obtain ⟨new, hb, h⟩ := h
  obtain ⟨new', hc, k⟩ := k
  refine ⟨new' ++ new, by rw [hc, hb, List.append_assoc], fun hs => ?_⟩
  exact (h fun e he => hs e (List.mem_append_right _ he)).comp (k fun e he => hs e (List.mem_append_left _ he))

theorem zero_comp (h : Settles 0 a b) (k : Settles owed b c) : Settles owed a c := by
  have hk := h.comp k
  rwa [zero_add] at hk

theorem course : Course (Settles 0) where
  refl w := ⟨[], rfl, fun _ => .refl w⟩
  trans := zero_comp

theorem of_stumbles (h : Stumbles a b) : Settles owed a b := by
  obtain ⟨new, hb, e, he, hs⟩ := h
  exact ⟨new, hb, fun hn => absurd (hn e he) (by simp [hs])⟩

/-- Where no callback is called or let wait and animations are the same, nothing has become of them. -/
theorem still (h : ∃ new, b.past = new ++ a.past ∧
    ∀ e ∈ new, ∀ n, e.deed.awaited? n = none ∧ e.deed.called? n = none) (hn : b.animations = a.animations) :
    Settles 0 a b := by
  obtain ⟨new, hb, hq⟩ := h
  refine ⟨new, hb, fun _ => ⟨fun {n x} hx => ⟨x, by rw [hn, hx], rfl, id, id⟩, fun {n y} hx hy => ?_, fun n => ?_⟩⟩
  · rw [hn, hx] at hy
    cases hy
  · rw [collect_eq_nil fun e he => (hq e he n).1, collect_eq_nil fun e he => (hq e he n).2, Situation.awaiting,
      Situation.awaiting, hn]
    exact add_comm _ _

theorem aloof (h : Aloof a b) : Settles 0 a b := by
  obtain ⟨new, hb, hi⟩ := h.past
  exact still ⟨new, hb, fun e he n => (Deed.quiet_of_isIdle (hi e he).1 n).2.2⟩ h.animations

theorem silent (hp : b.past = a.past) (hn : b.animations = a.animations) : Settles 0 a b :=
  still ⟨[], hp, fun _ h => absurd h List.not_mem_nil⟩ hn

theorem applies {id : Nat} {ch : Change} (h : Applies n id ch a b) : Settles 0 a b := by
  obtain ⟨draws, s, hb, -, -, hd⟩ := h.past
  refine still ⟨⟨.effected n (.change ch) (.ok ()), s⟩ :: (draws ++ [⟨.effect n (.change ch), a.toSituation⟩]), ?_,
    fun e he m => ?_⟩ h.animations
  · rw [hb, List.cons_append, List.append_assoc]
    rfl
  · rcases List.mem_cons.mp he with rfl | he
    · exact ⟨rfl, rfl⟩
    · rcases List.mem_append.mp he with he | he
      · obtain ⟨⟨d, hdraw⟩, -⟩ := hd e he
        rw [hdraw]
        exact ⟨rfl, rfl⟩
      · rw [List.mem_singleton.mp he]
        exact ⟨rfl, rfl⟩

/-- What changes one animation, but neither whose it is nor whether it has ended. -/
theorem modified {f : Animation → Animation} {new : List Event} (hp : b.past = new ++ a.past)
    (hb : b.animations = a.animations.modify n f) (he : ∀ x, (f x).element = x.element)
    (hf : ∀ x, (f x).isFinished = x.isFinished) (hr : ∀ x, x.isSettled → (f x).isSettled)
    (hc : ∀ m, a.awaiting m + collect (Deed.awaited? m) new = collect (Deed.called? m) new + b.awaiting m) :
    Settles 0 a b := by
  have hget : ∀ m, b.animations[m]? = if n = m then (a.animations[m]?).map f else a.animations[m]? := fun m => by
    rw [hb, Array.getElem?_modify]
  refine ⟨new, hp, fun _ => ⟨fun {m x} hx => ?_, fun {m y} hx hy => ?_, fun m => ?_⟩⟩
  · by_cases hm : n = m
    · exact ⟨f x, by rw [hget, if_pos hm, hx]; rfl, he x, fun h => by rw [hf, h], hr x⟩
    · exact ⟨x, by rw [hget, if_neg hm, hx], rfl, fun h => h, fun h => h⟩
  · rw [hget, hx] at hy
    split at hy <;> cases hy
  · rw [Pi.zero_apply, zero_add]
    exact hc m

/-- What changes only the changes that one animation holds back. -/
theorem withheld {f : List Change → List Change} (hp : b.past = a.past)
    (hb : b.animations = a.animations.modify n fun x => { x with changes := f x.changes }) : Settles 0 a b := by
  have hpast : b.past = [] ++ a.past := hp
  refine modified hpast hb (fun _ => rfl) (fun _ => rfl) (fun _ h => h) fun m => ?_
  have hsame : ∀ x : Animation, { x with changes := f x.changes }.awaiting = x.awaiting := fun _ => rfl
  exact (add_comm _ _).trans (congrArg _ (Situation.awaiting_modify hb hsame m).symm)

theorem add (id : Nat) (duration delay : Datum) (seconds : Option Binary64) (w : World) :
    Settles 0 w ((Run.addAnimation id duration delay seconds).after w) := by
  obtain ⟨b, hb⟩ : ∃ b, b = (Run.addAnimation id duration delay seconds).after w := ⟨_, rfl⟩
  obtain ⟨timer, hn, hp⟩ : ∃ timer, b.animations = w.animations.push { element := id, duration, delay, timer } ∧
      b.past = ⟨.animate w.animations.size id (seconds.map w.clock.now.add), w.toSituation⟩ :: w.past := by
    rw [hb]
    cases seconds <;> exact ⟨_, rfl, rfl⟩
  rw [← hb]
  have hget : ∀ m, b.animations[m]? =
      if m = w.animations.size then some { element := id, duration, delay, timer } else w.animations[m]? := fun m => by
    rw [hn, Array.getElem?_push]
  refine ⟨[_], hp, fun _ => ⟨fun {m x} hx => ⟨x, ?_, rfl, fun h => h, fun h => h⟩,
    fun {m y} hx hy => ?_, fun m => ?_⟩⟩
  · rw [hget, if_neg, hx]
    rintro rfl
    simp at hx
  · rw [hget] at hy
    split at hy
    · subst m
      cases hy
      exact ⟨rfl, _, List.mem_singleton_self _, _, rfl⟩
    · rw [hx] at hy
      cases hy
  · have hsame : b.awaiting m = w.awaiting m := by
      unfold Situation.awaiting
      rw [hget]
      split
      · subst m
        simp [Animation.awaiting]
      · rfl
    rw [hsame]
    exact add_comm _ _

theorem smoothly {x : Run α} (h : Smoothly (Settles owed) x) : Along (Settles owed) x := by
  intro w
  cases hx : x w with
  | ok r w' =>
    rw [Run.after_ok hx]
    exact h.leads hx
  | error f w' =>
    rw [Run.after_error hx]
    exact of_stumbles (h.fails hx)

theorem change (n id : Nat) (ch : Change) : Along (Settles 0) (Run.change n id ch) :=
  smoothly ⟨fun h => applies ((change_applies n id ch).leads h), (change_applies n id ch).fails⟩

theorem queue (n : Nat) (ch : Change) : Along (Settles 0) (Run.queue n ch) := by
  refine fun w => course.seq (aloof (Aloof.touches (Run.animation_touches n) w)) fun x w' h => ?_
  obtain ⟨rfl, hx⟩ := Run.animation_some h
  have hask : Settles 0 w' ((Run.record (.queue n ch)).after w') := by
    refine still ⟨[_], rfl, fun e he m => ?_⟩ rfl
    rw [List.mem_singleton.mp he]
    exact ⟨rfl, rfl⟩
  refine course.seq hask fun _ w₁ h₁ => ?_
  cases h₁
  split
  · exact change n _ ch _
  · have hset := setIfInBounds_eq_modify (f := fun y : Animation => { y with changes := y.changes ++ [ch] }) hx
    exact withheld (f := (· ++ [ch])) rfl hset

end Settles

/-! ### Ending -/

/-- An animation when it has just ended. -/
def Animation.ended (x : Animation) : Animation := { x with isFinished := true, timer := none }

/-- An animation when all has been brought about that it is for. -/
def Animation.done (x : Animation) : Animation := { x with callbacks := [], isRunning := false }

/-- The world in which an animation has ended, but nothing that was held back is brought about yet. -/
def World.ceased (w : World) (n : Nat) (x : Animation) : World :=
  { w with
    past := ⟨.cease n, w.toSituation⟩ :: w.past
    clock := match x.timer with
      | some timer => w.clock.cancel timer
      | none => w.clock
    animations := w.animations.setIfInBounds n x.ended }

/-- What ending an animation brings about. -/
def Run.bringAbout (play : Player) (n : Nat) (x : Animation) : Run Unit := do
  x.changes.forM (change n x.element)
  modify fun w => { w with animations := w.animations.modify n fun a => { a with changes := [] } }
  x.callbacks.forM (callBack play n)

/-- What is left when all has been brought about. -/
def World.done (w : World) (n : Nat) : World :=
  { w with animations := w.animations.modify n Animation.done }

theorem World.getElem?_ceased {x : Animation} (hx : w.animations[n]? = some x) (m : Nat) :
    (w.ceased n x).animations[m]? = if n = m then some x.ended else w.animations[m]? := by
  obtain ⟨hn, -⟩ := Array.getElem?_eq_some_iff.mp hx
  change (w.animations.setIfInBounds n _)[m]? = _
  rw [Array.getElem?_setIfInBounds, if_pos hn]

theorem World.getElem?_done (w : World) (n m : Nat) :
    (w.done n).animations[m]? = if n = m then (w.animations[m]?).map Animation.done else w.animations[m]? :=
  Array.getElem?_modify ..

namespace Run

theorem finish_ended (h : w.animations[n]? = none ∨ ∃ x, w.animations[n]? = some x ∧ x.isFinished = true) :
    (finish play n).after w = w := by
  unfold finish animation
  rw [bind_assoc, after_get_bind]
  rcases h with h | ⟨x, h, hf⟩
  · rw [h]
    rfl
  · rw [h]
    dsimp only
    rw [pure_bind, hf]
    rfl

theorem finish_open {x : Animation} (h : w.animations[n]? = some x) (hf : x.isFinished = false) :
    finish play n w = (bringAbout play n x >>= fun _ => modify fun w => w.done n) (w.ceased n x) := by
  unfold finish animation bringAbout
  simp only [bind_assoc]
  rw [get_bind, h]
  dsimp only
  rw [pure_bind, hf]
  rfl

end Run

/-- Callbacks that are owed for one animation. -/
def owedTo (n : Nat) (callbacks : List Datum) : Nat → Multiset Datum :=
  fun m => if m = n then callbacks else 0

/-- An animation that has ended called back what waited for it, and is not under way any more. -/
theorem Settling.ended {x : Animation} (hx : a.animations[n]? = some x) (hf : x.isFinished = false) {new : List Event}
    (h : Settling (owedTo n x.callbacks) (a.ceased n x) b new) :
    Settling 0 a (b.done n) (new ++ [⟨.cease n, a.toSituation⟩]) := by
  have hceased := World.getElem?_ceased hx
  have hdone := World.getElem?_done b n
  have hself : (a.ceased n x).animations[n]? = some x.ended := (hceased n).trans (if_pos rfl)
  obtain ⟨y, hy, he, hend, -⟩ := h.stays hself
  have hlast : (b.done n).animations[n]? = some y.done := (hdone n).trans ((if_pos rfl).trans (by rw [hy]; rfl))
  refine ⟨fun {m z} hz => ?_, fun {m z} hz hy => ?_, fun m => ?_⟩
  · by_cases hm : n = m
    · subst m
      obtain rfl := Option.some.inj (hx.symm.trans hz)
      refine ⟨y.done, hlast, he, fun _ => hend rfl, fun _ => ?_⟩
      change false = !y.isFinished
      rw [hend rfl]
      rfl
    · obtain ⟨z', hz', hrest⟩ := h.stays ((hceased m).trans ((if_neg hm).trans hz))
      exact ⟨z', (hdone m).trans ((if_neg hm).trans hz'), hrest⟩
  · have hm : n ≠ m := by
      rintro rfl
      cases hx.symm.trans hz
    rw [hdone, if_neg hm] at hy
    obtain ⟨hset, e, he, hd⟩ := h.added ((hceased m).trans ((if_neg hm).trans hz)) hy
    exact ⟨hset, e, List.mem_append_left _ he, hd⟩
  · have hcalled := h.called m
    have hawaited : (Deed.cease n).awaited? m = none := rfl
    have hquiet : (Deed.cease n).called? m = none := rfl
    rw [collect_append, collect_append, collect_single hawaited, collect_single hquiet, List.nil_append,
      List.nil_append]
    by_cases hm : n = m
    · subst m
      have hleft : x.awaiting = x.callbacks := by
        unfold Animation.awaiting
        rw [hf]
        rfl
      have hgone : ∀ z : Animation, z.isFinished = true → z.awaiting = [] := fun z hz => if_pos hz
      rw [Situation.awaiting_of hself, Situation.awaiting_of hy, hgone x.ended rfl, hgone y (hend rfl)] at hcalled
      rw [Situation.awaiting_of hx, hleft, Situation.awaiting_of hlast, hgone y.done (hend rfl)]
      unfold owedTo at hcalled
      rw [if_pos rfl] at hcalled
      simpa using hcalled
    · have hsame : (a.ceased n x).awaiting m = a.awaiting m := by
        unfold Situation.awaiting
        rw [hceased, if_neg hm]
      have hafter : (b.done n).awaiting m = b.awaiting m := by
        unfold Situation.awaiting
        rw [hdone, if_neg hm]
      unfold owedTo at hcalled
      rw [hsame, if_neg (Ne.symm hm)] at hcalled
      rw [hafter]
      exact hcalled

namespace Settles

theorem called (n : Nat) (callback : Datum) (w : World) :
    Settles (owedTo n [callback]) w ((Run.record (.effect n (.call callback))).after w) := by
  refine ⟨[_], rfl, fun _ => ⟨fun {m x} hx => ⟨x, hx, rfl, fun h => h, fun h => h⟩, fun {m y} hx hy => ?_, fun m => ?_⟩⟩
  · cases hx.symm.trans hy
  · change owedTo n [callback] m + w.awaiting m + 0 = _ + w.awaiting m
    rw [add_zero]
    congr 1
    unfold owedTo collect
    by_cases hm : n = m
    · subst m
      simp [Deed.called?]
    · simp [Deed.called?, hm, Ne.symm hm]

variable (hp : ∀ act, Along (Settles 0) (play act))
include hp

theorem callBack (n : Nat) (callback : Datum) :
    Smoothly (Settles (owedTo n [callback])) (Run.callBack play n callback) := by
  refine .effect (hp _).discard later fun {w w'} _ h => ?_
  have hdone : Settles 0 w' ((Run.record (.effected n (.call callback) (.ok ()))).after w') := by
    refine still ⟨[_], rfl, fun e he m => ?_⟩ rfl
    rw [List.mem_singleton.mp he]
    exact ⟨rfl, rfl⟩
  have hs := (called n callback w).comp (h.comp hdone)
  rwa [add_zero, add_zero] at hs

theorem bringAbout (n : Nat) (x : Animation) :
    Smoothly (Settles (owedTo n x.callbacks)) (Run.bringAbout play n x) := by
  have hchanges : Smoothly (Settles 0) (x.changes.forM (Run.change n x.element)) :=
    Smoothly.forM (R := fun _ => Settles 0) (fun ch => change_applies n x.element ch) Applies.later course.refl
      (fun h k => course.trans (applies h) k) x.changes
  have hclear : Smoothly (Settles 0)
      (modify fun w => { w with animations := w.animations.modify n fun a => { a with changes := [] } } : Run Unit) := by
    exact .modify fun w => withheld (f := fun _ => []) rfl rfl
  have hcalls : Smoothly (Settles (owedTo n x.callbacks)) (x.callbacks.forM (Run.callBack play n)) := by
    refine Smoothly.forM (R := fun l => Settles (owedTo n l)) (callBack hp n) later (fun w => ?_) (fun {y l a b c} h k => ?_) _
    · have hnone : owedTo n [] = 0 := by
        funext m
        unfold owedTo
        split <;> rfl
      rw [hnone]
      exact course.refl w
    · have hcons : owedTo n [y] + owedTo n l = owedTo n (y :: l) := by
        funext m
        unfold owedTo
        by_cases hm : m = n <;> simp [hm]
      rw [← hcons]
      exact h.comp k
  have hrest : Smoothly (Settles (owedTo n x.callbacks)) (do
      modify fun w => { w with animations := w.animations.modify n fun a => { a with changes := [] } }
      x.callbacks.forM (Run.callBack play n) : Run Unit) := hclear.bind (fun _ => hcalls) later zero_comp
  exact hchanges.bind (fun _ => hrest) later zero_comp

theorem finish (n : Nat) : Along (Settles 0) (Run.finish play n) := by
  intro w
  by_cases hopen : ∃ x, w.animations[n]? = some x ∧ x.isFinished = false
  · obtain ⟨x, hx, hf⟩ := hopen
    have hb := bringAbout hp n x
    have hcease : Later w (w.ceased n x) := ⟨[_], rfl⟩
    rw [Run.after_eq, Run.finish_open hx hf]
    cases hr : Run.bringAbout play n x (w.ceased n x) with
    | error f w₁ =>
      rw [Run.bind_error hr]
      exact of_stumbles ((hb.fails hr).after hcease)
    | ok u w₁ =>
      rw [Run.bind_ok hr]
      obtain ⟨new, hnew, hs⟩ := hb.leads hr
      exact ⟨_, by rw [List.append_assoc]; exact hnew, fun he => (hs fun e hm => he e (List.mem_append_left _ hm)).ended hx hf⟩
  · rw [Run.finish_ended]
    · exact course.refl w
    · cases hx : w.animations[n]? with
      | none => exact .inl rfl
      | some x => exact .inr ⟨x, rfl, by simpa using fun hf => hopen ⟨x, hx, hf⟩⟩

theorem stop (n : Nat) : Along (Settles 0) (Run.stop play n) :=
  course.bind (fun w => aloof (.record w rfl)) fun _ => finish hp n

omit hp in
theorem collect_await (n m : Nat) (callback : Datum) (s : Situation) :
    (collect (Deed.awaited? m) [⟨.await n callback, s⟩] : Multiset Datum) = owedTo n [callback] m := by
  unfold owedTo collect
  by_cases hm : n = m
  · subst m
    simp [Deed.awaited?]
  · simp [Deed.awaited?, hm, Ne.symm hm]

omit hp in
/-- What is owed from the moment on when it is let wait. -/
theorem awaited {callback : Datum}
    (h : Settles (owedTo n [callback]) ((Run.record (.await n callback)).after a) b) : Settles 0 a b := by
  obtain ⟨new, hb, h⟩ := h
  refine ⟨new ++ [⟨.await n callback, a.toSituation⟩], by rw [List.append_assoc]; exact hb, fun hs => ?_⟩
  have h := h fun e he => hs e (List.mem_append_left _ he)
  refine ⟨h.stays, fun hx hy => ?_, fun m => ?_⟩
  · obtain ⟨hset, e, he, hd⟩ := h.added hx hy
    exact ⟨hset, e, List.mem_append_left _ he, hd⟩
  · have hcalled := h.called m
    have hquiet : (Deed.await n callback).called? m = none := rfl
    rw [collect_append, collect_append, collect_single hquiet, List.nil_append, ← hcalled]
    rw [← collect_await (s := a.toSituation), ← Multiset.coe_add, Pi.zero_apply, zero_add]
    change a.awaiting m + _ = _ + a.awaiting m + _
    ac_rfl

theorem afterwards (n : Nat) (callback : Datum) : Along (Settles 0) (Run.afterwards play n callback) := by
  refine fun w => course.seq (aloof (Aloof.touches (Run.animation_touches n) w)) fun x w' h => ?_
  obtain ⟨rfl, hx⟩ := Run.animation_some h
  rw [Run.after_record_bind]
  split
  · exact awaited (smoothly (callBack hp n callback) _)
  · rename_i hf
    have hset := setIfInBounds_eq_modify (f := fun y : Animation => { y with callbacks := y.callbacks ++ [callback] }) hx
    have hpast : ({ w' with
        past := ⟨.await n callback, w'.toSituation⟩ :: w'.past
        animations := w'.animations.setIfInBounds n { x with callbacks := x.callbacks ++ [callback] } } : World).past =
        [⟨.await n callback, w'.toSituation⟩] ++ w'.past := rfl
    refine modified hpast hset (fun _ => rfl) (fun _ => rfl) (fun _ h => h) fun m => ?_
    have hquiet : (Deed.await n callback).called? m = none := rfl
    rw [collect_single hquiet, collect_await, Multiset.coe_nil, zero_add]
    unfold owedTo
    by_cases hm : n = m
    · subst m
      have hnew : (w'.animations.modify n fun y => { y with callbacks := y.callbacks ++ [callback] })[n]? =
          some { x with callbacks := x.callbacks ++ [callback] } := by
        rw [Array.getElem?_modify, if_pos rfl, hx]
        rfl
      have hopen : ∀ y : Animation, y.isFinished = x.isFinished → y.awaiting = y.callbacks := fun y hy => by
        unfold Animation.awaiting
        rw [hy]
        exact if_neg hf
      rw [Situation.awaiting_of hx, Situation.awaiting_of ((congrArg (·[n]?) hset).trans hnew), hopen x rfl,
        hopen { x with callbacks := x.callbacks ++ [callback] } rfl, if_pos rfl]
      exact Multiset.coe_add ..
    · rw [if_neg (Ne.symm hm), add_zero]
      have hget : (w'.animations.modify n fun y => { y with callbacks := y.callbacks ++ [callback] })[m]? =
          w'.animations[m]? := by
        rw [Array.getElem?_modify, if_neg hm]
      unfold Situation.awaiting
      exact congrArg (fun o : Option Animation => (((o.map Animation.awaiting).getD [] : List Datum) : Multiset Datum))
        ((congrArg (·[m]?) hset).trans hget).symm

omit hp

theorem tending : Tending (Settles 0) where
  toCourse := course
  aloof := aloof
  soon _ _ := silent rfl rfl
  postpone _ _ w := (aloof (.record w rfl)).zero_comp (silent rfl rfl)
  add id duration delay seconds w _ := add id duration delay seconds w
  queue := queue
  stop hp n := stop hp n
  afterwards hp n callback := afterwards hp n callback

theorem work (j : Job) : Along (Settles 0) (Run.work Run.play j) := by
  cases j with
  | finishAnimation n => exact course.bind (tending.record rfl) fun _ => finish tending.plays n
  | wake j => exact fun w => silent rfl rfl
  | _ => exact tending.task rfl

theorem turn : Along (Settles 0) (Run.turn Run.play) :=
  course.bind (.modifyGet fun _ => silent rfl rfl) fun _ =>
    course.bind (course.forM fun j _ => course.bind (work j).attempt.discard fun _ => tending.record rfl)
      fun _ => course.pure _

/-- So it is over whole runs. -/
theorem onward {unfolded : Bool} (h : a.Onward unfolded b) : Settles 0 a b :=
  tending.onward course id turn (fun _ _ => silent rfl rfl) h

end Settles

/-! ### One animation after another -/

namespace Run

/-- The animations of an element that are under way. -/
theorem running_eq (id : Nat) (w : World) : running id w =
    .ok ((w.animations.toList.zipIdx.filter fun p => p.1.element == id && p.1.isRunning).map (·.2)) w := rfl

theorem mem_running {id : Nat} {l : List Nat} {w' : World} (h : running id w = .ok l w') :
    w' = w ∧ ∀ m, m ∈ l ↔ ∃ x, w.animations[m]? = some x ∧ x.element = id ∧ x.isRunning = true := by
  rw [running_eq] at h
  cases h
  refine ⟨rfl, fun m => ?_⟩
  rw [List.mem_map]
  constructor
  · rintro ⟨⟨x, i⟩, hp, rfl⟩
    obtain ⟨hi, hp⟩ := List.mem_filter.mp hp
    rw [List.mem_zipIdx_iff_getElem?, Array.getElem?_toList] at hi
    rw [Bool.and_eq_true, beq_iff_eq] at hp
    exact ⟨x, hi, hp.1, hp.2⟩
  · rintro ⟨x, hx, he, hr⟩
    refine ⟨(x, m), List.mem_filter.mpr ⟨?_, ?_⟩, rfl⟩
    · rw [List.mem_zipIdx_iff_getElem?, Array.getElem?_toList]
      exact hx
    · rw [Bool.and_eq_true, beq_iff_eq]
      exact ⟨he, hr⟩

/-- Where one animation of an element is under way and no other one, it is all there is. -/
theorem running_one {id n : Nat} (h : ∀ m, (∃ x, w.animations[m]? = some x ∧ x.element = id ∧ x.isRunning = true) ↔ m = n) :
    running id w = .ok [n] w := by
  have hmem := (mem_running (running_eq id w)).2
  have hsub := (List.filter_sublist (p := fun p : Animation × Nat => p.1.element == id && p.1.isRunning)
    (l := w.animations.toList.zipIdx)).map (·.2)
  rw [running_eq]
  congr 1
  refine List.perm_singleton.mp ((List.perm_ext_iff_of_nodup (hsub.nodup ?_) (List.nodup_singleton n)).mpr fun m => ?_)
  · rw [List.zipIdx_map_snd]
    exact List.nodup_range'
  · rw [hmem, h, List.mem_singleton]

theorem animate_eq_ok {id : Nat} {duration delay : Datum} {w' : World} (h : animate id duration delay w = .ok n w') :
    ∃ x, w'.animations = w.animations.push x ∧ n = w.animations.size ∧ x.element = id ∧ x.isRunning = true ∧
      Later w w' := by
  have hadd : ∀ {seconds u}, u.animations = w.animations → Later w u →
      addAnimation id duration delay seconds u = .ok n w' →
      ∃ x, w'.animations = w.animations.push x ∧ n = w.animations.size ∧ x.element = id ∧ x.isRunning = true ∧
        Later w w' := by
    intro seconds u hu hl hok
    have hlater : Later u w' := by
      rw [← after_ok hok]
      exact (Settles.add id duration delay seconds u).later
    have hl := Later.course.trans hl hlater
    rw [← hu]
    cases seconds <;> cases hok <;> exact ⟨_, rfl, rfl, rfl, rfl, hl⟩
  unfold animate at h
  rw [get_bind] at h
  split at h
  · obtain ⟨seconds, u, hseconds, h⟩ := bind_eq_ok.mp h
    have hal := ((Aloof.touches (waiting_touches duration delay)).map some).leads hseconds
    obtain ⟨new, hp, -⟩ := hal.past
    exact hadd hal.animations ⟨new, hp⟩ h
  · exact hadd rfl (Later.course.refl w) h

end Run

/-- Certain animations have ended, if all has gone smoothly. -/
def Ends (l : List Nat) (a b : World) : Prop :=
  ∃ new, b.past = new ++ a.past ∧ ((∀ e ∈ new, e.deed.isSmooth = true) → Settling 0 a b new ∧
    ∀ m ∈ l, ∃ y, b.animations[m]? = some y ∧ y.isFinished = true)

namespace Ends

variable {l l' : List Nat}

theorem of_settles (h : Settles 0 a b) : Ends [] a b := by
  obtain ⟨new, hb, h⟩ := h
  exact ⟨new, hb, fun hs => ⟨h hs, fun m hm => absurd hm List.not_mem_nil⟩⟩

theorem comp (h : Ends l a b) (k : Ends l' b c) : Ends (l ++ l') a c := by
  obtain ⟨new, hb, h⟩ := h
  obtain ⟨more, hc, k⟩ := k
  have hpast : c.past = (more ++ new) ++ a.past := by rw [hc, hb, List.append_assoc]
  refine ⟨more ++ new, hpast, fun hs => ?_⟩
  obtain ⟨hset, hend⟩ := h fun e he => hs e (List.mem_append_right _ he)
  obtain ⟨kset, kend⟩ := k fun e he => hs e (List.mem_append_left _ he)
  refine ⟨by simpa only [add_zero] using hset.comp kset, fun m hm => ?_⟩
  rcases List.mem_append.mp hm with hm | hm
  · obtain ⟨y, hy, hf⟩ := hend m hm
    obtain ⟨z, hz, -, kf, -⟩ := kset.stays hy
    exact ⟨z, hz, kf hf⟩
  · exact kend m hm

theorem finish (hp : ∀ act, Along (Settles 0) (play act)) {x : Animation} (hx : a.animations[n]? = some x)
    (h : Run.finish play n a = .ok () b) : Ends [n] a b := by
  cases hf : x.isFinished with
  | true =>
    have hsame : (Run.finish play n).after a = a := Run.finish_ended (.inr ⟨x, hx, hf⟩)
    rw [Run.after_ok h] at hsame
    subst hsame
    refine ⟨[], rfl, fun _ => ⟨.refl b, fun m hm => ?_⟩⟩
    rw [List.mem_singleton.mp hm]
    exact ⟨x, hx, hf⟩
  | false =>
    rw [Run.finish_open hx hf] at h
    obtain ⟨u, w₁, h₁, h⟩ := Run.bind_eq_ok.mp h
    cases h
    obtain ⟨new, hnew, hs⟩ := (Settles.bringAbout hp n x).leads h₁
    refine ⟨new ++ [⟨.cease n, a.toSituation⟩], by rw [List.append_assoc]; exact hnew, fun he => ?_⟩
    have hset := hs fun e hm => he e (List.mem_append_left _ hm)
    refine ⟨hset.ended hx hf, fun m hm => ?_⟩
    obtain ⟨y, hy, -, hend, -⟩ := hset.stays ((World.getElem?_ceased hx n).trans (if_pos rfl))
    rw [List.mem_singleton.mp hm]
    exact ⟨y.done, (World.getElem?_done w₁ n n).trans ((if_pos rfl).trans (by rw [hy]; rfl)), hend rfl⟩

theorem stops (hp : ∀ act, Along (Settles 0) (play act)) {l : List Nat} (h : l.forM (Run.stop play) a = .ok () b) :
    Ends l a b := by
  induction l generalizing a with
  | nil =>
    cases h
    exact of_settles (Settles.course.refl _)
  | cons n l ih =>
    obtain ⟨_, c, h₁, h₂⟩ := Run.bind_eq_ok.mp h
    obtain ⟨_, u, hu, h₁⟩ := Run.bind_eq_ok.mp h₁
    have hstop : Settles 0 a u := (Settles.tending.record rfl).leads hu
    obtain ⟨x, _, hx, -⟩ := Run.bind_eq_ok.mp h₁
    exact ((of_settles hstop).comp (finish hp (Run.animation_some hx).2 h₁)).comp (ih h₂)

end Ends

/-- When an animation of an element has been asked for after all others of it have been finished, it is the only
one under way, unless another one has been started meanwhile. -/
theorem animateNext_alone {levels : Nat} {e duration d : Datum} {b : World}
    (h : Run.animateNext (Run.playWithin levels) e duration a = .ok d b)
    (hs : ∀ e ∈ b.since a, e.deed.isSmooth = true) : ∃ id n, e = World.element id ∧ d = .entity (.animation n) ∧
      ((∀ (m : Nat) (x : Animation), a.animations[m]? = some x → x.element = id → x.isSettled) →
        (∀ e ∈ b.since a, ∀ m due, e.deed = .animate m id due → m = n) → Run.running id b = .ok [n] b) := by
  have hp : ∀ act, Along (Settles 0) (Run.playWithin levels act) := Settles.tending.obeyed.playWithin levels
  obtain ⟨id, u, hu, h₁⟩ := Run.bind_eq_ok.mp h
  obtain ⟨rfl, rfl⟩ : e = World.element id ∧ a = u := by
    unfold Run.needElement at hu
    split at hu <;> cases hu
    exact ⟨rfl, rfl⟩
  obtain ⟨_, v, hfinished, h₂⟩ := Run.bind_eq_ok.mp h₁
  obtain ⟨l, u', hl, hv⟩ := Run.bind_eq_ok.mp hfinished
  obtain ⟨hsame, hmem⟩ := Run.mem_running hl
  rw [hsame] at hv
  obtain ⟨n, w, hn, h₃⟩ := Run.bind_eq_ok.mp h₂
  cases h₃
  obtain ⟨x, hpush, rfl, hx, hr, more, hmore⟩ := Run.animate_eq_ok hn
  obtain ⟨new, hnew, hends⟩ := Ends.stops hp hv
  have hsince : b.since a = more ++ new := World.since_eq (by rw [hmore, hnew, List.append_assoc])
  rw [hsince] at hs ⊢
  obtain ⟨hset, hend⟩ := hends fun e he => hs e (List.mem_append_right _ he)
  refine ⟨id, v.animations.size, rfl, rfl, fun hsettled honly => Run.running_one fun m => ⟨?_, ?_⟩⟩
  · rintro ⟨y, hy, he, hrun⟩
    by_contra hm
    rw [hpush, Array.getElem?_push, if_neg hm] at hy
    cases hz : a.animations[m]? with
    | none =>
      obtain ⟨-, ev, hev, due, hdeed⟩ := hset.added hz hy
      exact hm (honly ev (List.mem_append_right _ hev) m due (by rw [hdeed, he]))
    | some z =>
      obtain ⟨y', hy', helement, hfin, hstays⟩ := hset.stays hz
      obtain rfl := Option.some.inj (hy.symm.trans hy')
      have hz' := hsettled m z hz (helement.symm.trans he)
      have hended : y.isFinished = true := by
        by_cases hzr : z.isRunning = true
        · obtain ⟨y', hy', hf⟩ := hend m ((hmem m).mpr ⟨z, hz, helement.symm.trans he, hzr⟩)
          rwa [Option.some.inj (hy.symm.trans hy')]
        · refine hfin ?_
          unfold Animation.isSettled at hz'
          cases hzf : z.isFinished with
          | true => rfl
          | false => exact absurd (hz'.trans (by rw [hzf]; rfl)) hzr
      have hnot : y.isRunning = !y.isFinished := hstays hz'
      rw [hrun, hended] at hnot
      cases hnot
  · rintro rfl
    exact ⟨x, by rw [hpush, Array.getElem?_push, if_pos rfl], hx, hr⟩

end LiveSvg
