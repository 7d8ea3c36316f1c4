import LiveSvg.Descriptor.Reader
import Mathlib.Tactic.Ring
/-!
When two names are the same. Numbers are by their exact size, so that being the same name is an
equivalence of the values that can be names.
-/

namespace LiveSvg

open Number (Binary64)

namespace Number.Binary64

/-- A fraction has a denominator. -/
def Place.Proper : Place → Prop
  | .point _ d => 0 < d
  | _ => True

namespace Place

variable {p q r : Place}

theorem compare_point {n m : Int} {d e : Nat} :
    (point n d).compare (point m e) = .eq ↔ n * e = m * d := by
  simp [compare]

theorem compare_refl (p : Place) : p.compare p = .eq := by
  cases p <;> simp [compare]

theorem compare_symm (h : p.compare q = .eq) : q.compare p = .eq := by
  cases p <;> cases q <;> simp only [compare, reduceCtorEq] at h ⊢
  rw [compare_eq_iff_eq] at h ⊢
  exact h.symm

theorem compare_trans (hq : q.Proper) (h : p.compare q = .eq) (k : q.compare r = .eq) :
    p.compare r = .eq := by
  cases p <;> cases q <;> cases r <;> simp only [compare, reduceCtorEq] at h k ⊢
  rename_i n d m e l f
  rw [compare_eq_iff_eq] at h k ⊢
  have he : (e : Int) ≠ 0 := by
    have : 0 < e := hq
    omega
  apply mul_right_cancel₀ he
  calc n * f * e = n * e * f := by ring
    _ = m * f * d := by rw [h]; ring
    _ = l * d * e := by rw [k]; ring

end Place

theorem place?_proper {x : Binary64} {p : Place} (h : x.place? = some p) : p.Proper := by
  cases x with
  | nan => cases h
  | infinity b => cases b <;> cases h <;> trivial
  | finite b m e c =>
    cases h
    exact Nat.two_pow_pos _

theorem place?_isSome {x : Binary64} (h : x.isNaN = false) : ∃ p, x.place? = some p := by
  cases x with
  | nan => cases h
  | infinity b => exact ⟨_, rfl⟩
  | finite b m e c => exact ⟨_, rfl⟩

end Number.Binary64

namespace Value

theorem Numeric.place?_proper {x : Numeric} {p : Binary64.Place} (h : x.place? = some p) :
    p.Proper := by
  cases x with
  | int n => cases h; exact Nat.one_pos
  | float x => exact Binary64.place?_proper h

namespace Numeric

variable {x y z : Numeric}

theorem same_iff : x.same y = true ↔
    ∃ p q, x.place? = some p ∧ y.place? = some q ∧ p.compare q = .eq := by
  unfold same compare?
  cases x.place? <;> cases y.place? <;> simp

theorem same_symm (h : x.same y = true) : y.same x = true := by
  obtain ⟨p, q, hx, hy, he⟩ := same_iff.mp h
  exact same_iff.mpr ⟨q, p, hy, hx, Binary64.Place.compare_symm he⟩

theorem same_trans (h : x.same y = true) (k : y.same z = true) : x.same z = true := by
  obtain ⟨p, q, hx, hy, he⟩ := same_iff.mp h
  obtain ⟨q', r, hy', hz, ke⟩ := same_iff.mp k
  obtain rfl : q = q' := Option.some.inj (hy.symm.trans hy')
  exact same_iff.mpr ⟨p, r, hx, hz, Binary64.Place.compare_trans (place?_proper hy) he ke⟩

end Numeric

end Value

namespace Descriptor

open Value (Numeric)

variable {a b c : Value}

theorem sameName_refl (h : isName a) : sameName a a = true := by
  have hn : ∀ n : Int, (Numeric.int n).same (.int n) = true := fun n =>
    Numeric.same_iff.mpr ⟨_, _, rfl, rfl, Binary64.Place.compare_refl _⟩
  cases a with
  | float x =>
    cases hx : x.isNaN with
    | true => simp [sameName, hx]
    | false =>
      obtain ⟨p, hp⟩ := Binary64.place?_isSome hx
      have hs : (Numeric.float x).same (.float x) = true :=
        Numeric.same_iff.mpr ⟨p, p, hp, hp, Binary64.Place.compare_refl _⟩
      simp [sameName, Value.same, Value.sameNumber, Value.numeric?, hs]
  | list _ | object _ => cases h
  | _ => simp [sameName, Value.same, Value.sameNumber, Value.numeric?, hn]

/-- Names are the same if they are equal, or numbers of the same size. -/
theorem sameName_iff (h : isName a) : sameName a b = true ↔
    a = b ∨ ∃ x y, a.numeric? = some x ∧ b.numeric? = some y ∧ x.same y = true := by
  constructor
  · intro k
    cases a <;> cases b <;>
      simp_all [sameName, Value.same, Value.sameNumber, Value.numeric?, isName]
    rename_i x y
    rcases k with k | ⟨hx, hy⟩
    · exact .inr k
    · cases x <;> cases y <;> simp [Binary64.isNaN] at hx hy ⊢
  · rintro (rfl | ⟨x, y, hx, hy, k⟩)
    · exact sameName_refl h
    · cases a <;> cases hx <;> simp [sameName, Value.same, Value.sameNumber, hy, k]

theorem isName_eq (h : sameName a b = true) : isName a = isName b := by
  cases a <;> cases b <;>
    simp_all [sameName, Value.same, Value.sameNumber, Value.numeric?, isName]

theorem sameName_symm (hb : isName b) (h : sameName a b = true) : sameName b a = true := by
  rcases (sameName_iff ((isName_eq h).trans hb)).mp h with rfl | ⟨x, y, hx, hy, k⟩
  · exact h
  · exact (sameName_iff hb).mpr (.inr ⟨y, x, hy, hx, Numeric.same_symm k⟩)

theorem sameName_trans (hb : isName b) (h : sameName a b = true) (k : sameName b c = true) :
    sameName a c = true := by
  have ha := (isName_eq h).trans hb
  rcases (sameName_iff ha).mp h with rfl | ⟨x, y, hx, hy, hs⟩
  · exact k
  · rcases (sameName_iff hb).mp k with rfl | ⟨y', z, hy', hz, ks⟩
    · exact h
    · obtain rfl : y = y' := Option.some.inj (hy.symm.trans hy')
      exact (sameName_iff ha).mpr (.inr ⟨x, z, hx, hz, Numeric.same_trans hs ks⟩)

/-- The same names are the same as any other one. -/
theorem sameName_congr (hb : isName b) (h : sameName a b = true) : sameName a c = sameName b c := by
  have ha := (isName_eq h).trans hb
  rw [Bool.eq_iff_iff]
  exact ⟨sameName_trans ha (sameName_symm hb h), sameName_trans hb h⟩

/-! ### Names of behaviors -/

/-- No two behaviors have the same id. -/
structure Distinct (d : Descriptor) : Prop where
  names : ∀ b ∈ d.behaviors, isName b.id
  pairwise : d.behaviors.Pairwise fun b b' => sameName b'.id b.id = false

theorem checkUnique_ok {naming : Naming} {seen names : List Value}
    (h : checkUnique naming seen names = .ok ()) : (∀ n ∈ names, isName n) ∧
      (∀ n ∈ names, ∀ s ∈ seen, sameName n s = false) ∧
        names.Pairwise fun n n' => sameName n' n = false := by
  induction names generalizing seen with
  | nil => simp
  | cons name names ih =>
    rw [checkUnique] at h
    split at h
    · cases h
    · rename_i hn
      split at h
      · cases h
      · rename_i hs
        obtain ⟨i, j, k⟩ := ih h
        refine ⟨?_, fun n hm s hk => ?_, List.pairwise_cons.mpr ⟨fun n hm => ?_, k⟩⟩
        · simpa using ⟨by simpa using hn, i⟩
        · rcases List.mem_cons.mp hm with rfl | hm
          · simp only [Bool.not_eq_true, List.any_eq_false] at hs
            exact hs s hk
          · exact j n hm s (List.mem_cons_of_mem _ hk)
        · exact j n hm name (List.mem_cons_self ..)

end Descriptor

end LiveSvg
