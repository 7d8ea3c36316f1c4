import LiveSvg.Script.Grammar
import Mathlib.Tactic.Common
/-!
How the statements of a body are read when another one comes after them: the same, up to where the body
ends, since nothing that is read looks past its end but for the words that could go on with it.
-/

namespace LiveSvg.Script.Grammar

/-- The end of a block. -/
def blockEnd : List Token := [.dedent]

/-- The end of a block with a statement before it that does nothing. -/
def passEnd : List Token := [.name "pass", .newline, .dedent]

section

variable {α β : Type} {n m : Nat} {s : String}

/-- Whether one reading gives before the end of a block what another one gives before a last statement. -/
def Agrees (p q : List Token → Option (α × List Token)) : Prop :=
  ∀ b x r, p (b ++ blockEnd) = some (x, r) → ∃ b', r = b' ++ blockEnd ∧ q (b ++ passEnd) = some (x, b' ++ passEnd)

/-- Whether something that may come next is found before the end of a block as before a last statement. -/
def Sees (find : List Token → Option (List Token)) : Prop :=
  ∀ b, (find (b ++ blockEnd) = none ∧ find (b ++ passEnd) = none) ∨
    ∃ b', find (b ++ blockEnd) = some (b' ++ blockEnd) ∧ find (b ++ passEnd) = some (b' ++ passEnd)

/-- Whether so is one of several things. -/
def SeesOne (find : List Token → Option (α × List Token)) : Prop :=
  ∀ b, (find (b ++ blockEnd) = none ∧ find (b ++ passEnd) = none) ∨
    ∃ x b', find (b ++ blockEnd) = some (x, b' ++ blockEnd) ∧ find (b ++ passEnd) = some (x, b' ++ passEnd)

/-! ### What may come next -/

theorem sees_sign (s : String) : Sees (takeSign s) := by
  intro b
  cases b with
  | nil => exact .inl ⟨rfl, rfl⟩
  | cons t b =>
    cases t with
    | sign t =>
      simp only [List.cons_append, takeSign]
      by_cases h : t = s
      · exact .inr ⟨b, by simp [h], by simp [h]⟩
      · exact .inl ⟨by simp [h], by simp [h]⟩
    | _ => exact .inl ⟨rfl, rfl⟩

theorem sees_word (hs : s ≠ "pass") : Sees (takeWord s) := by
  intro b
  cases b with
  | nil => exact .inl ⟨rfl, by simp [takeWord, passEnd, hs.symm]⟩
  | cons t b =>
    cases t with
    | name t =>
      simp only [List.cons_append, takeWord]
      by_cases h : t = s
      · exact .inr ⟨b, by simp [h], by simp [h]⟩
      · exact .inl ⟨by simp [h], by simp [h]⟩
    | _ => exact .inl ⟨rfl, rfl⟩

theorem takeComparison_sign {r : List Token} (h : s ∉ ["==", "!=", "<", "<=", ">", ">="]) :
    takeComparison (.sign s :: r) = none := by
  simp only [List.mem_cons, List.not_mem_nil, or_false, not_or] at h
  unfold takeComparison
  split <;> simp_all

theorem takeComparison_name {r : List Token} (h : s ∉ ["in", "not", "is"]) : takeComparison (.name s :: r) = none := by
  simp only [List.mem_cons, List.not_mem_nil, or_false, not_or] at h
  unfold takeComparison
  split <;> simp_all

theorem takeComparison_not {r : List Token} (h : r.head? ≠ some (.name "in")) :
    takeComparison (.name "not" :: r) = none := by
  unfold takeComparison
  split <;> simp_all

theorem takeComparison_is {r : List Token} (h : r.head? ≠ some (.name "not")) :
    takeComparison (.name "is" :: r) = some (.identical, r) := by
  unfold takeComparison
  split <;> simp_all

/-- A comparison takes one token or two, of which the end of a block is none. -/
theorem sees_comparison : SeesOne takeComparison := by
  intro b
  -- what follows the first token starts alike, or starts with the end
  have hhead : ∀ (b : List Token) (s : String), s ≠ "pass" →
      (∃ b', b = .name s :: b') ∨ (b ++ blockEnd).head? ≠ some (.name s) ∧ (b ++ passEnd).head? ≠ some (.name s) := by
    intro b s hs
    rcases b with _ | ⟨t, b⟩
    · exact .inr ⟨by simp [blockEnd], by simp [passEnd, hs.symm]⟩
    · by_cases ht : t = .name s
      · exact .inl ⟨b, by rw [ht]⟩
      · exact .inr ⟨by simp [ht], by simp [ht]⟩
  rcases b with _ | ⟨t, b⟩
  · exact .inl ⟨rfl, rfl⟩
  · simp only [List.cons_append]
    cases t with
    | sign s =>
      by_cases h : s ∈ ["==", "!=", "<", "<=", ">", ">="]
      · simp only [List.mem_cons, List.not_mem_nil, or_false] at h
        rcases h with rfl | rfl | rfl | rfl | rfl | rfl <;> exact .inr ⟨_, b, rfl, rfl⟩
      · exact .inl ⟨takeComparison_sign h, takeComparison_sign h⟩
    | name s =>
      by_cases h : s ∈ ["in", "not", "is"]
      · simp only [List.mem_cons, List.not_mem_nil, or_false] at h
        rcases h with rfl | rfl | rfl
        · exact .inr ⟨_, b, rfl, rfl⟩
        · rcases hhead b "in" (by decide) with ⟨b', rfl⟩ | ⟨h, h'⟩
          · exact .inr ⟨_, b', rfl, rfl⟩
          · exact .inl ⟨takeComparison_not h, takeComparison_not h'⟩
        · rcases hhead b "not" (by decide) with ⟨b', rfl⟩ | ⟨h, h'⟩
          · exact .inr ⟨_, b', rfl, rfl⟩
          · exact .inr ⟨_, b, takeComparison_is h, takeComparison_is h'⟩
      · exact .inl ⟨takeComparison_name h, takeComparison_name h⟩
    | _ => exact .inl ⟨rfl, rfl⟩

theorem sees_sumSign : SeesOne takeSumSign := by
  intro b
  rcases b with _ | ⟨t, b⟩
  · exact .inl ⟨rfl, rfl⟩
  · simp only [List.cons_append]
    cases t with
    | sign s =>
      by_cases h : s ∈ ["+", "-"]
      · simp only [List.mem_cons, List.not_mem_nil, or_false] at h
        rcases h with rfl | rfl <;> exact .inr ⟨_, b, rfl, rfl⟩
      · simp only [List.mem_cons, List.not_mem_nil, or_false, not_or] at h
        have hnone : ∀ r, takeSumSign (.sign s :: r) = none := by
          intro r
          unfold takeSumSign
          split <;> simp_all
        exact .inl ⟨hnone _, hnone _⟩
    | _ => exact .inl ⟨rfl, rfl⟩

theorem sees_termSign : SeesOne takeTermSign := by
  intro b
  rcases b with _ | ⟨t, b⟩
  · exact .inl ⟨rfl, rfl⟩
  · simp only [List.cons_append]
    cases t with
    | sign s =>
      by_cases h : s ∈ ["*", "/", "//", "%"]
      · simp only [List.mem_cons, List.not_mem_nil, or_false] at h
        rcases h with rfl | rfl | rfl | rfl <;> exact .inr ⟨_, b, rfl, rfl⟩
      · simp only [List.mem_cons, List.not_mem_nil, or_false, not_or] at h
        have hnone : ∀ r, takeTermSign (.sign s :: r) = none := by
          intro r
          unfold takeTermSign
          split <;> simp_all
        exact .inl ⟨hnone _, hnone _⟩
    | _ => exact .inl ⟨rfl, rfl⟩

/-! ### One reading after another -/

theorem Agrees.pure (x : α) : Agrees (fun ts => some (x, ts)) (fun ts => some (x, ts)) := by
  intro b y r h
  cases h
  exact ⟨b, rfl, rfl⟩

theorem Agrees.bind {p q : List Token → Option (α × List Token)} {f g : α × List Token → Option (β × List Token)}
    (hp : Agrees p q) (hf : ∀ x, Agrees (fun ts => f (x, ts)) (fun ts => g (x, ts))) :
    Agrees (fun ts => p ts >>= f) (fun ts => q ts >>= g) := by
  intro b y r h
  obtain ⟨⟨x, ts⟩, hx, h⟩ := Option.bind_eq_some_iff.mp h
  obtain ⟨b₁, rfl, hx'⟩ := hp b x ts hx
  obtain ⟨b₂, rfl, hy'⟩ := hf x b₁ y r h
  exact ⟨b₂, rfl, Option.bind_eq_some_iff.mpr ⟨_, hx', hy'⟩⟩

theorem Agrees.after {find : List Token → Option (List Token)} {f g : List Token → Option (α × List Token)}
    (hs : Sees find) (hf : Agrees f g) : Agrees (fun ts => find ts >>= f) (fun ts => find ts >>= g) := by
  intro b y r h
  obtain ⟨ts, hx, h⟩ := Option.bind_eq_some_iff.mp h
  rcases hs b with ⟨hn, -⟩ | ⟨b₁, hw, hw'⟩
  · rw [hn] at hx
    cases hx
  · rw [hw] at hx
    cases hx
    obtain ⟨b₂, rfl, hy'⟩ := hf b₁ y r h
    exact ⟨b₂, rfl, Option.bind_eq_some_iff.mpr ⟨_, hw', hy'⟩⟩

theorem Agrees.either {find : List Token → Option (List Token)} {f f' g g' : List Token → Option (α × List Token)}
    (hs : Sees find) (hf : Agrees f f') (hg : Agrees g g') :
    Agrees (fun ts => match find ts with | some ts => f ts | none => g ts)
      (fun ts => match find ts with | some ts => f' ts | none => g' ts) := by
  intro b y r h
  dsimp only at h ⊢
  rcases hs b with ⟨hw, hw'⟩ | ⟨b₁, hw, hw'⟩
  · rw [hw] at h
    rw [hw']
    exact hg b y r h
  · rw [hw] at h
    rw [hw']
    exact hf b₁ y r h

/-! ### Expressions -/

/-- Whether the readers of expressions agree, one of them with more fuel. -/
structure Agreeing (n m : Nat) : Prop where
  expr : Agrees (expr n) (expr m)
  disjunction : Agrees (disjunction n) (disjunction m)
  conjunction : Agrees (conjunction n) (conjunction m)
  inversion : Agrees (inversion n) (inversion m)
  comparisons : Agrees (comparisons n) (comparisons m)
  sum : Agrees (sum n) (sum m)
  sumMore : ∀ x, Agrees (sumMore n x) (sumMore m x)
  term : Agrees (term n) (term m)
  termMore : ∀ x, Agrees (termMore n x) (termMore m x)
  factor : Agrees (factor n) (factor m)
  primary : ∀ x, Agrees (primary n x) (primary m x)
  exprs : ∀ closing, Agrees (exprs n closing) (exprs m closing)
  members : Agrees (members n) (members m)
  atom : Agrees (atom n) (atom m)

theorem expr_agrees (h : Agreeing n m) : Agrees (expr (n + 1)) (expr (m + 1)) := by
  refine Agrees.bind h.disjunction fun y => ?_
  refine Agrees.either (sees_word (by decide)) ?_ (.pure y)
  refine Agrees.bind h.disjunction fun c => ?_
  refine Agrees.after (sees_word (by decide)) ?_
  exact Agrees.bind h.expr fun z => .pure _

theorem disjunction_agrees (h : Agreeing n m) : Agrees (disjunction (n + 1)) (disjunction (m + 1)) := by
  refine Agrees.bind h.conjunction fun x => ?_
  refine Agrees.either (sees_word (by decide)) ?_ (.pure x)
  exact Agrees.bind h.disjunction fun y => .pure _

theorem conjunction_agrees (h : Agreeing n m) : Agrees (conjunction (n + 1)) (conjunction (m + 1)) := by
  refine Agrees.bind h.inversion fun x => ?_
  refine Agrees.either (sees_word (by decide)) ?_ (.pure x)
  exact Agrees.bind h.conjunction fun y => .pure _

theorem inversion_agrees (h : Agreeing n m) : Agrees (inversion (n + 1)) (inversion (m + 1)) := by
  refine Agrees.either (sees_word (by decide)) ?_ ?_
  · exact Agrees.bind h.inversion fun x => .pure _
  · refine Agrees.bind h.sum fun x => ?_
    exact Agrees.bind h.comparisons fun rest => .pure _

theorem comparisons_agrees (h : Agreeing n m) : Agrees (comparisons (n + 1)) (comparisons (m + 1)) := by
  intro b y r hy
  rw [comparisons] at hy ⊢
  rcases sees_comparison b with ⟨hs, hs'⟩ | ⟨op, b₁, hs, hs'⟩
  · rw [hs] at hy
    rw [hs']
    exact Agrees.pure [] b y r hy
  · rw [hs] at hy
    rw [hs']
    exact Agrees.bind h.sum (fun x => Agrees.bind h.comparisons fun rest => .pure ((op, x) :: rest)) b₁ y r hy

theorem sum_agrees (h : Agreeing n m) : Agrees (sum (n + 1)) (sum (m + 1)) :=
  Agrees.bind h.term h.sumMore

theorem sumMore_agrees (h : Agreeing n m) (x : Expr) : Agrees (sumMore (n + 1) x) (sumMore (m + 1) x) := by
  intro b y r hy
  rw [sumMore] at hy ⊢
  rcases sees_sumSign b with ⟨hs, hs'⟩ | ⟨op, b₁, hs, hs'⟩
  · rw [hs] at hy
    rw [hs']
    exact Agrees.pure x b y r hy
  · rw [hs] at hy
    rw [hs']
    exact Agrees.bind h.term (fun y => h.sumMore (.binary op x y)) b₁ y r hy

theorem term_agrees (h : Agreeing n m) : Agrees (term (n + 1)) (term (m + 1)) :=
  Agrees.bind h.factor h.termMore

theorem termMore_agrees (h : Agreeing n m) (x : Expr) : Agrees (termMore (n + 1) x) (termMore (m + 1) x) := by
  intro b y r hy
  rw [termMore] at hy ⊢
  rcases sees_termSign b with ⟨hs, hs'⟩ | ⟨op, b₁, hs, hs'⟩
  · rw [hs] at hy
    rw [hs']
    exact Agrees.pure x b y r hy
  · rw [hs] at hy
    rw [hs']
    exact Agrees.bind h.factor (fun y => h.termMore (.binary op x y)) b₁ y r hy

theorem exprs_agrees (h : Agreeing n m) (closing : String) :
    Agrees (exprs (n + 1) closing) (exprs (m + 1) closing) := by
  refine Agrees.either (sees_sign closing) (.pure []) ?_
  refine Agrees.bind h.expr fun x => ?_
  refine Agrees.either (sees_sign ",") ?_ ?_
  · exact Agrees.bind (h.exprs closing) fun xs => .pure _
  · exact Agrees.after (sees_sign closing) (.pure _)

theorem members_agrees (h : Agreeing n m) : Agrees (members (n + 1)) (members (m + 1)) := by
  refine Agrees.either (sees_sign "\x7d") (.pure []) ?_
  refine Agrees.bind h.expr fun k => ?_
  refine Agrees.after (sees_sign ":") ?_
  refine Agrees.bind h.expr fun x => ?_
  refine Agrees.either (sees_sign ",") ?_ ?_
  · exact Agrees.bind h.members fun ms => .pure _
  · exact Agrees.after (sees_sign "\x7d") (.pure _)

theorem factor_agrees (h : Agreeing n m) : Agrees (factor (n + 1)) (factor (m + 1)) := by
  have hrest : Agrees (fun ts => atom n ts >>= fun y => primary n y.1 y.2) (fun ts => atom m ts >>= fun y => primary m y.1 y.2) :=
    Agrees.bind h.atom h.primary
  have hother : ∀ n s ts, s ≠ "-" → s ≠ "+" →
      factor (n + 1) (.sign s :: ts) = atom n (.sign s :: ts) >>= fun y => primary n y.1 y.2 := by
    intro n s ts hm hp
    rw [factor] <;> simp [hm, hp]
  intro b x r hx
  rcases b with _ | ⟨t, b⟩
  · exact hrest [] x r hx
  · cases t with
    | sign s =>
      by_cases hm : s = "-"
      · subst hm
        exact Agrees.bind h.factor (fun y => .pure (Expr.negate y)) b x r hx
      by_cases hp : s = "+"
      · subst hp
        exact Agrees.bind h.factor (fun y => .pure (Expr.posit y)) b x r hx
      rw [List.cons_append, hother n s _ hm hp] at hx
      rw [List.cons_append, hother m s _ hm hp]
      exact hrest (.sign s :: b) x r hx
    | _ => exact hrest (_ :: b) x r hx

theorem primary_agrees (h : Agreeing n m) (x : Expr) : Agrees (primary (n + 1) x) (primary (m + 1) x) := by
  have hother : ∀ n s ts, s ≠ "." → s ≠ "[" → s ≠ "(" → primary (n + 1) x (.sign s :: ts) = some (x, .sign s :: ts) := by
    intro n s ts hd hb hp
    rw [primary] <;> simp [hd, hb, hp]
  intro b y r hy
  rcases b with _ | ⟨t, b⟩
  · exact Agrees.pure x [] y r hy
  · cases t with
    | sign s =>
      by_cases hd : s = "."
      · subst hd
        rcases b with _ | ⟨t, b⟩
        · cases hy
        · cases t with
          | name s =>
            have hmember : Agrees (fun ts => if keywords.contains s then none else primary n (.member x s) ts)
                (fun ts => if keywords.contains s then none else primary m (.member x s) ts) := by
              split
              · intro b y r hy
                cases hy
              · exact h.primary _
            exact hmember b y r hy
          | _ => cases hy
      by_cases hb : s = "["
      · subst hb
        exact Agrees.bind h.expr (fun index => Agrees.after (sees_sign "]") (h.primary _)) b y r hy
      by_cases hp : s = "("
      · subst hp
        exact Agrees.bind (h.exprs ")") (fun args => h.primary _) b y r hy
      rw [List.cons_append, hother n s _ hd hb hp] at hy
      rw [List.cons_append, hother m s _ hd hb hp]
      exact Agrees.pure x (.sign s :: b) y r hy
    | _ => exact Agrees.pure x (_ :: b) y r hy

theorem atom_agrees (h : Agreeing n m) : Agrees (atom (n + 1)) (atom (m + 1)) := by
  have hname : ∀ n s ts, s ≠ "None" → s ≠ "True" → s ≠ "False" →
      atom (n + 1) (.name s :: ts) = if keywords.contains s then none else some (.name s, ts) := by
    intro n s ts hn ht hf
    rw [atom] <;> simp [hn, ht, hf]
  have hsign : ∀ n s ts, s ≠ "(" → s ≠ "[" → s ≠ "\x7b" → atom (n + 1) (.sign s :: ts) = none := by
    intro n s ts hp hb hc
    rw [atom] <;> simp [hp, hb, hc]
  intro b x r hx
  rcases b with _ | ⟨t, b⟩
  · cases hx
  · cases t with
    | name s =>
      by_cases hn : s = "None"
      · subst hn
        exact Agrees.pure _ b x r hx
      by_cases ht : s = "True"
      · subst ht
        exact Agrees.pure _ b x r hx
      by_cases hf : s = "False"
      · subst hf
        exact Agrees.pure _ b x r hx
      rw [List.cons_append, hname n s _ hn ht hf] at hx
      rw [List.cons_append, hname m s _ hn ht hf]
      split at hx
      · cases hx
      · next hk =>
        rw [if_neg hk]
        exact Agrees.pure _ b x r hx
    | int k => exact Agrees.pure _ b x r hx
    | float y => exact Agrees.pure _ b x r hx
    | text s =>
      rcases b with _ | ⟨t, b⟩
      · exact Agrees.pure (Expr.text s) [] x r hx
      · cases t with
        | text t => exact h.atom (.text (s ++ t) :: b) x r hx
        | _ => exact Agrees.pure (Expr.text s) (_ :: b) x r hx
    | sign s =>
      by_cases hp : s = "("
      · subst hp
        exact Agrees.bind h.expr (fun y => Agrees.after (sees_sign ")") (.pure y)) b x r hx
      by_cases hb : s = "["
      · subst hb
        exact Agrees.bind (h.exprs "]") (fun xs => .pure (Expr.list xs)) b x r hx
      by_cases hc : s = "\x7b"
      · subst hc
        exact Agrees.bind h.members (fun ms => .pure (Expr.object ms)) b x r hx
      rw [List.cons_append, hsign n s _ hp hb hc] at hx
      cases hx
    | _ => cases hx

/-- Expressions before the end of a block are read alike before a last statement, with no less fuel. -/
theorem agreeing (h : n ≤ m) : Agreeing n m := by
  induction n generalizing m with
  | zero => constructor <;> intros <;> intro b x r hx <;> cases hx
  | succ n ih =>
    obtain ⟨m, rfl⟩ : ∃ k, m = k + 1 := ⟨m - 1, by omega⟩
    have h := ih (m := m) (by omega)
    exact ⟨expr_agrees h, disjunction_agrees h, conjunction_agrees h, inversion_agrees h, comparisons_agrees h,
      sum_agrees h, sumMore_agrees h, term_agrees h, termMore_agrees h, factor_agrees h, primary_agrees h,
      exprs_agrees h, members_agrees h, atom_agrees h⟩

/-- The statement that gives a value to what an expression names. -/
def assignment? (target e : Expr) : Option Stmt :=
  match target with
  | .name s => some (.assign s e)
  | .item x index => some (.store x index e)
  | _ => none

/-- What follows the expression that a statement starts with. -/
def afterTarget (fuel : Nat) (target : Expr) (ts : List Token) : Option (Stmt × List Token) :=
  match takeSign "=" ts with
  | some ts => expr fuel ts >>= fun y => (assignment? target y.1).map (·, y.2)
  | none => some (.eval target, ts)

theorem small_other (n : Nat) {ts : List Token} (hp : ts.head? ≠ some (.name "pass"))
    (hr : ts.head? ≠ some (.name "return")) (hx : ts.head? ≠ some (.name "raise")) :
    small n ts = expr n ts >>= fun y => afterTarget n y.1 y.2 := by
  have hstart : ∀ t, ts.head? ≠ some t → ∀ ts', ts ≠ t :: ts' := by
    intro t ht ts' heq
    exact ht (by rw [heq, List.head?_cons])
  rw [small]
  · refine bind_congr fun y => ?_
    obtain ⟨target, ts⟩ := y
    dsimp only [afterTarget]
    cases takeSign "=" ts with
    | none => rfl
    | some ts =>
      refine bind_congr fun y => ?_
      cases target <;> rfl
  · exact hstart _ hp
  · exact hstart _ hr
  · exact hstart _ hx

/-! ### Nothing starts where a block ends -/

section

variable {ts : List Token} (hts : ts = [] ∨ ts = blockEnd)

include hts

theorem atom_end (n : Nat) : atom n ts = none := by
  rcases hts with rfl | rfl <;> cases n <;> rfl

theorem factor_end (n : Nat) : factor n ts = none := by
  cases n with
  | zero => rfl
  | succ n =>
    have h : factor (n + 1) ts = atom n ts >>= fun y => primary n y.1 y.2 := by
      rcases hts with rfl | rfl <;> rfl
    rw [h, atom_end hts]
    rfl

theorem term_end (n : Nat) : term n ts = none := by
  cases n with
  | zero => rfl
  | succ n =>
    rw [term, factor_end hts]
    rfl

theorem sum_end (n : Nat) : sum n ts = none := by
  cases n with
  | zero => rfl
  | succ n =>
    rw [sum, term_end hts]
    rfl

theorem inversion_end (n : Nat) : inversion n ts = none := by
  cases n with
  | zero => rfl
  | succ n =>
    have h : takeWord "not" ts = none := by
      rcases hts with rfl | rfl <;> rfl
    rw [inversion, h, sum_end hts]
    rfl

theorem conjunction_end (n : Nat) : conjunction n ts = none := by
  cases n with
  | zero => rfl
  | succ n =>
    rw [conjunction, inversion_end hts]
    rfl

theorem disjunction_end (n : Nat) : disjunction n ts = none := by
  cases n with
  | zero => rfl
  | succ n =>
    rw [disjunction, conjunction_end hts]
    rfl

theorem expr_end (n : Nat) : expr n ts = none := by
  cases n with
  | zero => rfl
  | succ n =>
    rw [expr, disjunction_end hts]
    rfl

theorem small_end (n : Nat) : small n ts = none := by
  have h : ∀ w, ts.head? ≠ some (.name w) := by
    intro w
    rcases hts with rfl | rfl <;> simp [blockEnd]
  rw [small_other n (h _) (h _) (h _), expr_end hts]
  rfl

theorem line_end (n : Nat) : line n ts = none := by
  cases n with
  | zero => rfl
  | succ n =>
    rw [line, small_end hts]
    rfl

end

theorem block_nil (n : Nat) : block n [] = none := by
  cases n with
  | zero => rfl
  | succ n =>
    have h : statement n [] = none := by
      cases n with
      | zero => rfl
      | succ n => exact line_end (.inl rfl) n
    rw [block, h]
    · rfl
    · intro ts' heq
      cases heq

/-! ### Simple statements -/

theorem atEnd_agrees (b : List Token) : atEnd (b ++ blockEnd) = atEnd (b ++ passEnd) := by
  rcases b with _ | ⟨t, b⟩
  · rfl
  · cases t with
    | sign s =>
      by_cases h : s = ";"
      · subst h
        rfl
      · have hnone : ∀ ts, atEnd (.sign s :: ts) = false := by
          intro ts
          rw [atEnd] <;> simp [h]
        rw [List.cons_append, List.cons_append, hnone, hnone]
    | _ => rfl

/-- A value that follows a word, if one does. -/
theorem given_agrees (h : n ≤ m) (f : Option Expr → Stmt) :
    Agrees (fun ts => if atEnd ts then some (f none, ts) else expr n ts >>= fun y => some (f (some y.1), y.2))
      (fun ts => if atEnd ts then some (f none, ts) else expr m ts >>= fun y => some (f (some y.1), y.2)) := by
  intro b x r hx
  dsimp only at hx ⊢
  rw [← atEnd_agrees]
  split at hx
  · next he =>
    rw [if_pos he]
    exact Agrees.pure _ b x r hx
  · next he =>
    rw [if_neg he]
    exact Agrees.bind (agreeing h).expr (fun y => .pure (f (some y))) b x r hx

theorem afterTarget_agrees (h : n ≤ m) (target : Expr) : Agrees (afterTarget n target) (afterTarget m target) := by
  refine Agrees.either (sees_sign "=") ?_ (.pure (Stmt.eval target))
  refine Agrees.bind (agreeing h).expr fun e => ?_
  intro b x r hx
  cases he : assignment? target e with
  | none => simp [he] at hx
  | some s =>
    simp only [he, Option.map_some] at hx ⊢
    exact Agrees.pure s b x r hx

theorem small_agrees (h : n ≤ m) : Agrees (small n) (small m) := by
  intro b x r hx
  rcases b with _ | ⟨t, b⟩
  · rw [List.nil_append, small_end (.inr rfl)] at hx
    cases hx
  · by_cases hp : t = .name "pass"
    · subst hp
      exact Agrees.pure Stmt.pass b x r hx
    by_cases hr : t = .name "return"
    · subst hr
      exact given_agrees h .give b x r hx
    by_cases hs : t = .name "raise"
    · subst hs
      exact given_agrees h .raise b x r hx
    rw [small_other n (by simpa) (by simpa) (by simpa)] at hx
    rw [small_other m (by simpa) (by simpa) (by simpa)]
    exact Agrees.bind (agreeing h).expr (afterTarget_agrees h) (t :: b) x r hx

theorem line_agrees (h : n ≤ m) : Agrees (line n) (line m) := by
  induction n generalizing m with
  | zero =>
    intro b x r hx
    cases hx
  | succ n ih =>
    obtain ⟨m, rfl⟩ : ∃ k, m = k + 1 := ⟨m - 1, by omega⟩
    refine Agrees.bind (small_agrees (by omega)) fun s => ?_
    have hmore : Agrees (fun ts => line n ts >>= fun y => some (s :: y.1, y.2))
        (fun ts => line m ts >>= fun y => some (s :: y.1, y.2)) :=
      Agrees.bind (ih (by omega)) fun more => .pure (s :: more)
    intro b x r hx
    rcases b with _ | ⟨t, b⟩
    · cases hx
    · cases t with
      | newline => exact Agrees.pure [s] b x r hx
      | sign sign =>
        by_cases hs : sign = ";"
        · subst hs
          rcases b with _ | ⟨t, b⟩
          · obtain ⟨y, hy, -⟩ := Option.bind_eq_some_iff.mp hx
            have hnone : line n blockEnd = some y := hy
            rw [line_end (.inr rfl)] at hnone
            cases hnone
          · cases t with
            | newline => exact Agrees.pure [s] b x r hx
            | _ => exact hmore (_ :: b) x r hx
        · dsimp only [List.cons_append] at hx
          split at hx <;> simp_all
      | _ => cases hx

/-! ### Blocks -/

/-- Whether one reading gives what another one gives, unless it goes on to the very end of the block. -/
def Follows (p q : List Token → Option (α × List Token)) : Prop :=
  ∀ b x r, p (b ++ blockEnd) = some (x, r) →
    r = [] ∨ ∃ b', r = b' ++ blockEnd ∧ q (b ++ passEnd) = some (x, b' ++ passEnd)

/-- Whether the statements of one block are those of another one, but for one at the end that does nothing. -/
def Lengthens (p q : List Token → Option (List Stmt × List Token)) : Prop :=
  ∀ b ss r, p (b ++ blockEnd) = some (ss, r) →
    (r = [] ∧ q (b ++ passEnd) = some (ss ++ [.pass], [])) ∨
    ∃ b', r = b' ++ blockEnd ∧ q (b ++ passEnd) = some (ss, b' ++ passEnd)

theorem Agrees.follows {p q : List Token → Option (α × List Token)} (h : Agrees p q) : Follows p q :=
  fun b x r hx => .inr (h b x r hx)

theorem Lengthens.follows {p q : List Token → Option (List Stmt × List Token)} (h : Lengthens p q) : Follows p q :=
  fun b ss r hx => (h b ss r hx).imp_left And.left

theorem Follows.of_agrees {p q : List Token → Option (α × List Token)}
    {f g : α × List Token → Option (β × List Token)} (hp : Agrees p q)
    (hf : ∀ x, Follows (fun ts => f (x, ts)) (fun ts => g (x, ts))) :
    Follows (fun ts => p ts >>= f) (fun ts => q ts >>= g) := by
  intro b y r h
  obtain ⟨⟨x, ts⟩, hx, h⟩ := Option.bind_eq_some_iff.mp h
  obtain ⟨b₁, rfl, hx'⟩ := hp b x ts hx
  rcases hf x b₁ y r h with hr | ⟨b₂, rfl, hy'⟩
  · exact .inl hr
  · exact .inr ⟨b₂, rfl, Option.bind_eq_some_iff.mpr ⟨_, hx', hy'⟩⟩

/-- A reading that follows another one and stops there at the end. -/
theorem Follows.bind {p q : List Token → Option (α × List Token)} {f g : α × List Token → Option (β × List Token)}
    (hp : Follows p q) (hend : ∀ x y r, f (x, []) = some (y, r) → r = [])
    (hf : ∀ x, Follows (fun ts => f (x, ts)) (fun ts => g (x, ts))) :
    Follows (fun ts => p ts >>= f) (fun ts => q ts >>= g) := by
  intro b y r h
  obtain ⟨⟨x, ts⟩, hx, h⟩ := Option.bind_eq_some_iff.mp h
  rcases hp b x ts hx with rfl | ⟨b₁, rfl, hx'⟩
  · exact .inl (hend x y r h)
  · rcases hf x b₁ y r h with hr | ⟨b₂, rfl, hy'⟩
    · exact .inl hr
    · exact .inr ⟨b₂, rfl, Option.bind_eq_some_iff.mpr ⟨_, hx', hy'⟩⟩

theorem Follows.after {find : List Token → Option (List Token)} {f g : List Token → Option (α × List Token)}
    (hs : Sees find) (hf : Follows f g) : Follows (fun ts => find ts >>= f) (fun ts => find ts >>= g) := by
  intro b y r h
  obtain ⟨ts, hx, h⟩ := Option.bind_eq_some_iff.mp h
  rcases hs b with ⟨hn, -⟩ | ⟨b₁, hw, hw'⟩
  · rw [hn] at hx
    cases hx
  · rw [hw] at hx
    cases hx
    rcases hf b₁ y r h with hr | ⟨b₂, rfl, hy'⟩
    · exact .inl hr
    · exact .inr ⟨b₂, rfl, Option.bind_eq_some_iff.mpr ⟨_, hw', hy'⟩⟩

theorem Follows.map {p q : List Token → Option (α × List Token)} (h : Follows p q) (f : α → β) :
    Follows (fun ts => p ts >>= fun y => some (f y.1, y.2)) (fun ts => q ts >>= fun y => some (f y.1, y.2)) := by
  refine Follows.bind h ?_ fun x => (Agrees.pure (f x)).follows
  intro x y r hy
  cases hy
  rfl

/-- Whether the readers of statements do so, one of them with more fuel. -/
structure Following (n m : Nat) : Prop where
  block : Lengthens (block n) (block m)
  suite : Follows (suite n) (suite m)
  branches : Follows (branches n) (branches m)
  statement : Follows (statement n) (statement m)

/-- At the end of the block there is the last statement to be read. -/
theorem block_passEnd (n : Nat) : block (n + 3) passEnd = some ([.pass], []) := rfl

theorem block_follows (h : Following n m) (hm : n + 2 ≤ m) : Lengthens (block (n + 1)) (block (m + 1)) := by
  have hother : ∀ n t ts, t ≠ Token.dedent → block (n + 1) (t :: ts) = statement n (t :: ts) >>= fun y =>
      block n y.2 >>= fun z => some (y.1 ++ z.1, z.2) := by
    intro n t ts ht
    rw [block]
    · rfl
    · intro ts' heq
      exact ht (List.cons.inj heq).1
  intro b ss r hs
  rcases b with _ | ⟨t, b⟩
  · cases hs
    obtain ⟨k, rfl⟩ : ∃ k, m = k + 2 := ⟨m - 2, by omega⟩
    exact .inl ⟨rfl, block_passEnd k⟩
  · by_cases ht : t = .dedent
    · subst ht
      exact .inr (Agrees.pure [] b ss r hs)
    · rw [List.cons_append, hother n t _ ht] at hs
      rw [List.cons_append, hother m t _ ht]
      obtain ⟨⟨ss₁, ts⟩, hs₁, hs⟩ := Option.bind_eq_some_iff.mp hs
      obtain ⟨⟨ss₂, ts'⟩, hs₂, hs⟩ := Option.bind_eq_some_iff.mp hs
      cases hs
      rcases h.statement (t :: b) ss₁ ts hs₁ with rfl | ⟨b₁, rfl, hq⟩
      · rw [block_nil] at hs₂
        cases hs₂
      · rw [List.cons_append] at hq
        rw [hq]
        rcases h.block b₁ ss₂ _ hs₂ with ⟨rfl, hq'⟩ | ⟨b₂, rfl, hq'⟩
        · refine .inl ⟨rfl, ?_⟩
          simp [hq']
        · refine .inr ⟨b₂, rfl, ?_⟩
          simp [hq']

theorem suite_follows (h : Following n m) (hm : n ≤ m) : Follows (suite (n + 1)) (suite (m + 1)) := by
  have hline : ∀ n t ts, t ≠ Token.newline → suite (n + 1) (t :: ts) = line n (t :: ts) := by
    intro n t ts ht
    rw [suite] <;> simp [ht]
  have hblock : ∀ n t ts, t ≠ Token.dedent → suite (n + 1) (.newline :: .indent :: t :: ts) = block n (t :: ts) := by
    intro n t ts ht
    rw [suite]
    simp [ht]
  have hflat : ∀ n t ts, t ≠ Token.indent → suite (n + 1) (.newline :: t :: ts) = none := by
    intro n t ts ht
    rw [suite] <;> simp [ht]
  intro b ss r hs
  rcases b with _ | ⟨t, b⟩
  · exact (line_agrees hm).follows [] ss r hs
  by_cases ht : t = .newline
  · subst ht
    rcases b with _ | ⟨t, b⟩
    · cases hs
    by_cases ht : t = .indent
    · subst ht
      rcases b with _ | ⟨t, b⟩
      · cases hs
      by_cases ht : t = .dedent
      · subst ht
        cases hs
      · simp only [List.cons_append, hblock n t _ ht] at hs
        simp only [List.cons_append, hblock m t _ ht]
        exact h.block.follows (t :: b) ss r hs
    · simp only [List.cons_append, hflat n t _ ht] at hs
      cases hs
  · rw [List.cons_append, hline n t _ ht] at hs
    rw [List.cons_append, hline m t _ ht]
    exact (line_agrees hm).follows (t :: b) ss r hs

theorem branches_follows (h : Following n m) (hm : n ≤ m) : Follows (branches (n + 1)) (branches (m + 1)) := by
  refine Follows.of_agrees (agreeing hm).expr fun condition => ?_
  refine Follows.after (sees_sign ":") ?_
  refine Follows.bind h.suite ?_ fun yes => ?_
  · intro yes s r hs
    cases hs
    rfl
  · intro b s r hs
    rcases b with _ | ⟨t, b⟩
    · exact .inr (Agrees.pure (Stmt.when condition yes []) [] s r hs)
    cases t with
    | name w =>
      by_cases he : w = "elif"
      · subst he
        exact (h.branches.map fun no => Stmt.when condition yes [no]) b s r hs
      by_cases hl : w = "else"
      · subst hl
        exact (Follows.after (sees_sign ":") (h.suite.map fun no => Stmt.when condition yes no)) b s r hs
      · dsimp only [List.cons_append] at hs
        split at hs
        · simp_all
        · simp_all
        · cases hs
          refine .inr ⟨.name w :: b, rfl, ?_⟩
          dsimp only [List.cons_append]
          split <;> simp_all
    | _ => exact .inr (Agrees.pure (Stmt.when condition yes []) (_ :: b) s r hs)

theorem statement_line (n : Nat) {ts : List Token} (hi : ∀ ts', ts ≠ .name "if" :: ts')
    (hf : ∀ s ts', ts ≠ .name "for" :: .name s :: .name "in" :: ts') : statement (n + 1) ts = line n ts := by
  rw [statement]
  · exact hi
  · exact hf

theorem statement_follows (h : Following n m) (hm : n ≤ m) : Follows (statement (n + 1)) (statement (m + 1)) := by
  intro b ss r hs
  by_cases hi : ∃ b', b = .name "if" :: b'
  · obtain ⟨b, rfl⟩ := hi
    exact (h.branches.map fun s => [s]) b ss r hs
  by_cases hf : ∃ s b', b = .name "for" :: .name s :: .name "in" :: b'
  · obtain ⟨s, b, rfl⟩ := hf
    have hloop : Follows
        (fun ts => expr n ts >>= fun y => takeSign ":" y.2 >>= fun ts =>
          suite n ts >>= fun z => some ([.each s y.1 z.1], z.2))
        (fun ts => expr m ts >>= fun y => takeSign ":" y.2 >>= fun ts =>
          suite m ts >>= fun z => some ([Stmt.each s y.1 z.1], z.2)) :=
      Follows.of_agrees (agreeing hm).expr fun items =>
        Follows.after (sees_sign ":") (h.suite.map fun body => [Stmt.each s items body])
    by_cases hk : keywords.contains s = true
    · have hnone : statement (n + 1) (.name "for" :: .name s :: .name "in" :: (b ++ blockEnd)) = none := by
        rw [statement, if_pos hk]
      simp only [List.cons_append, hnone, reduceCtorEq] at hs
    · simp only [List.cons_append, statement, if_neg hk] at hs ⊢
      exact hloop b ss r hs
  · have hif : ∀ e ts', e = blockEnd ∨ e = passEnd → b ++ e ≠ .name "if" :: ts' := by
      intro e ts' he heq
      have hb := not_exists.mp hi b.tail
      rcases b with _ | ⟨t, b⟩ <;> rcases he with rfl | rfl <;> simp_all [blockEnd, passEnd]
    have hfor : ∀ e s ts', e = blockEnd ∨ e = passEnd → b ++ e ≠ .name "for" :: .name s :: .name "in" :: ts' := by
      intro e s ts' he heq
      have hb := not_exists.mp (not_exists.mp hf s) (b.drop 3)
      rcases b with _ | ⟨t, _ | ⟨t', _ | ⟨t'', b⟩⟩⟩ <;> rcases he with rfl | rfl <;> simp_all [blockEnd, passEnd]
    rw [statement_line n (fun ts' => hif _ ts' (.inl rfl)) fun s ts' => hfor _ s ts' (.inl rfl)] at hs
    rw [statement_line m (fun ts' => hif _ ts' (.inr rfl)) fun s ts' => hfor _ s ts' (.inr rfl)]
    exact (line_agrees hm).follows b ss r hs

theorem following (h : n + 2 ≤ m) : Following n m := by
  induction n generalizing m with
  | zero => constructor <;> intro b x r hx <;> cases hx
  | succ n ih =>
    obtain ⟨m, rfl⟩ : ∃ k, m = k + 1 := ⟨m - 1, by omega⟩
    have h := ih (m := m) (by omega)
    exact ⟨block_follows h (by omega), suite_follows h (by omega), branches_follows h (by omega),
      statement_follows h (by omega)⟩

/-- A statement that does nothing can end every body. -/
theorem body_passEnd {b : List Token} {ss : List Stmt} (h : body (.indent :: (b ++ blockEnd)) = some ss) :
    body (.indent :: (b ++ passEnd)) = some (ss ++ [.pass]) := by
  rw [body] at h ⊢
  obtain ⟨k, hk⟩ : ∃ k, 16 * (Token.indent :: (b ++ passEnd)).length + 16 =
      16 * (Token.indent :: (b ++ blockEnd)).length + 16 + 2 + k := ⟨30, by simp [blockEnd, passEnd]; omega⟩
  rw [hk]
  split at h
  · next ss' hb =>
    cases h
    rcases (following (Nat.le_add_right _ k)).block b ss [] hb with ⟨-, hq⟩ | ⟨b', hr, -⟩
    · rw [hq]
    · simp [blockEnd] at hr
  · cases h

end

end LiveSvg.Script.Grammar
