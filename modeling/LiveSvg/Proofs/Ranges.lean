import LiveSvg.Proofs.Along
import LiveSvg.Proofs.Due
/-!
What a color by ranges means. A range contains the numbers from its lower bound up to its upper one by
their exact sizes. A color passes over the ranges that rule a number out, which among numbers are those
that do not contain it. A NaN is ruled out by no bound and rules nothing out as one.
-/

namespace LiveSvg

open Number (Binary64)
open Script (Datum)
open Value (Numeric)

namespace Value.Numeric

variable {x y : Numeric}

/-- Both are numbers, and the first is not beyond the second. -/
def AtMost (x y : Numeric) : Prop := ∃ a b, x.size? = some a ∧ y.size? = some b ∧ a ≤ b

/-- Both are numbers, and the first is smaller. -/
def Below (x y : Numeric) : Prop := ∃ a b, x.size? = some a ∧ y.size? = some b ∧ a < b

theorem compare?_lt_iff : x.compare? y = some .lt ↔ x.Below y := by
  unfold Below compare? size?
  cases hx : x.place? with
  | none => simp
  | some p =>
    cases hy : y.place? with
    | none => simp
    | some q => simp [Binary64.Place.compare_eq_lt_iff_size (place?_proper hx) (place?_proper hy)]

/-- What is compared and not found smaller is at least as great. -/
theorem compare?_ne_lt_iff : (∃ o, x.compare? y = some o ∧ o ≠ .lt) ↔ y.AtMost x := by
  unfold AtMost compare? size?
  cases hx : x.place? with
  | none => simp
  | some p =>
    cases hy : y.place? with
    | none => simp
    | some q => simp [Binary64.Place.compare_eq_lt_iff_size (place?_proper hx) (place?_proper hy)]

/-- Of two numbers, one is smaller or the other one is at most as great. -/
theorem atMost_iff_not_below (hx : x.size? ≠ none) (hy : y.size? ≠ none) : y.AtMost x ↔ ¬ x.Below y := by
  obtain ⟨a, ha⟩ := Option.ne_none_iff_exists'.mp hx
  obtain ⟨b, hb⟩ := Option.ne_none_iff_exists'.mp hy
  simp [AtMost, Below, ha, hb]

end Value.Numeric

namespace ColorRange

variable {r : ColorRange} {x : Numeric}

/-- A range contains the numbers from its lower bound up to its upper one; a missing bound does not limit. -/
structure Contains (r : ColorRange) (x : Numeric) : Prop where
  low : ∀ low ∈ r.low, (Numeric.float low).AtMost x
  high : ∀ high ∈ r.high, x.Below (.float high)

/-- A bound of a range rules a number out. -/
def RulesOut (r : ColorRange) (x : Numeric) : Prop :=
  (∃ low ∈ r.low, x.Below (.float low)) ∨ ∃ high ∈ r.high, (Numeric.float high).AtMost x

/-- The bounds of a range are numbers where it has them. -/
structure IsNumeric (r : ColorRange) : Prop where
  low : ∀ low ∈ r.low, (Numeric.float low).size? ≠ none
  high : ∀ high ∈ r.high, (Numeric.float high).size? ≠ none

theorem admits_iff : r.admits x = true ↔ ¬ r.RulesOut x := by
  have hlow : (r.low.map fun low => x.compare? (.float low) == some .lt).getD false = true ↔
      ∃ low ∈ r.low, x.Below (.float low) := by
    cases r.low with
    | none => simp
    | some low => simp [Numeric.compare?_lt_iff]
  have hhigh : (r.high.map fun high => ((x.compare? (.float high)).map (· != .lt)).getD false).getD false =
      true ↔ ∃ high ∈ r.high, (Numeric.float high).AtMost x := by
    cases r.high with
    | none => simp
    | some high =>
      simp only [Option.map_some, Option.getD_some, Option.mem_some_iff, exists_eq_left',
        ← Numeric.compare?_ne_lt_iff]
      cases x.compare? (.float high) <;> simp
  rw [admits, Bool.and_eq_true, Bool.not_eq_true', Bool.not_eq_true', ← Bool.not_eq_true, ← Bool.not_eq_true,
    hlow, hhigh, RulesOut, not_or]

/-- Among numbers, a range contains those that it does not rule out. -/
theorem contains_iff (hr : r.IsNumeric) (hx : x.size? ≠ none) : r.Contains x ↔ ¬ r.RulesOut x := by
  have hlow : (∀ low ∈ r.low, (Numeric.float low).AtMost x) ↔ ¬ ∃ low ∈ r.low, x.Below (.float low) := by
    simp only [not_exists, not_and]
    exact forall₂_congr fun low h => Numeric.atMost_iff_not_below hx (hr.low low h)
  have hhigh : (∀ high ∈ r.high, x.Below (.float high)) ↔ ¬ ∃ high ∈ r.high, (Numeric.float high).AtMost x := by
    simp only [not_exists, not_and]
    refine forall₂_congr fun high h => ?_
    rw [Numeric.atMost_iff_not_below hx (hr.high high h), not_not]
  rw [RulesOut, not_or, ← hlow, ← hhigh]
  exact ⟨fun h => ⟨h.low, h.high⟩, fun h => ⟨h.1, h.2⟩⟩

/-- A color is that of the first range of which something holds, or the base color where it holds of none. -/
inductive FirstOf (P : ColorRange → Prop) (base : String) : List ColorRange → String → Prop where
  | none : FirstOf P base [] base
  | here {r : ColorRange} {rest : List ColorRange} : P r → FirstOf P base (r :: rest) r.color
  | later {r : ColorRange} {rest : List ColorRange} {color : String} :
    ¬ P r → FirstOf P base rest color → FirstOf P base (r :: rest) color

variable {P Q : ColorRange → Prop} {base color : String} {ranges : List ColorRange}

theorem FirstOf.eq_base (h : FirstOf P base [] color) : color = base := by
  cases h
  rfl

theorem FirstOf.congr (h : FirstOf P base ranges color) (hPQ : ∀ r ∈ ranges, P r ↔ Q r) :
    FirstOf Q base ranges color := by
  induction h with
  | none => exact .none
  | here hr => exact .here ((hPQ _ List.mem_cons_self).mp hr)
  | later hr _ ih =>
    have hrest := ih fun q hq => hPQ q (List.mem_cons_of_mem _ hq)
    exact .later (mt (hPQ _ List.mem_cons_self).mpr hr) hrest

end ColorRange

namespace ColorSettings

variable {s : ColorSettings} {x : Numeric}

theorem rangeColor_firstOf (s : ColorSettings) (x : Numeric) :
    ColorRange.FirstOf (fun r => ¬ r.RulesOut x) s.color s.ranges (s.rangeColor x) := by
  rw [rangeColor]
  induction s.ranges with
  | nil => exact .none
  | cons r ranges ih =>
    rw [List.find?_cons]
    cases h : r.admits x with
    | true => exact .here (ColorRange.admits_iff.mp h)
    | false => exact .later (fun hr => by simp [ColorRange.admits_iff.mpr hr] at h) ih

/-- What has the color of a value that ranges are asked for: the first range that does not rule it out, which
is the first one to contain it where all are numbers; and the base color for what is no number. -/
structure Colors (s : ColorSettings) (value : Datum) (color : String) : Prop where
  other : Color.number? value = none → color = s.color
  number (x : Numeric) : Color.number? value = some x →
    ColorRange.FirstOf (fun r => ¬ r.RulesOut x) s.color s.ranges color
  contained (x : Numeric) : Color.number? value = some x → x.size? ≠ none → (∀ r ∈ s.ranges, r.IsNumeric) →
    ColorRange.FirstOf (fun r => r.Contains x) s.color s.ranges color

/-- The color that a value gets by ranges. -/
def shade (s : ColorSettings) (value : Datum) : String := ((Color.number? value).map s.rangeColor).getD s.color

theorem shade_colors (s : ColorSettings) (value : Datum) : s.Colors value (s.shade value) := by
  have hnumber : ∀ x, Color.number? value = some x → s.shade value = s.rangeColor x := fun x hx => by
    rw [shade, hx]
    rfl
  constructor
  · intro h
    rw [shade, h]
    rfl
  · intro x hx
    rw [hnumber x hx]
    exact s.rangeColor_firstOf x
  · intro x hx hsize hranges
    rw [hnumber x hx]
    exact (s.rangeColor_firstOf x).congr fun r hr => (ColorRange.contains_iff (hranges r hr) hsize).symm

end ColorSettings

namespace Run

variable {w : World} {n levels : Nat} {c : Color}

theorem colorOf_eq (hw : w.colors[n]? = some c) : colorOf n w = .ok c w := by
  rw [colorOf, get_bind, hw]
  rfl

/-- Following a value with a color by ranges gives the color of the value and keeps it. -/
theorem updateColor_ranges (hw : w.colors[n]? = some c) (hk : c.settings.kind = .range) (value : Datum) :
    ∃ w', updateColor (playWithin (levels + 1)) n value w = .ok (.text (c.settings.shade value)) w' ∧
      w'.colors[n]? = some { c with current := .text (c.settings.shade value) } := by
  have hact : c.colorFor value = .done (.text (c.settings.shade value)) := by
    rw [Color.colorFor, hk]
    rfl
  have hscript : ∃ w₁, script (playWithin (levels + 1)) (.color n) (c.colorFor value) w =
      .ok (.ok (.text (c.settings.shade value))) w₁ ∧ w₁.colors = w.colors := by
    rw [hact]
    exact ⟨_, rfl, rfl⟩
  obtain ⟨w₁, hscript, hw₁⟩ := hscript
  have hkept : (w₁.colors.modify n fun c' => { c' with current := .text (c.settings.shade value) })[n]? =
      some { c with current := .text (c.settings.shade value) } := by
    rw [hw₁, Array.getElem?_modify, if_pos rfl, hw]
    rfl
  refine ⟨{ w₁ with colors := w₁.colors.modify n fun c' => { c' with current := .text (c.settings.shade value) } },
    ?_, hkept⟩
  rw [updateColor, bind_ok (colorOf_eq hw), bind_ok hscript]
  rfl

/-- Any number of values, one after the other: what is kept in the end is the color of the last one. -/
theorem updateColors_ranges (hw : w.colors[n]? = some c) (hk : c.settings.kind = .range) (values : List Datum) :
    ∃ w' current, values.mapM (updateColor (playWithin (levels + 1)) n) w =
        .ok (values.map fun value => .text (c.settings.shade value)) w' ∧
      w'.colors[n]? = some { c with current } ∧
      ∀ last ∈ values.getLast?, current = .text (c.settings.shade last) := by
  induction values generalizing w c with
  | nil => exact ⟨w, c.current, rfl, hw, by simp⟩
  | cons value values ih =>
    obtain ⟨w₁, hfirst, hw₁⟩ := @updateColor_ranges w n levels c hw hk value
    obtain ⟨w₂, current, hrest, hw₂, hlast⟩ := ih hw₁ hk
    have hrun : (value :: values).mapM (updateColor (playWithin (levels + 1)) n) w =
        .ok ((value :: values).map fun value => .text (c.settings.shade value)) w₂ := by
      rw [List.mapM_cons, bind_ok hfirst, bind_ok hrest]
      rfl
    refine ⟨w₂, current, hrun, hw₂, fun last h => ?_⟩
    cases values with
    | nil =>
      obtain rfl := Option.some.inj h
      obtain ⟨⟩ := hrest
      exact congrArg Color.current (Option.some.inj (hw₂.symm.trans hw₁))
    | cons next values => exact hlast last h

/-- Whatever values come one after the other, each gets its color by the ranges, and the color of the last one
is there to be read. -/
theorem ranges_followed (hw : w.colors[n]? = some c) (hk : c.settings.kind = .range) (values : List Datum) :
    ∃ colors w', values.mapM (updateColor (playWithin (levels + 1)) n) w = .ok (colors.map .text) w' ∧
      List.Forall₂ c.settings.Colors values colors ∧
      ∀ last ∈ colors.getLast?, field (.color n) "color" w' = .ok (.text last) w' := by
  obtain ⟨w', current, hrun, hw', hlast⟩ := @updateColors_ranges w n levels c hw hk values
  refine ⟨values.map c.settings.shade, w', ?_, ?_, ?_⟩
  · rw [hrun, List.map_map]
    rfl
  · rw [List.forall₂_map_right_iff, List.forall₂_same]
    exact fun value _ => c.settings.shade_colors value
  · intro last h
    rw [List.getLast?_map] at h
    obtain ⟨value, hvalue, rfl⟩ := Option.map_eq_some_iff.mp h
    rw [← hlast value hvalue]
    change (colorOf n >>= fun c => pure c.current : Run Datum) w' = _
    rw [bind_ok (colorOf_eq hw')]
    rfl

/-- A world with the color of a thermometer: green from ten to fifty degrees, and gray otherwise. -/
def thermometer : World where
  colors := #[{
    settings := { kind := .range, color := "#999", ranges := [⟨some (.ofInt 10), some (.ofInt 50), "green"⟩] }
    program := none
    current := .null }]

theorem ranges_followed_thermometer : ∃ w',
    [Datum.int 49, .int 50].mapM (updateColor play 0) thermometer = .ok [.text "green", .text "#999"] w' ∧
      field (.color 0) "color" w' = .ok (.text "#999") w' := by
  obtain ⟨colors, w', hrun, -, hlast⟩ := @ranges_followed thermometer 0 139 _ rfl rfl [.int 49, .int 50]
  have hresult : (EStateM.Result.ok (colors.map Datum.text) w' : EStateM.Result Failure World (List Datum)) =
      .ok (["green", "#999"].map .text) _ := hrun.symm.trans rfl
  have hcolors : colors = ["green", "#999"] :=
    List.map_injective_iff.mpr (fun _ _ => Datum.text.inj) (EStateM.Result.ok.inj hresult).1
  subst hcolors
  exact ⟨w', hrun, hlast _ rfl⟩

/-- What is no number at all passes the bounds of the first range. -/
theorem nan_shaded : ¬ ∀ (w w' : World) (n : Nat) (c : Color) (value : Datum) (x : Numeric) (color : String),
    w.colors[n]? = some c → c.settings.kind = .range → Color.number? value = some x →
    updateColor play n value w = .ok (.text color) w' →
    ColorRange.FirstOf (fun r => r.Contains x) c.settings.color c.settings.ranges color := by
  intro h
  have hgreen := h thermometer _ 0 _ (.float .nan) (.float .nan) "green" rfl rfl rfl rfl
  cases hgreen with
  | here hr =>
    obtain ⟨-, b, -, hb, -⟩ := hr.low _ rfl
    cases hb
  | later _ hrest => exact absurd hrest.eq_base (by decide)

end Run

end LiveSvg
