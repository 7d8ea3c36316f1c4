import LiveSvg.Proofs.Refusals
import LiveSvg.Proofs.Tables
/-!
Settings are resolved entry by entry: what overrides say of one name decides that entry and no other
one, whether it fits or not.
-/

namespace LiveSvg

variable {α β : Type}

namespace Settings

open Value (Members.get?)

/-! ### Tables whose names are texts -/

namespace Table

open Descriptor

theorem get?_of_mem {t : Table α} (h : (t.map (·.1)).Nodup) {s : String} {a : α}
    (hm : (.text s, a) ∈ t) : t.get? (.text s) = some a := by
  induction t with
  | nil => cases hm
  | cons e t ih =>
    rw [List.map_cons, List.nodup_cons] at h
    rcases List.mem_cons.mp hm with rfl | hm
    · exact if_pos (sameName_text_self s)
    · refine (if_neg fun k => h.1 ?_).trans (ih h.2 hm)
      rw [sameName_text (sameName_symm rfl k)]
      exact List.mem_map_of_mem hm

theorem set_new {t : Table α} {s : String} (h : Value.text s ∉ t.map (·.1)) (a : α) :
    t.set (.text s) a = t ++ [(.text s, a)] := by
  induction t with
  | nil => rfl
  | cons e t ih =>
    rw [List.map_cons, List.mem_cons, not_or] at h
    rw [set, if_neg fun k => h.1 (sameName_text (sameName_symm rfl k)).symm, ih h.2]
    rfl

/-- Setting new names one after another adds them in their order. -/
theorem foldl_set (name : β → Value) (f : β → α) {l : List β} (t : Table α)
    (texts : ∀ b ∈ l, ∃ s, name b = .text s) (distinct : (t.map (·.1) ++ l.map name).Nodup) :
    l.foldl (fun t b => t.set (name b) (f b)) t = t ++ l.map fun b => (name b, f b) := by
  induction l generalizing t with
  | nil => exact (List.append_nil t).symm
  | cons b l ih =>
    obtain ⟨s, hs⟩ := texts b List.mem_cons_self
    have hnew : Value.text s ∉ t.map (·.1) := fun h =>
      (List.nodup_append.mp distinct).2.2 _ h _ List.mem_cons_self hs.symm
    rw [List.foldl_cons, hs, set_new hnew, ih _ fun b hb => texts b (List.mem_cons_of_mem _ hb)]
    · rw [List.map_cons, hs, List.append_assoc]
      rfl
    · rw [List.map_append, List.append_assoc]
      rwa [List.map_cons, hs] at distinct

end Table

/-! ### Defaults -/

/-- The value is a text, or nothing. -/
def isTextOrNull : Value → Bool
  | .text _ | .null => true
  | _ => false

/-- What an action says of the data that it sends is text, where it says anything. -/
def isWorded : Behavior.Kind → Bool
  | .action dataType _ function => isTextOrNull dataType && isTextOrNull function
  | _ => true

theorem textOr_ok (default : String) {v : Value} (h : isTextOrNull v) : ∃ s, textOr default v = .ok s := by
  cases v with
  | text s =>
    unfold textOr
    split
    · exact ⟨s, rfl⟩
    · exact ⟨default, rfl⟩
  | null => exact ⟨default, rfl⟩
  | _ => cases h

/-- Every default passes its own check. -/
theorem default_valid {k : Behavior.Kind} (h : isWorded k) :
    ∃ e : Entry, defaultEntry k = .ok e.toValue ∧ entryOf? k e.toValue = some e := by
  cases k with
  | value _ default => exact ⟨.acquisition { default }, rfl, rfl⟩
  | action dataType constant function =>
    obtain ⟨hd, hf⟩ := Bool.and_eq_true_iff.mp h
    obtain ⟨type, hd⟩ := textOr_ok ({} : Outbound).type hd
    obtain ⟨function', hf⟩ := textOr_ok ({} : Outbound).function hf
    refine ⟨.dispatch { outbound := { type, constant, function := function' } }, ?_, rfl⟩
    unfold defaultEntry
    dsimp only
    rw [hd, hf]
    rfl
  | widget => exact ⟨.widgetAction {}, rfl, rfl⟩

/-! ### Merging -/

/-- What is said of a name with what an override says of it. -/
def overridden (default : Value) : Option Value → Value
  | some v => default.override v
  | none => default

/-- Merging one name leaves what is under all others. -/
theorem mergeTable_cons (k : String) (v : Value) (os : List (String × Value)) (t : Table Value) :
    mergeTable t ((k, v) :: os) =
      mergeTable (t.set (.text k) (((t.get? (.text k)).map (·.override v)).getD v)) os := by
  unfold mergeTable
  rw [List.foldl_cons]
  dsimp only
  cases t.get? (.text k) <;> rfl

/-- What no override is about stays as it is. -/
theorem mergeTable_of_notMem {os : List (String × Value)} {s : String} (h : s ∉ os.map (·.1))
    (t : Table Value) : (mergeTable t os).get? (.text s) = t.get? (.text s) := by
  induction os generalizing t with
  | nil => rfl
  | cons o os ih =>
    obtain ⟨k, v⟩ := o
    rw [List.map_cons, List.mem_cons, not_or] at h
    rw [mergeTable_cons, ih h.2, Table.get?_set_of_ne t (fun k => h.1 (Value.text.inj k))]

/-- Merging looks at each name by itself. -/
theorem mergeTable_get? {os : List (String × Value)} (distinct : (os.map (·.1)).Nodup) {t : Table Value}
    {s : String} {default : Value} (h : t.get? (.text s) = some default) :
    (mergeTable t os).get? (.text s) = some (overridden default (Members.get? os s)) := by
  induction os generalizing t with
  | nil => exact h
  | cons o os ih =>
    obtain ⟨k, v⟩ := o
    rw [List.map_cons, List.nodup_cons] at distinct
    rw [mergeTable_cons, Members.get?]
    by_cases hk : k = s
    · subst hk
      rw [if_pos rfl, mergeTable_of_notMem distinct.1, Table.get?_set_self, h]
      rfl
    · rw [if_neg hk]
      refine ih distinct.2 ?_
      rwa [Table.get?_set_of_ne t (fun e => hk (Value.text.inj e).symm)]

/-! ### Whole settings -/

theorem overridesOf_object (os : List (String × Value)) : overridesOf (.object os) = .ok os := by
  cases os <;> rfl

/-- What is logged of an override, by whether it fits. -/
def rejection (id : Value) (fitting : Option Entry) : Log :=
  if fitting.isSome then [] else [invalidOverride id]

/-- The entry of a behavior is what is merged, if that fits, and its default otherwise. -/
theorem resolveBehavior_eq {defaults merged : Table Value} {b : Behavior} {e : Entry} {v : Value}
    (hd : defaults.get? b.id = some e.toValue) (valid : entryOf? b.kind e.toValue = some e)
    (hm : merged.get? b.id = some v) : resolveBehavior defaults merged b =
      (rejection b.id (entryOf? b.kind v), .ok ((entryOf? b.kind v).getD e)) := by
  unfold resolveBehavior
  rw [hm, Option.getD_some]
  cases entryOf? b.kind v with
  | some e => rfl
  | none =>
    dsimp only
    rw [hd, Option.getD_some, valid]
    rfl

/-- The entries of behaviors are put into a table one after another. -/
theorem resolveBehaviors_eq {defaults merged : Table Value} {log : Behavior → Log} {entry : Behavior → Entry}
    {l : List Behavior} (h : ∀ b ∈ l, resolveBehavior defaults merged b = (log b, .ok (entry b)))
    (done : Table Entry) : resolveBehaviors defaults merged done l =
      (l.flatMap log, .ok (l.foldl (fun t b => t.set b.id (entry b)) done)) := by
  induction l generalizing done with
  | nil => rfl
  | cons b l ih =>
    have hb := h b List.mem_cons_self
    have hrest := ih (fun b hb => h b (List.mem_cons_of_mem _ hb)) (done.set b.id (entry b))
    rw [resolveBehaviors, hb]
    dsimp only
    rw [hrest, List.flatMap_cons, List.foldl_cons]

/-- Settings by default are put into a table one after another. -/
theorem defaults_of_own {d : Descriptor} {own : Behavior → Value}
    (hown : ∀ b ∈ d.behaviors, defaultEntry b.kind = .ok (own b)) :
    defaults d = .ok (d.properties.foldl (fun t p => t.set p.id p.default)
      (d.behaviors.foldl (fun t b => t.set b.id (own b)) ([] : Table Value))) := by
  have hfold : ∀ (l : List Behavior) (t : Table Value), (∀ b ∈ l, defaultEntry b.kind = .ok (own b)) →
      (l.foldlM (fun t b => do return Table.set t b.id (← defaultEntry b.kind)) t : Except Failure _) =
        .ok (l.foldl (fun t b => t.set b.id (own b)) t) := by
    intro l
    induction l with
    | nil => exact fun _ _ => rfl
    | cons b l ih =>
      intro t h
      rw [List.foldlM_cons, h b List.mem_cons_self]
      exact ih _ fun b hb => h b (List.mem_cons_of_mem _ hb)
  unfold defaults
  rw [hfold d.behaviors [] hown]
  rfl

/-- Settings are those of the behaviors, then those of the properties. -/
theorem resolve_of_ok {d : Descriptor} {overrides : Value} {table : Table Value}
    {os : List (String × Value)} {log : Log} {entries : Table Entry} (hd : defaults d = .ok table)
    (ho : overridesOf overrides = .ok os)
    (hb : resolveBehaviors table (mergeTable table os) [] d.behaviors = (log, .ok entries)) :
    resolve d overrides = (log, .ok (d.properties.foldl (fun t p =>
      t.set p.id (.literal (((mergeTable table os).get? p.id).getD .null))) entries)) := by
  unfold resolve
  rw [hd, ho]
  dsimp only [bind, Except.bind, pure, Except.pure]
  rw [hb]

end Settings

namespace Descriptor

open Settings

/-- Names are texts, no behavior is named as a property is, and what actions say of their data is text. -/
structure Plain (d : Descriptor) : Prop where
  behaviors : ∀ b ∈ d.behaviors, ∃ s, b.id = .text s
  properties : ∀ p ∈ d.properties, ∃ s, p.id = .text s
  apart : ∀ b ∈ d.behaviors, ∀ p ∈ d.properties, b.id ≠ p.id
  worded : ∀ b ∈ d.behaviors, isWorded b.kind

theorem parse_properties {text : String} {d : Descriptor} (h : parse text = .ok d) :
    d.properties.Pairwise fun p p' => sameName p'.id p.id = false :=
  List.pairwise_map.mp (parse_apart h).2.2.2

/-- Texts that are not the same name are not equal. -/
theorem nodup_of_pairwise {α : Type} {name : α → Value} {l : List α} (texts : ∀ a ∈ l, ∃ s, name a = .text s)
    (h : l.Pairwise fun a a' => sameName (name a') (name a) = false) : (l.map name).Nodup := by
  refine List.pairwise_map.mpr (h.imp_of_mem fun {a a'} ha _ hn he => ?_)
  obtain ⟨s, hs⟩ := texts a ha
  rw [← he, hs, sameName_text_self] at hn
  cases hn

theorem Plain.nodup {text : String} {d : Descriptor} (plain : d.Plain) (h : parse text = .ok d) :
    (d.behaviors.map (·.id) ++ d.properties.map (·.id)).Nodup := by
  refine List.nodup_append.mpr ⟨nodup_of_pairwise plain.behaviors (parse_distinct h).pairwise,
    nodup_of_pairwise plain.properties (parse_properties h), fun n hn m hm => ?_⟩
  obtain ⟨b, hb, rfl⟩ := List.mem_map.mp hn
  obtain ⟨p, hp, rfl⟩ := List.mem_map.mp hm
  exact plain.apart b hb p hp

end Descriptor

namespace Settings

open Value (Members.get?)

/-- What overrides say of a name. -/
def said (os : List (String × Value)) : Value → Option Value
  | .text s => Members.get? os s
  | _ => none

theorem mergeTable_said {os : List (String × Value)} (distinct : (os.map (·.1)).Nodup) {t : Table Value}
    {id default : Value} (hid : ∃ s, id = .text s) (h : t.get? id = some default) :
    (mergeTable t os).get? id = some (overridden default (said os id)) := by
  obtain ⟨s, rfl⟩ := hid
  exact mergeTable_get? distinct h

/-- The entry of a behavior under what overrides say of it, given the one by default. -/
def resolved (b : Behavior) (own : Entry) (o : Option Value) : Entry :=
  (entryOf? b.kind (overridden own.toValue o)).getD own

/-- The entries of all behaviors and properties, given those by default. -/
def resolvedTable (d : Descriptor) (own : Behavior → Entry) (os : List (String × Value)) : Table Entry :=
  d.behaviors.map (fun b => (b.id, resolved b (own b) (said os b.id))) ++
    d.properties.map fun p => (p.id, .literal (overridden p.default (said os p.id)))

theorem keys_resolvedTable (d : Descriptor) (own : Behavior → Entry) (os : List (String × Value)) :
    (resolvedTable d own os).map (·.1) = d.behaviors.map (·.id) ++ d.properties.map (·.id) := by
  simp [resolvedTable, Function.comp_def]

theorem defaults_eq {d : Descriptor} (plain : d.Plain)
    (distinct : (d.behaviors.map (·.id) ++ d.properties.map (·.id)).Nodup) {own : Behavior → Entry}
    (hown : ∀ b ∈ d.behaviors, defaultEntry b.kind = .ok (own b).toValue) :
    defaults d = .ok (d.behaviors.map (fun b => (b.id, (own b).toValue)) ++
      d.properties.map fun p => (p.id, p.default)) := by
  have hb : (d.behaviors.map (·.id)).Nodup := (List.nodup_append.mp distinct).1
  rw [defaults_of_own hown, Table.foldl_set _ _ _ plain.behaviors (by simpa using hb)]
  refine congrArg Except.ok (Table.foldl_set _ _ _ plain.properties ?_)
  simpa [Function.comp_def] using distinct

/-- The overrides that do not fit, one after the other. -/
def rejections (d : Descriptor) (own : Behavior → Entry) (os : List (String × Value)) : Log :=
  d.behaviors.flatMap fun b => rejection b.id (entryOf? b.kind (overridden (own b).toValue (said os b.id)))

/-- The settings of a plain descriptor, entry by entry, and what is logged of the overrides. -/
theorem resolve_logged {d : Descriptor} (plain : d.Plain)
    (distinct : (d.behaviors.map (·.id) ++ d.properties.map (·.id)).Nodup) {own : Behavior → Entry}
    (hown : ∀ b ∈ d.behaviors, defaultEntry b.kind = .ok (own b).toValue ∧
      entryOf? b.kind (own b).toValue = some (own b)) {os : List (String × Value)}
    (hos : (os.map (·.1)).Nodup) :
    resolve d (.object os) = (rejections d own os, .ok (resolvedTable d own os)) := by
  let table : Table Value := d.behaviors.map (fun b => (b.id, (own b).toValue)) ++
    d.properties.map fun p => (p.id, p.default)
  have keys : (table.map (·.1)).Nodup := by simpa [table, Function.comp_def] using distinct
  have hmerged : ∀ {id default}, (∃ s, id = .text s) → (id, default) ∈ table →
      table.get? id = some default ∧
        (mergeTable table os).get? id = some (overridden default (said os id)) := by
    rintro id default hid hm
    have hg : table.get? id = some default := by
      obtain ⟨s, rfl⟩ := hid
      exact Table.get?_of_mem keys hm
    exact ⟨hg, mergeTable_said hos hid hg⟩
  have hb : ∀ b ∈ d.behaviors, resolveBehavior table (mergeTable table os) b =
      (rejection b.id (entryOf? b.kind (overridden (own b).toValue (said os b.id))),
        .ok (resolved b (own b) (said os b.id))) := fun b hb => by
    obtain ⟨hd, hm⟩ := hmerged (plain.behaviors b hb)
      (List.mem_append_left _ (List.mem_map_of_mem (f := fun b => (b.id, (own b).toValue)) hb))
    exact resolveBehavior_eq hd (hown b hb).2 hm
  have hp : d.properties.map (fun p =>
      (p.id, Entry.literal (((mergeTable table os).get? p.id).getD .null))) =
        d.properties.map fun p => (p.id, .literal (overridden p.default (said os p.id))) :=
    List.map_congr_left fun p hp => by
      rw [(hmerged (plain.properties p hp)
        (List.mem_append_right _ (List.mem_map_of_mem (f := fun p => (p.id, p.default)) hp))).2]
      rfl
  rw [resolve_of_ok (defaults_eq plain distinct fun b hb => (hown b hb).1) (overridesOf_object os)
      (resolveBehaviors_eq hb []),
    Table.foldl_set _ _ _ plain.behaviors (by simpa using (List.nodup_append.mp distinct).1),
    Table.foldl_set _ _ _ plain.properties (by simpa [Function.comp_def] using distinct)]
  exact congrArg (fun t => (_, Except.ok t)) (congrArg₂ (· ++ ·) rfl hp)

theorem resolve_eq {d : Descriptor} (plain : d.Plain)
    (distinct : (d.behaviors.map (·.id) ++ d.properties.map (·.id)).Nodup) {own : Behavior → Entry}
    (hown : ∀ b ∈ d.behaviors, defaultEntry b.kind = .ok (own b).toValue ∧
      entryOf? b.kind (own b).toValue = some (own b)) {os : List (String × Value)}
    (hos : (os.map (·.1)).Nodup) : (resolve d (.object os)).2 = .ok (resolvedTable d own os) := by
  rw [resolve_logged plain distinct hown hos]

end Settings

/-- A descriptor with a value, an action and a property. -/
def plainText : String :=
  "\x7b\"behavior\":[\x7b\"id\":\"b\",\"type\":\"value\",\"valueId\":\"v\"\x7d," ++
    "\x7b\"id\":\"a\",\"type\":\"action\"\x7d],\"properties\":[\x7b\"id\":\"p\",\"type\":\"number\"\x7d]\x7d"

/-- Overrides of which one fits its behavior and one does not. -/
def mixedOverrides : List (String × Value) :=
  [("b", .object [("defaultValue", .int 5)]), ("a", .int 7), ("p", .int 3)]

open Descriptor (sameName sameName_text) in
set_option maxRecDepth 100000 in
theorem plainText_plain : ∃ d, Descriptor.parse plainText = .ok d ∧ d.Plain := by
  have ht : ((Descriptor.parse plainText).toOption.any fun d =>
      d.behaviors.all (fun b => (sameName (.text "b") b.id || sameName (.text "a") b.id) &&
        Settings.isWorded b.kind) && d.properties.all fun p => sameName (.text "p") p.id) = true := rfl
  cases hd : Descriptor.parse plainText with
  | error e =>
    rw [hd] at ht
    cases ht
  | ok d =>
    rw [hd] at ht
    simp only [Except.toOption, Option.any_some, Bool.and_eq_true, List.all_eq_true, Bool.or_eq_true] at ht
    obtain ⟨hb, hp⟩ := ht
    exact ⟨d, rfl,
      { behaviors := fun b k => (hb b k).1.elim (fun h => ⟨_, sameName_text h⟩)
          fun h => ⟨_, sameName_text h⟩
        properties := fun p k => ⟨_, sameName_text (hp p k)⟩
        apart := fun b k p l => by
          rw [sameName_text (hp p l)]
          rcases (hb b k).1 with h | h <;> rw [sameName_text h] <;> simp
        worded := fun b k => (hb b k).2 }⟩

end LiveSvg
