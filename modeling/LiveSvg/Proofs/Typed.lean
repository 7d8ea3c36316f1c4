import LiveSvg.Drawing.Basic
import LiveSvg.Proofs.Isolation
import LiveSvg.Script.Set
/-!
Descriptors whose fields are what they are for. Whatever overrides say, every behavior of such a descriptor
gets settings of its kind, and all its scripts become programs.
-/

namespace LiveSvg

open Script (Datum Programs)
open Settings (Table Entry entryOf? isTextOrNull isWorded)

variable {α β : Type}

/-- Whether a tag can be looked for. -/
def Drawing.isSought : Value → Bool
  | .text s => isCarried s
  | .int n => !(Number.Binary64.ofInt n).isInfinite
  | .object _ => false
  | _ => true

theorem Drawing.findByValue_sought (d : Drawing) {tag : Value} (h : isSought tag) : ∃ ids, d.findByValue tag = .ok ids := by
  cases tag with
  | text s => exact ⟨_, if_pos h⟩
  | int n => exact ⟨_, if_neg (by simpa [isSought] using h)⟩
  | object ms => cases h
  | _ => exact ⟨_, rfl⟩

/-- Whether a tag can be looked for and has scripts that are texts. -/
def Tag.isTyped (t : Tag) : Bool :=
  Drawing.isSought t.name && isTextOrNull t.render && (t.actions.getD []).all fun a => isTextOrNull a.2

/-- Whether a value is kept under a name and is of a type with one. -/
def Behavior.isKeyed (b : Behavior) : Bool :=
  match b.kind with
  | .value valueType _ valueId _ _ _ => Descriptor.isName valueType && Descriptor.isName valueId
  | _ => true

/-- Whether tags can be looked for, names are names, what is to be text is, and no behavior is named as
a property is. -/
def Descriptor.isTyped (d : Descriptor) : Bool :=
  isTextOrNull d.render && d.tags.all (·.isTyped) && d.behaviors.all (fun b => isWorded b.kind && b.isKeyed) &&
    d.behaviors.all fun b => d.properties.all fun p => !sameName p.id b.id

structure Descriptor.Typed (d : Descriptor) : Prop where
  render : isTextOrNull d.render
  tags : ∀ t ∈ d.tags, t.isTyped
  worded : ∀ b ∈ d.behaviors, isWorded b.kind
  keyed : ∀ b ∈ d.behaviors, b.isKeyed
  apart : ∀ b ∈ d.behaviors, ∀ p ∈ d.properties, sameName p.id b.id = false

theorem Descriptor.typed_of_isTyped {d : Descriptor} (h : d.isTyped = true) : d.Typed := by
  simp only [isTyped, Bool.and_eq_true, List.all_eq_true, Bool.not_eq_true'] at h
  obtain ⟨⟨⟨hr, ht⟩, hb⟩, ha⟩ := h
  exact ⟨hr, ht, fun b k => (hb b k).1, fun b k => (hb b k).2, ha⟩

/-- Names are such as values can be found under, and no behavior is named as another one. -/
structure Descriptor.Named (d : Descriptor) : Prop extends d.Distinct where
  tags : ∀ t ∈ d.tags, isName t.name
  properties : ∀ p ∈ d.properties, isName p.id

theorem Descriptor.parse_named {text : String} {d : Descriptor} (h : parse text = .ok d) : d.Named := by
  obtain ⟨⟨tags, -⟩, -, properties, -⟩ := parse_apart h
  exact ⟨parse_distinct h, fun t ht => tags t.name (List.mem_map_of_mem ht),
    fun p hp => properties p.id (List.mem_map_of_mem hp)⟩

theorem Document.descriptorIn_named {root : Option (Markup.Element Unit)} {d : Descriptor}
    (h : descriptorIn root = .ok d) : d.Named := by
  have hempty : Descriptor.empty.Named :=
    ⟨⟨fun _ k => (by cases k), .nil⟩, fun _ k => (by cases k), fun _ k => by cases k⟩
  rw [descriptorIn_eq] at h
  split at h
  · cases h
    exact hempty
  · split at h
    · next hp =>
      cases h
      exact Descriptor.parse_named hp
    · split at h
      · cases h
        exact hempty
      · cases h

/-! ### Settings -/

namespace Settings

open Descriptor (sameName isName)

namespace Table

variable {name : β → Value} {f : β → α} {l : List β} {t : Table α} {id : Value}

/-- Setting other names leaves what is under one. -/
theorem get?_foldl_set_of_apart (names : ∀ b ∈ l, isName (name b)) (h : ∀ b ∈ l, sameName (name b) id = false) :
    (l.foldl (fun t b => t.set (name b) (f b)) t).get? id = t.get? id := by
  induction l generalizing t with
  | nil => rfl
  | cons b l ih =>
    have hb : sameName (name b) id = false := h b List.mem_cons_self
    rw [List.foldl_cons, ih (fun c hc => names c (List.mem_cons_of_mem _ hc)) fun c hc =>
      h c (List.mem_cons_of_mem _ hc), get?_set t (names b List.mem_cons_self), hb]
    rfl

/-- What is set under a name, and under that name once, is found there. -/
theorem get?_foldl_set_of_mem (names : ∀ b ∈ l, isName (name b))
    (distinct : l.Pairwise fun a b => sameName (name b) (name a) = false) {b : β} (hb : b ∈ l) :
    (l.foldl (fun t b => t.set (name b) (f b)) t).get? (name b) = some (f b) := by
  induction l generalizing t with
  | nil => cases hb
  | cons c l ih =>
    obtain ⟨hc, hl⟩ := List.pairwise_cons.mp distinct
    have hnames : ∀ a ∈ l, isName (name a) := fun a ha => names a (List.mem_cons_of_mem _ ha)
    rw [List.foldl_cons]
    rcases List.mem_cons.mp hb with rfl | hb
    · have hself : sameName (name b) (name b) = true := Descriptor.sameName_refl (names b List.mem_cons_self)
      rw [get?_foldl_set_of_apart hnames hc, get?_set t (names b List.mem_cons_self), hself]
      rfl
    · exact ih hnames hl hb

end Table

/-- The settings are some that a behavior of the kind can have. -/
def Suits (k : Behavior.Kind) (e : Entry) : Prop := ∃ v, entryOf? k v = some e

/-- What is merged for a behavior is taken if it fits, and its valid default is taken otherwise. -/
theorem resolveBehavior_suits {defaults : Table Value} (merged : Table Value) {b : Behavior} {e : Entry}
    (hd : defaults.get? b.id = some e.toValue) (valid : entryOf? b.kind e.toValue = some e) :
    ∃ e', (resolveBehavior defaults merged b).2 = .ok e' ∧ Suits b.kind e' := by
  unfold resolveBehavior
  cases hm : entryOf? b.kind ((merged.get? b.id).getD .null) with
  | some e' => exact ⟨e', rfl, _, hm⟩
  | none =>
    refine ⟨e, ?_, _, valid⟩
    rw [hd, Option.getD_some, valid]

section resolve

variable {d : Descriptor} (named : d.Named)
include named

/-- What is put under the name of a behavior stays there when properties are put under other names. -/
theorem get?_behavior (f : Behavior → α) (g : Property → α) {b : Behavior} (hb : b ∈ d.behaviors)
    (apart : ∀ p ∈ d.properties, Descriptor.sameName p.id b.id = false) :
    (d.properties.foldl (fun t p => Table.set t p.id (g p))
      (d.behaviors.foldl (fun t b => Table.set t b.id (f b)) ([] : Table α)) : Table α).get? b.id = some (f b) := by
  rw [Table.get?_foldl_set_of_apart named.properties apart]
  exact Table.get?_foldl_set_of_mem named.names named.pairwise hb

variable (typed : d.Typed)
include typed

/-- By itself a descriptor gives every behavior settings that pass their own check. -/
theorem defaults_valid : ∃ t, defaults d = .ok t ∧
    ∀ b ∈ d.behaviors, ∃ e : Entry, t.get? b.id = some e.toValue ∧ entryOf? b.kind e.toValue = some e := by
  have hown : ∀ b : Behavior, ∃ e : Entry, b ∈ d.behaviors →
      defaultEntry b.kind = .ok e.toValue ∧ entryOf? b.kind e.toValue = some e := by
    intro b
    by_cases hb : b ∈ d.behaviors
    · obtain ⟨e, he⟩ := default_valid (typed.worded b hb)
      exact ⟨e, fun _ => he⟩
    · exact ⟨.literal .null, fun k => absurd k hb⟩
  choose own hown using hown
  have htable := defaults_of_own (d := d) fun b hb => (hown b hb).1
  refine ⟨_, htable, fun b hb => ⟨own b, ?_, (hown b hb).2⟩⟩
  exact get?_behavior named (fun b => (own b).toValue) (·.default) hb (typed.apart b hb)

/-- Whatever overrides say, every behavior gets settings of its kind. -/
theorem resolve_suits {overrides : Value} {os : List (String × Value)} (ho : overridesOf overrides = .ok os) :
    ∃ t, (resolve d overrides).2 = .ok t ∧ ∀ b ∈ d.behaviors, ∃ e, t.get? b.id = some e ∧ Suits b.kind e := by
  obtain ⟨table, htable, hvalid⟩ := defaults_valid named typed
  have hentry : ∀ b : Behavior, ∃ e : Entry, b ∈ d.behaviors →
      (resolveBehavior table (mergeTable table os) b).2 = .ok e ∧ Suits b.kind e := by
    intro b
    by_cases hb : b ∈ d.behaviors
    · obtain ⟨own, hown, valid⟩ := hvalid b hb
      obtain ⟨e, he⟩ := resolveBehavior_suits (mergeTable table os) hown valid
      exact ⟨e, fun _ => he⟩
    · exact ⟨.literal .null, fun k => absurd k hb⟩
  choose entry hentry using hentry
  have hall := resolveBehaviors_eq (fun b hb => Prod.ext rfl (hentry b hb).1) []
  refine ⟨_, congrArg Prod.snd (resolve_of_ok htable ho hall), fun b hb => ⟨entry b, ?_, (hentry b hb).2⟩⟩
  exact get?_behavior named entry _ hb (typed.apart b hb)

end resolve

end Settings

/-! ### Programs -/

/-- A computation comes to a result of a kind, whatever has been logged before. -/
def Logging.Gives (x : Logging α) (J : α → Prop) : Prop :=
  ∀ log, ∃ a log', x.run.run log = (.ok a, log') ∧ J a

namespace Logging.Gives

variable {x : Logging α} {J : α → Prop} {K : β → Prop}

theorem pure {a : α} (h : J a) : Gives (pure a : Logging α) J := fun log => ⟨a, log, rfl, h⟩

theorem bind {g : α → Logging β} (hx : x.Gives J) (hg : ∀ a, J a → (g a).Gives K) : (x >>= g).Gives K := by
  intro log
  obtain ⟨a, log', hrun, ha⟩ := hx log
  obtain ⟨b, log'', hrest, hb⟩ := hg a ha log'
  refine ⟨b, log'', ?_, hb⟩
  have hx : x log = (Except.ok a, log') := hrun
  change (ExceptT.bindCont g (x log).1) (x log).2 = _
  rw [hx]
  exact hrest

theorem start (h : x.Gives J) : ∃ a, x.start.2 = .ok a ∧ J a := by
  obtain ⟨a, log, hrun, ha⟩ := h []
  refine ⟨a, ?_, ha⟩
  unfold Logging.start
  rw [hrun]

theorem foldlM {l : List β} {f : α → β → Logging α} {done : List β} {J : List β → α → Prop}
    (h : ∀ b ∈ l, ∀ done a, J done a → (f a b).Gives (J (done ++ [b]))) {a : α} (ha : J done a) :
    (l.foldlM f a).Gives (J (done ++ l)) := by
  induction l generalizing done a with
  | nil =>
    rw [List.append_nil]
    exact pure ha
  | cons b l ih =>
    rw [List.foldlM_cons]
    refine bind (h b List.mem_cons_self done a ha) fun a' ha' => ?_
    have hrest := ih (fun c hc => h c (List.mem_cons_of_mem _ hc)) ha'
    rwa [List.append_assoc] at hrest

end Logging.Gives

namespace Script.Programs

open Logging (Gives)

theorem compile_gives {source : Value} (h : isTextOrNull source) (params : List String) (name : String) :
    (compile source params name).Gives fun _ => True := by
  have hof : ∃ r, Program.ofScript source params name = .ok r := by
    cases source with
    | null => exact ⟨_, rfl⟩
    | text s => exact ⟨_, rfl⟩
    | _ => cases h
  obtain ⟨⟨log, program⟩, hof⟩ := hof
  intro before
  refine ⟨program, before ++ log, ?_, trivial⟩
  unfold compile
  rw [hof]
  rfl

theorem compileActions_gives {sources : List (String × Value)} (h : ∀ s ∈ sources, isTextOrNull s.2) (tag : String) :
    (compileActions tag sources).Gives fun _ => True := by
  induction sources with
  | nil => exact .pure trivial
  | cons s sources ih =>
    have hs := compile_gives (h s List.mem_cons_self) actionParams (tag ++ "_" ++ s.1)
    have hrest := ih fun s hs => h s (List.mem_cons_of_mem _ hs)
    exact hs.bind fun _ _ => hrest.bind fun _ _ => .pure trivial

/-- Every tag that has been gone through has a script to render it. -/
theorem compileTag_gives {ps : Programs} {t : Tag} {done : List Tag} (typed : t.isTyped) (name : Descriptor.isName t.name)
    (hps : ∀ t ∈ done, (ps.renders.get? t.name).isSome) :
    (compileTag ps t).Gives fun ps => ∀ u ∈ done ++ [t], (ps.renders.get? u.name).isSome := by
  simp only [Tag.isTyped, Bool.and_eq_true, List.all_eq_true] at typed
  obtain ⟨⟨-, hrender⟩, hactions⟩ := typed
  have hset : ∀ program, ∀ u ∈ done ++ [t], ((Table.set ps.renders t.name program).get? u.name).isSome := by
    intro program u hu
    rw [Table.get?_set _ name]
    split
    · rfl
    · next hne =>
      rcases List.mem_append.mp hu with hu | hu
      · exact hps u hu
      · rw [List.mem_singleton.mp hu] at hne
        exact absurd (Descriptor.sameName_refl name) hne
  refine (compile_gives hrender _ _).bind fun program _ => ?_
  dsimp only
  split
  · exact .pure (hset program)
  · exact .pure (hset program)
  · next sources _ hsome =>
    rw [hsome] at hactions
    exact (compileActions_gives hactions _).bind fun _ _ => .pure (hset program)

/-- All scripts of a descriptor can be made programs, and every tag gets one that renders it. -/
theorem ofDescriptor_ok {d : Descriptor} (named : d.Named) (typed : d.Typed) :
    ∃ ps, (ofDescriptor d).start.2 = .ok ps ∧ ∀ t ∈ d.tags, (ps.renders.get? t.name).isSome := by
  refine Logging.Gives.start ((compile_gives typed.render _ _).bind fun root _ => ?_)
  have hnone : ∀ t ∈ ([] : List Tag), ((({ root } : Programs).renders).get? t.name).isSome := by
    intro t ht
    cases ht
  exact Gives.foldlM (J := fun done (ps : Programs) => ∀ t ∈ done, (ps.renders.get? t.name).isSome)
    (fun t ht done ps hps => compileTag_gives (typed.tags t ht) (named.tags t ht) hps) hnone

end Script.Programs

end LiveSvg
