import LiveSvg.Proofs.Descriptors
import LiveSvg.Proofs.Grammar
/-!
What becomes of the members of an object that is read as a descriptor and written again. Each class of objects
has its rules: what must be there is kept, what may be left out is kept unless it is null, and what has a
default is kept or replaced by it. Lists and triggers keep their order.
-/

namespace LiveSvg.Descriptor

open Json (bind_eq_ok)
open Value (Members.get?)

/-! ### Classes of objects -/

/-- What a class of objects says of one of its keys. -/
inductive Rule where
  | required
  | optional
  | default (v : Value)

/-- What is written for what was found under a key. -/
def Rule.written : Rule → Option Value → Option Value
  | .optional, some .null => none
  | .default v, none => some v
  | _, found => found

/-- The keys of a class of objects. -/
abbrev Rules := List (String × Rule)

/-- What is written under a key; of a key that the class does not have nothing is changed. -/
def Rules.written (rules : Rules) (key : String) (found : Option Value) : Option Value :=
  match Members.get? rules key with
  | some rule => rule.written found
  | none => found

def actionRules : Rules := [("actionFunction", .optional)]

def tagRules : Rules := [("tag", .required), ("stateRenderFunction", .optional), ("actions", .optional)]

/-- The keys that behaviors of a type have beside those of all behaviors. -/
def kindRules : String → Rules
  | "value" =>
    [("valueType", .default (.text "BOOLEAN")), ("defaultValue", .default .null), ("valueId", .required),
      ("trueLabel", .optional), ("falseLabel", .optional), ("stateLabel", .optional)]
  | "action" =>
    [("valueToDataType", .default (.text "CONSTANT")), ("constantValue", .default .null),
      ("valueToDataFunction", .optional)]
  | _ => []

def behaviorRules (type : String) : Rules :=
  [("id", .required), ("name", .default (.text "")), ("type", .required), ("hint", .optional)] ++ kindRules type

def propertyRules : Rules :=
  [("id", .required), ("name", .default (.text "")), ("type", .required), ("default", .default .null)] ++
    hintNames.map fun key => (key, .optional)

def descriptorRules : Rules :=
  [("title", .default (.text "")), ("stateRenderFunction", .optional), ("tags", .default (.list [])),
    ("behavior", .default (.list [])), ("properties", .default (.list []))]

/-- An object has no other keys than those of its class. -/
def Within (rules : Rules) (ms : Fields) : Prop := ∀ m ∈ ms, m.1 ∈ rules.map (·.1)

instance (rules : Rules) (ms : Fields) : Decidable (Within rules ms) :=
  inferInstanceAs (Decidable (∀ m ∈ ms, m.1 ∈ rules.map (·.1)))

/-- The values listed under a key. -/
def listed (ms : Fields) (key : String) : List Value :=
  match Members.get? ms key with
  | some (.list xs) => xs
  | _ => []

/-- Every object uses only the keys of its class, behaviors are of known types, and triggers map to objects. -/
structure Declared (ms : Fields) : Prop where
  whole : Within descriptorRules ms
  tags : ∀ ns, .object ns ∈ listed ms "tags" → Within tagRules ns
  actions : ∀ ns as, .object ns ∈ listed ms "tags" → Members.get? ns "actions" = some (.object as) →
    ∀ a ∈ as, ∃ os, a.2 = .object os ∧ Within actionRules os
  behaviors : ∀ ns, .object ns ∈ listed ms "behavior" → isKnown ns ∧
    ∀ type, IsOfType ns type → Within (behaviorRules type) ns
  properties : ∀ ns, .object ns ∈ listed ms "properties" → Within propertyRules ns

/-! ### What is kept -/

/-- One object has what the rules of their class make of the other one: under each key the two agree, as it is
said for the key, apart from what is left out and what is put in. -/
def Carried (rules : Rules) (same : String → Value → Value → Prop) (v w : Value) : Prop :=
  ∃ ms ns, v = .object ms ∧ w = .object ns ∧
    ∀ key, Option.Rel (same key) (rules.written key (Members.get? ms key)) (Members.get? ns key)

/-- The very same values, under every key. -/
def verbatim (_ : String) (v w : Value) : Prop := v = w

/-- The same triggers in the same order, each with its action. -/
def SameActions (v w : Value) : Prop :=
  ∃ as bs, v = .object as ∧ w = .object bs ∧
    List.Forall₂ (fun a b => a.1 = b.1 ∧ Carried actionRules verbatim a.2 b.2) as bs

def sameInTag (key : String) : Value → Value → Prop := if key = "actions" then SameActions else Eq

def SameBehavior (v w : Value) : Prop :=
  ∃ type, v.get? "type" = some (.text type) ∧ Carried (behaviorRules type) verbatim v w

/-- Lists that agree item by item. What is empty in place of a list counts as an empty one. -/
def SameList (same : Value → Value → Prop) (v w : Value) : Prop :=
  (∃ xs ys, v = .list xs ∧ w = .list ys ∧ List.Forall₂ same xs ys) ∨
    (v = .object [] ∨ v = .text "") ∧ w = .list []

def sameInDescriptor (key : String) : Value → Value → Prop :=
  if key = "tags" then SameList (Carried tagRules sameInTag)
  else if key = "behavior" then SameList SameBehavior
  else if key = "properties" then SameList (Carried propertyRules verbatim)
  else Eq

/-! ### Objects without others in them -/

/-- The object that rules make of members, in the order of the rules. -/
def Rules.assembled (rules : Rules) (ms : Fields) : Fields :=
  rules.flatMap fun (key, rule) => (rule.written (Members.get? ms key)).toList.map fun v => (key, v)

section

variable {rules : Rules} {ms ns : Fields} {key : String} {v w : Value}

theorem rel_refl {α : Type} {same : α → α → Prop} (h : ∀ a, same a a) (o : Option α) :
    Option.Rel same o o := by
  cases o with
  | none => exact .none
  | some a => exact .some (h a)

theorem get?_written (key key' : String) (found : Option Value) :
    Members.get? (found.toList.map fun v => (key, v)) key' = if key = key' then found else none := by
  cases found with
  | none => simp [Members.get?]
  | some v => rfl

theorem get?_assembled (rules : Rules) (ms : Fields) (key : String) (distinct : (rules.map (·.1)).Nodup) :
    Members.get? (rules.assembled ms) key =
      (Members.get? rules key).bind fun rule => rule.written (Members.get? ms key) := by
  induction rules with
  | nil => rfl
  | cons r rules ih =>
    obtain ⟨k, rule⟩ := r
    obtain ⟨hnew, hrest⟩ := List.nodup_cons.mp distinct
    change Members.get? (_ ++ Rules.assembled rules ms) key = _
    rw [Value.Members.get?_append, get?_written, ih hrest, Members.get?]
    by_cases hk : k = key
    · subst hk
      have hnone : Members.get? rules k = none := Value.Members.get?_eq_none_iff.mpr hnew
      simp [hnone]
    · simp [hk]

/-- Of an object within its class nothing is written but under the keys of the class. -/
theorem Within.written (within : Within rules ms) (key : String) :
    rules.written key (Members.get? ms key) =
      (Members.get? rules key).bind fun rule => rule.written (Members.get? ms key) := by
  rw [Rules.written]
  cases hr : Members.get? rules key with
  | some rule => rfl
  | none =>
    apply Value.Members.get?_eq_none_iff.mpr
    intro hmem
    obtain ⟨m, hm, rfl⟩ := List.mem_map.mp hmem
    exact Value.Members.get?_eq_none_iff.mp hr (within m hm)

/-- An object within its class agrees with what the rules make of it. -/
theorem carried_assembled (distinct : (rules.map (·.1)).Nodup) (within : Within rules ms) :
    Carried rules verbatim (.object ms) (.object (rules.assembled ms)) := by
  refine ⟨ms, _, rfl, rfl, fun key => ?_⟩
  rw [within.written key, get?_assembled rules ms key distinct]
  exact rel_refl (fun _ => rfl) _

/-! ### Entries -/

theorem assembled_required {k : String} (h : Members.get? ms k = some v) :
    Rules.assembled [(k, .required)] ms = [(k, v)] := by
  simp [Rules.assembled, Rule.written, h]

theorem assembled_default (k : String) (ms : Fields) (v : Value) :
    Rules.assembled [(k, .default v)] ms = [(k, optional ms k v)] := by
  cases h : Members.get? ms k <;> simp [Rules.assembled, Rule.written, optional, h]

theorem assembled_optional (k : String) (ms : Fields) :
    Rules.assembled [(k, .optional)] ms = present [(k, optional ms k .null)] := by
  cases h : Members.get? ms k with
  | none => simp [Rules.assembled, Rule.written, optional, present, Value.kind, h]
  | some v => cases v <;> simp [Rules.assembled, Rule.written, optional, present, Value.kind, h]

theorem assembled_cons (r : String × Rule) (rules : Rules) (ms : Fields) :
    Rules.assembled (r :: rules) ms = Rules.assembled [r] ms ++ Rules.assembled rules ms := by
  simp [Rules.assembled]

theorem assembled_append (rules more : Rules) (ms : Fields) :
    Rules.assembled (rules ++ more) ms = rules.assembled ms ++ more.assembled ms := by
  simp [Rules.assembled]

theorem present_append (ms ns : Fields) : present (ms ++ ns) = present ms ++ present ns := by
  simp [present]

theorem assembled_hints (keys : List String) (ms : Fields) :
    Rules.assembled (keys.map fun key => (key, .optional)) ms =
      present (keys.map fun key => (key, optional ms key .null)) := by
  induction keys with
  | nil => rfl
  | cons key keys ih =>
    rw [List.map_cons, assembled_cons, ih, assembled_optional, ← present_append]
    rfl

theorem actionValue_assembled (h : actionOf (.object ms) = .ok v) :
    actionValue v = .object (actionRules.assembled ms) := by
  obtain ⟨ns, hns, h⟩ := bind_eq_ok.mp h
  cases h
  have hms : ns = ms := by
    cases ms with
    | nil => cases hns; rfl
    | cons => cases hns; rfl
  rw [actionValue, actionRules, assembled_optional, hms]

theorem propertyValue_assembled {p : Property} (h : propertyOf (.object ms) = .ok p) :
    propertyValue p = .object (propertyRules.assembled ms) := by
  obtain ⟨_, hms, h⟩ := bind_eq_ok.mp h
  cases hms
  obtain ⟨id, hi, h⟩ := bind_eq_ok.mp h
  obtain ⟨type, ht, h⟩ := bind_eq_ok.mp h
  cases h
  rw [propertyValue, propertyRules, assembled_append, assembled_hints, assembled_cons,
    assembled_required (required_eq_ok.mp hi), assembled_cons, assembled_default, assembled_cons,
    assembled_required (required_eq_ok.mp ht), assembled_default]
  rfl

theorem behaviorValue_assembled {b : Behavior} (h : behaviorOf (.object ms) = .ok (some b)) :
    behaviorValue b = .object ((behaviorRules (kindName b.kind)).assembled ms) := by
  obtain ⟨hid, htype⟩ := behaviorOf_members h
  rw [behaviorRules, assembled_append, assembled_cons, assembled_required hid, assembled_cons, assembled_default,
    assembled_cons, assembled_required htype, assembled_optional]
  obtain ⟨_, hms, h⟩ := bind_eq_ok.mp h
  cases hms
  dsimp only at h
  split at h
  · cases h
  · split at h
    · obtain ⟨id, hi, h⟩ := bind_eq_ok.mp h
      obtain ⟨valueId, hv, h⟩ := bind_eq_ok.mp h
      cases h
      have hlabels : Rules.assembled [("trueLabel", .optional), ("falseLabel", .optional), ("stateLabel", .optional)] ms =
          present [("trueLabel", optional ms "trueLabel" .null), ("falseLabel", optional ms "falseLabel" .null),
            ("stateLabel", optional ms "stateLabel" .null)] :=
        assembled_hints ["trueLabel", "falseLabel", "stateLabel"] ms
      rw [kindName, kindRules, assembled_cons, assembled_default, assembled_cons, assembled_default,
        assembled_cons, assembled_required (required_eq_ok.mp hv), hlabels]
      rfl
    · obtain ⟨id, hi, h⟩ := bind_eq_ok.mp h
      cases h
      rw [kindName, kindRules, assembled_cons, assembled_default, assembled_cons, assembled_default,
        assembled_optional]
      rfl
    · obtain ⟨id, hi, h⟩ := bind_eq_ok.mp h
      cases h
      rfl
    · cases h

theorem distinct_behaviorRules (k : Behavior.Kind) : ((behaviorRules (kindName k)).map (·.1)).Nodup := by
  cases k with
  | value => exact (by decide : ((behaviorRules "value").map (·.1)).Nodup)
  | action => exact (by decide : ((behaviorRules "action").map (·.1)).Nodup)
  | widget => exact (by decide : ((behaviorRules "widgetAction").map (·.1)).Nodup)

/-! ### Objects with others in them -/

theorem forall₂_imp_of_mem {α β : Type} {R S : α → β → Prop} {xs : List α} {ys : List β}
    (h : ∀ x ∈ xs, ∀ y, R x y → S x y) (hxs : List.Forall₂ R xs ys) : List.Forall₂ S xs ys := by
  induction hxs with
  | nil => exact .nil
  | cons hxy _ ih =>
    exact .cons (h _ List.mem_cons_self _ hxy) (ih fun x hx => h x (List.mem_cons_of_mem _ hx))

theorem sameActions_of_actionsOf {as actions : Fields} (h : actionsOf (.object as) = .ok (some actions))
    (declared : ∀ a ∈ as, ∃ os, a.2 = .object os ∧ Within actionRules os) :
    SameActions (.object as) (.object (actions.map fun (k, source) => (k, actionValue source))) := by
  obtain ⟨_, hms, h⟩ := bind_eq_ok.mp h
  cases hms
  obtain ⟨_, hread, h⟩ := bind_eq_ok.mp h
  cases h
  refine ⟨as, _, rfl, rfl, ?_⟩
  rw [List.forall₂_map_right_iff]
  apply forall₂_imp_of_mem _ (mapM_eq_ok.mp hread)
  intro a ha b hab
  obtain ⟨source, hsource, hb⟩ := bind_eq_ok.mp hab
  obtain ⟨os, hos, within⟩ := declared a ha
  cases hb
  dsimp only
  rw [hos] at hsource ⊢
  rw [actionValue_assembled hsource]
  exact ⟨rfl, carried_assembled (by decide) within⟩

theorem carried_tag {t : Tag} (h : tagOf (.object ms) = .ok t) (within : Within tagRules ms)
    (declared : ∀ as, Members.get? ms "actions" = some (.object as) →
      ∀ a ∈ as, ∃ os, a.2 = .object os ∧ Within actionRules os) :
    Carried tagRules sameInTag (.object ms) (tagValue t) := by
  obtain ⟨hname, hrender, hactions⟩ := tagOf_eq_ok.mp h
  let plain : Rules := [("tag", .required), ("stateRenderFunction", .optional)]
  let acting : Fields := t.actions.elim [] fun actions =>
    [("actions", .object (actions.map fun a => (a.1, actionValue a.2)))]
  have hvalue : tagValue t = .object (plain.assembled ms ++ acting) := by
    rw [assembled_cons, assembled_required hname, assembled_optional, ← hrender]
    unfold tagValue
    cases ht : t.actions <;> simp only [acting, ht] <;> rfl
  refine ⟨ms, _, rfl, hvalue, fun key => ?_⟩
  rw [Value.Members.get?_append, get?_assembled plain ms key (by decide)]
  by_cases hk : key = "actions"
  · -- what stands under the triggers is told by how actions are read
    subst hk
    rw [sameInTag, if_pos rfl]
    change Option.Rel SameActions (Rule.optional.written (Members.get? ms "actions")) (Members.get? acting "actions")
    cases hget : Members.get? ms "actions" with
    | none =>
      rw [optional, hget] at hactions
      have hnone : t.actions = none := (Except.ok.inj hactions).symm
      simp only [acting, hnone]
      exact .none
    | some v =>
      rw [optional, hget, Option.getD_some] at hactions
      cases v with
      | null =>
        have hnone : t.actions = none := (Except.ok.inj hactions).symm
        simp only [acting, hnone]
        exact .none
      | object as =>
        cases ht : t.actions with
        | none =>
          rw [ht] at hactions
          obtain ⟨_, -, hactions⟩ := bind_eq_ok.mp hactions
          obtain ⟨_, -, hactions⟩ := bind_eq_ok.mp hactions
          cases hactions
        | some actions =>
          simp only [acting, ht]
          exact .some (sameActions_of_actionsOf (ht ▸ hactions) (declared as hget))
      | _ => cases hactions
  · have hacting : Members.get? acting key = none := by
      simp only [acting]
      cases t.actions <;> simp [Members.get?, Ne.symm hk]
    have hplain : Members.get? tagRules key = Members.get? plain key := by
      change Members.get? (plain ++ [("actions", Rule.optional)]) key = _
      rw [Value.Members.get?_append]
      simp [Members.get?, Ne.symm hk]
    rw [within.written key, hplain, hacting, Option.or_none, sameInTag, if_neg hk]
    exact rel_refl (fun _ => rfl) _

/-! ### The descriptor -/

/-- Where there is no list, what is listed is texts, and nothing only of what is empty. -/
theorem items_cases {xs : List Value} (h : items ms key = .ok xs) :
    (Members.get? ms key = none ∧ xs = []) ∨ Members.get? ms key = some (.list xs) ∨
      ∃ v, Members.get? ms key = some v ∧ (∀ x ∈ xs, ∃ s, x = .text s) ∧
        (xs = [] → v = .object [] ∨ v = .text "") := by
  unfold items at h
  cases hget : Members.get? ms key with
  | none =>
    rw [hget] at h
    cases h
    exact .inl ⟨rfl, rfl⟩
  | some v =>
    rw [hget] at h
    cases v with
    | list => cases h; exact .inr (.inl rfl)
    | object ns =>
      cases h
      refine .inr (.inr ⟨_, rfl, ?_, fun hnil => .inl (congrArg _ (List.map_eq_nil_iff.mp hnil))⟩)
      intro x hx
      obtain ⟨n, -, rfl⟩ := List.mem_map.mp hx
      exact ⟨n.1, rfl⟩
    | text s =>
      cases h
      refine .inr (.inr ⟨_, rfl, ?_, fun hnil => .inr ?_⟩)
      · intro x hx
        obtain ⟨c, -, rfl⟩ := List.mem_map.mp hx
        exact ⟨c.toString, rfl⟩
      · exact congrArg _ (by simpa using hnil)
    | _ => cases h

theorem mem_listed {xs : List Value} (h : items ms key = .ok xs) (hns : .object ns ∈ xs) :
    .object ns ∈ listed ms key := by
  rcases items_cases h with ⟨-, rfl⟩ | hget | ⟨v, -, htexts, -⟩
  · cases hns
  · rwa [listed, hget]
  · obtain ⟨s, hs⟩ := htexts _ hns
    cases hs

/-- Where what is listed agrees with what is written, and texts agree with nothing, a list is written for a
list. -/
theorem sameList_of_items {same : Value → Value → Prop} {xs zs : List Value} (h : items ms key = .ok xs)
    (hxs : List.Forall₂ same xs zs) (htext : ∀ s z, ¬ same (.text s) z) :
    Option.Rel (SameList same) ((Rule.default (.list [])).written (Members.get? ms key)) (some (.list zs)) := by
  rcases items_cases h with ⟨hget, rfl⟩ | hget | ⟨v, hget, htexts, hempty⟩
  · cases hxs
    rw [hget]
    exact .some (.inl ⟨[], [], rfl, rfl, .nil⟩)
  · rw [hget]
    exact .some (.inl ⟨xs, zs, rfl, rfl, hxs⟩)
  · rw [hget]
    cases hxs with
    | nil => exact .some (.inr ⟨hempty rfl, rfl⟩)
    | cons hxz _ =>
      obtain ⟨s, rfl⟩ := htexts _ List.mem_cons_self
      exact absurd hxz (htext s _)

theorem not_carried_text {same : String → Value → Value → Prop} (s : String) (w : Value) :
    ¬ Carried rules same (.text s) w := by
  rintro ⟨_, _, h, -⟩
  cases h

theorem sameTags {xs : List Value} {ts : List Tag} (declared : Declared ms) (h : items ms "tags" = .ok xs)
    (hts : List.Forall₂ (fun x t => tagOf x = .ok t) xs ts) :
    List.Forall₂ (Carried tagRules sameInTag) xs (ts.map tagValue) := by
  rw [List.forall₂_map_right_iff]
  apply forall₂_imp_of_mem _ hts
  intro x hx t ht
  obtain ⟨ns, hns, -⟩ := bind_eq_ok.mp ht
  obtain rfl := members?_ok hns
  have hlisted := mem_listed h hx
  exact carried_tag ht (declared.tags ns hlisted) fun as has => declared.actions ns as hlisted has

theorem sameBehaviors {xs : List Value} {bs : List (Option Behavior)} (declared : Declared ms)
    (h : items ms "behavior" = .ok xs) (hbs : List.Forall₂ (fun x b => behaviorOf x = .ok b) xs bs) :
    List.Forall₂ SameBehavior xs ((bs.filterMap id).map behaviorValue) := by
  have hsome : List.Forall₂ (fun x b => ∃ b', some b = some b' ∧ SameBehavior x (behaviorValue b'))
      (xs.filter fun _ => true) (bs.filterMap id) := by
    apply forall₂_filter (R := fun x b => ∃ b', b = some b' ∧ SameBehavior x (behaviorValue b'))
    · rintro x _ ⟨b, rfl, -⟩
      rfl
    · apply forall₂_imp_of_mem _ hbs
      intro x hx b hb
      obtain ⟨ns, hns, -⟩ := bind_eq_ok.mp hb
      obtain rfl := members?_ok hns
      obtain ⟨hknown, within⟩ := declared.behaviors ns (mem_listed h hx)
      rcases behaviorOf_cases hb with ⟨b, rfl, -, htype⟩ | ⟨-, hunknown⟩
      · refine ⟨b, rfl, kindName b.kind, htype, ?_⟩
        rw [behaviorValue_assembled hb]
        exact carried_assembled (distinct_behaviorRules b.kind) (within _ htype)
      · rw [hunknown] at hknown
        cases hknown
  rw [List.filter_true] at hsome
  rw [List.forall₂_map_right_iff]
  apply hsome.imp
  rintro x _ ⟨b, hb, hsame⟩
  cases hb
  exact hsame

theorem sameProperties {xs : List Value} {ps : List Property} (declared : Declared ms)
    (h : items ms "properties" = .ok xs) (hps : List.Forall₂ (fun x p => propertyOf x = .ok p) xs ps) :
    List.Forall₂ (Carried propertyRules verbatim) xs (ps.map propertyValue) := by
  rw [List.forall₂_map_right_iff]
  apply forall₂_imp_of_mem _ hps
  intro x hx p hp
  obtain ⟨ns, hns, -⟩ := bind_eq_ok.mp hp
  obtain rfl := members?_ok hns
  rw [propertyValue_assembled hp]
  exact carried_assembled (by decide) (declared.properties ns (mem_listed h hx))

theorem carried_descriptor {d : Descriptor} (h : ofValue (.object ms) = .ok d) (declared : Declared ms) :
    Carried descriptorRules sameInDescriptor (.object ms) d.toValue := by
  obtain ⟨bs, hbs, h⟩ := bind_eq_ok.mp h
  obtain ⟨behaviors, hbehaviors, h⟩ := bind_eq_ok.mp h
  obtain ⟨ts, hts, h⟩ := bind_eq_ok.mp h
  obtain ⟨tags, htags, h⟩ := bind_eq_ok.mp h
  obtain ⟨ps, hps, h⟩ := bind_eq_ok.mp h
  obtain ⟨properties, hproperties, h⟩ := bind_eq_ok.mp h
  cases h
  have htags := sameList_of_items hts (sameTags declared hts (mapM_eq_ok.mp htags)) not_carried_text
  have hbehaviors := sameList_of_items hbs (sameBehaviors declared hbs (mapM_eq_ok.mp hbehaviors))
    fun s w hsame => not_carried_text s w hsame.choose_spec.2
  have hproperties := sameList_of_items hps (sameProperties declared hps (mapM_eq_ok.mp hproperties))
    not_carried_text
  let plain : Rules := [("title", .default (.text "")), ("stateRenderFunction", .optional)]
  let lists : Fields := [("tags", .list (tags.map tagValue)),
    ("behavior", .list ((behaviors.filterMap id).map behaviorValue)),
    ("properties", .list (properties.map propertyValue))]
  refine ⟨ms, plain.assembled ms ++ lists, rfl, ?_, fun key => ?_⟩
  · rw [assembled_cons, assembled_default, assembled_optional]
    rfl
  rw [Value.Members.get?_append, get?_assembled plain ms key (by decide)]
  by_cases ht : key = "tags"
  · subst ht
    exact htags
  by_cases hb : key = "behavior"
  · subst hb
    exact hbehaviors
  by_cases hp : key = "properties"
  · subst hp
    exact hproperties
  have hother : key ∉ ["tags", "behavior", "properties"] := by
    simp [ht, hb, hp]
  have hlists : Members.get? lists key = none := Value.Members.get?_eq_none_iff.mpr hother
  have hplain : Members.get? descriptorRules key = Members.get? plain key := by
    change Members.get?
      (plain ++ ["tags", "behavior", "properties"].map fun k => (k, Rule.default (.list []))) key = _
    rw [Value.Members.get?_append]
    exact (congrArg (Option.or _) (Value.Members.get?_eq_none_iff.mpr hother)).trans Option.or_none
  have hsame : sameInDescriptor key = Eq := by
    rw [sameInDescriptor, if_neg ht, if_neg hb, if_neg hp]
  rw [declared.whole.written key, hplain, hlists, Option.or_none, hsame]
  exact rel_refl (fun _ => rfl) _

end

/-- Nothing that is declared is lost. Of the object in a text that is read as a descriptor, and in which every
object uses the keys of its class, every key at every level has the value that it had when the descriptor is
written: lists and triggers in their order, optional members unless they are null, and defaults where there was
nothing. Where an empty object or text stood for a list, an empty list is written. -/
theorem nothing_lost {text : String} {ms : Fields} {d : Descriptor}
    (hread : Json.read text = .ok (.object ms)) (h : parse text = .ok d) (declared : Declared ms) :
    Carried descriptorRules sameInDescriptor (.object ms) d.toValue :=
  carried_descriptor ((parse_of_read hread).mp h).1 declared

/-- A text in which everything is said by values that count as nothing: an empty text, zero, false, no actions
and an action that is null. -/
def faintText : String :=
  "\x7b\"tags\":[\x7b\"tag\":\"\",\"stateRenderFunction\":\"\"," ++
    "\"actions\":\x7b\"x\":\x7b\"actionFunction\":null\x7d\x7d\x7d]," ++
    "\"behavior\":[\x7b\"id\":0,\"type\":\"value\",\"valueId\":\"\",\"defaultValue\":false,\"hint\":null\x7d]," ++
    "\"properties\":[\x7b\"id\":\"\",\"type\":\"\",\"min\":0,\"required\":false\x7d]\x7d"

def faintTag : Fields :=
  [("tag", .text ""), ("stateRenderFunction", .text ""),
    ("actions", .object [("x", .object [("actionFunction", .null)])])]

def faintBehavior : Fields :=
  [("id", .int 0), ("type", .text "value"), ("valueId", .text ""), ("defaultValue", .bool false), ("hint", .null)]

def faintProperty : Fields :=
  [("id", .text ""), ("type", .text ""), ("min", .int 0), ("required", .bool false)]

def faintMembers : Fields :=
  [("tags", .list [.object faintTag]), ("behavior", .list [.object faintBehavior]),
    ("properties", .list [.object faintProperty])]

theorem declared_faint : Declared faintMembers where
  whole := by decide
  tags ns hns := by
    obtain rfl : ns = faintTag := by simpa [listed, faintMembers, Members.get?] using hns
    decide
  actions ns as hns has a ha := by
    obtain rfl : ns = faintTag := by simpa [listed, faintMembers, Members.get?] using hns
    obtain rfl : as = [("x", .object [("actionFunction", .null)])] := by
      simpa [faintTag, Members.get?] using has.symm
    obtain rfl : a = ("x", .object [("actionFunction", .null)]) := by simpa using ha
    exact ⟨_, rfl, by decide⟩
  behaviors ns hns := by
    obtain rfl : ns = faintBehavior := by simpa [listed, faintMembers, Members.get?] using hns
    refine ⟨rfl, fun type htype => ?_⟩
    obtain rfl : type = "value" := by simpa [IsOfType, faintBehavior, Members.get?] using htype.symm
    decide
  properties ns hns := by
    obtain rfl : ns = faintProperty := by simpa [listed, faintMembers, Members.get?] using hns
    decide

set_option maxRecDepth 100000 in
/-- Of such a text nothing is lost either. -/
theorem nothing_lost_faint : ∃ d, parse faintText = .ok d ∧
    Carried descriptorRules sameInDescriptor (.object faintMembers) d.toValue := by
  have hread : Json.read faintText = .ok (.object faintMembers) := rfl
  obtain ⟨d, hd⟩ : ∃ d, parse faintText = .ok d := ⟨_, rfl⟩
  exact ⟨d, hd, nothing_lost hread hd declared_faint⟩

set_option maxRecDepth 100000 in
/-- An object that stands for a list is accepted if it is empty, and a list is written in its place. -/
theorem list_for_object : ∃ ms d ns, Json.read "\x7b\"tags\":\x7b\x7d\x7d" = .ok (.object ms) ∧
    parse "\x7b\"tags\":\x7b\x7d\x7d" = .ok d ∧ Declared ms ∧ d.toValue = .object ns ∧
      Members.get? ms "tags" = some (.object []) ∧ Members.get? ns "tags" = some (.list []) := by
  refine ⟨[("tags", .object [])], ⟨.text "", .null, [], [], []⟩, _, rfl, rfl, ?_, rfl, rfl, rfl⟩
  constructor <;> simp [Within, listed, Members.get?, descriptorRules]

end LiveSvg.Descriptor
