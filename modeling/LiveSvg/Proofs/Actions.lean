import LiveSvg.Proofs.Descriptors
import LiveSvg.Proofs.Tables
import LiveSvg.Script.Set
/-!
The programs that the actions of tags become: each action is compiled from its own source and under its own
name, and is found under the name of its tag.
-/

namespace LiveSvg

variable {α β : Type}

/-! ### Results of computations that log -/

/-- Whatever a computation comes to is of a kind, no matter what has been logged before. -/
def Logging.Yields (x : Logging α) (J : α → Prop) : Prop :=
  ∀ log a log', x.run.run log = (.ok a, log') → J a

namespace Logging.Yields

variable {x : Logging α} {J : α → Prop} {K : β → Prop}

theorem pure {a : α} (h : J a) : Yields (pure a : Logging α) J := by
  intro log a' log' hrun
  cases hrun
  exact h

theorem throw {f : Failure} : Yields (throw f : Logging α) J := by
  intro log a log' hrun
  cases hrun

theorem bind {g : α → Logging β} (hx : x.Yields J) (hg : ∀ a, J a → (g a).Yields K) : (x >>= g).Yields K := by
  intro log b log'' hrun
  change (ExceptT.bindCont g (x log).1) (x log).2 = _ at hrun
  rcases hr : x log with ⟨r, log'⟩
  rw [hr] at hrun
  cases r with
  | error f => cases hrun
  | ok a => exact hg a (hx log a log' hr) log' b log'' hrun

theorem start (h : x.Yields J) {a : α} (ha : x.start.2 = .ok a) : J a := by
  unfold Logging.start at ha
  rcases hr : x.run.run [] with ⟨r, log⟩
  rw [hr] at ha
  exact h [] a log (hr.trans (congrArg (·, log) ha))

theorem foldlM {l : List β} {f : α → β → Logging α} {J : List β → α → Prop} (done : List β)
    (h : ∀ done b todo a, done ++ b :: todo = l → J done a → (f a b).Yields (J (done ++ [b]))) {todo : List β}
    (hl : done ++ todo = l) {a : α} (ha : J done a) : (todo.foldlM f a).Yields (J l) := by
  induction todo generalizing done a with
  | nil =>
    rw [List.append_nil] at hl
    exact pure (hl ▸ ha)
  | cons b todo ih =>
    rw [List.foldlM_cons]
    refine bind (h done b todo a hl ha) fun a' ha' => ih (done ++ [b]) ?_ ha'
    rw [List.append_assoc]
    exact hl

end Logging.Yields

/-! ### Actions -/

namespace Script.Programs

open Descriptor (sameName isName)
open Settings (Table)

/-- Whether an action is what the source of one becomes. -/
def Compiled (tag : String) (source : String × Value) (action : String × Program) : Prop :=
  action.1 = source.1 ∧
    ∃ log, Program.ofScript source.2 actionParams (tag ++ "_" ++ source.1) = .ok (log, action.2)

theorem Compiled.eq {tag : String} {source : String × Value} {a b : String × Program} (ha : Compiled tag source a)
    (hb : Compiled tag source b) : a = b := by
  obtain ⟨ha, _, hpa⟩ := ha
  obtain ⟨hb, _, hpb⟩ := hb
  have hp := hpa.symm.trans hpb
  exact Prod.ext (ha.trans hb.symm) (Prod.mk.inj (Except.ok.inj hp)).2

/-- What some sources become is what each of them becomes. -/
theorem mem_compiled {tag : String} {sources : List (String × Value)} {actions : List (String × Program)}
    (h : List.Forall₂ (Compiled tag) sources actions) {a : String × Program} :
    a ∈ actions ↔ ∃ s ∈ sources, Compiled tag s a := by
  induction h with
  | nil => simp
  | cons hs _ ih =>
    rw [List.mem_cons, ih, List.exists_mem_cons_iff]
    refine or_congr_left ⟨?_, fun h => h.eq hs⟩
    rintro rfl
    exact hs

theorem compiled_of_mem {tag : String} {sources : List (String × Value)} {actions : List (String × Program)}
    (h : List.Forall₂ (Compiled tag) sources actions) {s : String × Value} (hs : s ∈ sources) :
    ∃ a ∈ actions, Compiled tag s a := by
  induction h with
  | nil => cases hs
  | cons hc _ ih =>
    rw [List.exists_mem_cons_iff]
    rcases List.mem_cons.mp hs with rfl | hs
    · exact .inl hc
    · exact .inr (ih hs)

theorem keys_compiled {tag : String} {sources : List (String × Value)} {actions : List (String × Program)}
    (h : List.Forall₂ (Compiled tag) sources actions) : actions.map (·.1) = sources.map (·.1) := by
  induction h with
  | nil => rfl
  | cons hs _ ih => rw [List.map_cons, List.map_cons, hs.1, ih]

theorem compile_yields (source : Value) (params : List String) (name : String) :
    (compile source params name).Yields fun p => ∃ log, Program.ofScript source params name = .ok (log, p) := by
  intro before p after hrun
  unfold compile at hrun
  cases hp : Program.ofScript source params name with
  | error f => rw [hp] at hrun; cases hrun
  | ok r =>
    rw [hp] at hrun
    cases hrun
    exact ⟨r.1, rfl⟩

theorem compileActions_yields (tag : String) (sources : List (String × Value)) :
    (compileActions tag sources).Yields fun actions => List.Forall₂ (Compiled tag) sources actions := by
  induction sources with
  | nil => exact .pure .nil
  | cons s sources ih =>
    refine .bind (compile_yields _ _ _) fun p hp => .bind ih fun actions h => .pure ?_
    exact .cons ⟨rfl, hp⟩ h

/-- The actions of a tag are found under its name. -/
def HasActions (ps : Programs) (t : Tag) : Prop :=
  ∀ s sources, t.actions = some (s :: sources) →
    ∃ actions, ps.actions.get? t.name = some actions ∧ List.Forall₂ (Compiled t.name.shown) (s :: sources) actions

/-- Compiling a tag adds its own actions and leaves those of tags with other names. -/
theorem compileTag_actions {ps : Programs} {t : Tag} {done : List Tag} (name : isName t.name)
    (hne : ∀ u ∈ done, sameName t.name u.name = false) (hps : ∀ u ∈ done, ps.HasActions u) :
    (compileTag ps t).Yields fun ps => ∀ u ∈ done ++ [t], ps.HasActions u := by
  have hnone : ∀ ps' : Programs, ps'.actions = ps.actions → (∀ s sources, t.actions ≠ some (s :: sources)) →
      ∀ u ∈ done ++ [t], ps'.HasActions u := by
    intro ps' hps' hn u hu s sources hs
    rcases List.mem_append.mp hu with hu | hu
    · rw [hps']
      exact hps u hu s sources hs
    · rw [List.mem_singleton.mp hu] at hs
      exact absurd hs (hn s sources)
  refine .bind (compile_yields _ _ _) fun render _ => ?_
  dsimp only
  split
  · next h => exact .pure (hnone _ rfl fun _ _ k => by rw [h] at k; cases k)
  · next h => exact .pure (hnone _ rfl fun _ _ k => by rw [h] at k; cases k)
  · next sources _ h =>
    refine .bind (compileActions_yields _ _) fun actions ha => .pure fun u hu s rest hs => ?_
    dsimp only
    rcases List.mem_append.mp hu with hu | hu
    · rw [Table.get?_set _ name, hne u hu]
      exact hps u hu s rest hs
    · obtain rfl := List.mem_singleton.mp hu
      rw [h] at hs
      cases hs
      rw [Table.get?_set _ name, if_pos (Descriptor.sameName_refl name)]
      exact ⟨actions, rfl, ha⟩

/-- The programs of a descriptor whose tags have names of their own have the actions of every tag. -/
theorem ofDescriptor_actions {d : Descriptor} (apart : Descriptor.Apart (d.tags.map (·.name))) {ps : Programs}
    (h : (ofDescriptor d).start.2 = .ok ps) : ∀ t ∈ d.tags, ps.HasActions t := by
  obtain ⟨names, pairwise⟩ := apart
  refine Logging.Yields.start (J := fun ps => ∀ t ∈ d.tags, ps.HasActions t) ?_ h
  refine .bind (compile_yields _ _ _) fun root _ => ?_
  refine .foldlM (J := fun done (ps : Programs) => ∀ t ∈ done, ps.HasActions t) [] (fun done t todo ps hl hps => ?_) rfl
    fun t ht => by cases ht
  rw [List.nil_append] at hl
  have ht : t ∈ d.tags := by rw [← hl]; simp
  refine compileTag_actions (names _ (List.mem_map_of_mem ht)) (fun u hu => ?_) hps
  rw [List.pairwise_map, ← hl] at pairwise
  exact (List.pairwise_append.mp pairwise).2.2 u hu t List.mem_cons_self

end Script.Programs

/-! ### Triggers -/

/-- Whether no two actions of a tag have the same trigger. -/
def Tag.Apart (t : Tag) : Prop := ((t.actions.getD []).map (·.1)).Nodup

/-- The actions of a tag in a descriptor that was read have triggers of their own. -/
theorem Descriptor.parse_triggers {text : String} {d : Descriptor} (h : parse text = .ok d) :
    ∀ t ∈ d.tags, t.Apart := by
  intro t ht
  have hroot : Json.Fits (996 + 4) d.toValue := (parse_spec h).1
  have htags : Json.Fits (996 + 3) (.list (d.tags.map tagValue)) := by
    refine hroot.members.2 ("tags", _) ?_
    simp
  have htag : Json.Fits (996 + 2) (tagValue t) := htags.items _ (List.mem_map_of_mem ht)
  unfold Tag.Apart
  cases ha : t.actions with
  | none => exact .nil
  | some actions =>
    have hactions : Json.Fits (996 + 1) (.object (actions.map fun a => (a.1, actionValue a.2))) := by
      refine htag.members.2 ("actions", _) ?_
      rw [ha]
      simp
    have hn := hactions.members.1
    rw [List.map_map] at hn
    exact hn

end LiveSvg
