import LiveSvg.CommandLine.Commands
import LiveSvg.Proofs.Options
import LiveSvg.Proofs.Storing
import Mathlib.Data.List.Basic
/-!
What becomes of the output of a command. Up to its text a command only warns and logs; the text is written last
of all, so that a command that fails has written nothing, and one that has written to a file has written what it
prints otherwise.
-/

namespace LiveSvg.CommandLine

/-! ### Files -/

namespace Files

variable {files files' : Files} {path name text : String}

theorem eq_set_of_write (h : files.write path text = .ok files') :
    files' = files.set (normalize path) (Text.Utf8.encode text) := by
  unfold write at h
  dsimp only at h
  split_ifs at h
  cases h
  rfl

theorem get?_set_of_ne (h : name ≠ path) (bytes : List UInt8) : (files.set path bytes).get? name = files.get? name := by
  induction files with
  | nil => simp [set, get?, h.symm]
  | cons f files ih =>
    obtain ⟨first, old⟩ := f
    rw [set]
    split_ifs with hf
    · subst hf
      simp [get?, h.symm]
    · rw [get?, get?, ih]

end Files

/-! ### What is done on the side -/

/-- The same but for warnings and the log. -/
structure Shell.Aside (s s' : Shell) : Prop where
  files : s'.files = s.files
  out : s'.out = s.out

theorem Shell.Aside.trans {s s' s'' : Shell} (h : s.Aside s') (h' : s'.Aside s'') : s.Aside s'' :=
  ⟨h'.files.trans h.files, h'.out.trans h.out⟩

namespace Command

variable {α β : Type} {s s' : Shell} {path text : String} {a : Arguments}

theorem run_get (f : Shell → Command α) (s : Shell) : (get >>= f : Command α).run.run s = (f s).run.run s := rfl

theorem run_bind {x : Command α} {a : α} (h : x.run.run s = (.ok a, s')) (f : α → Command β) :
    (x >>= f).run.run s = (f a).run.run s' := by
  have hx : x s = (Except.ok a, s') := h
  change (ExceptT.bindCont f (x s).1) (x s).2 = _
  rw [hx]
  rfl

theorem run_bind_error {x : Command α} {e : Stop} (h : x.run.run s = (.error e, s')) (f : α → Command β) :
    (x >>= f).run.run s = (.error e, s') := by
  have hx : x s = (Except.error e, s') := h
  change (ExceptT.bindCont f (x s).1) (x s).2 = _
  rw [hx]
  rfl

/-- A computation that only warns and logs; where it ends the program, it is not with success. -/
def Aside (x : Command α) : Prop := ∀ s, s.Aside (x.run.run s).2 ∧ (x.run.run s).1 ≠ .error (.status 0)

/-- A computation that has, whatever file its output is for, the same text to write at its end, or fails alike. -/
def Lastly (x : Option String → Command Unit) : Prop :=
  ∀ s, ∃ s', s.Aside s' ∧ ((∃ e, e ≠ .status 0 ∧ ∀ output, (x output).run.run s = (.error e, s')) ∨
    ∃ text, ∀ output, (x output).run.run s = (write text output).run.run s')

namespace Aside

theorem pure (a : α) : Aside (Pure.pure a : Command α) := fun _ => ⟨⟨rfl, rfl⟩, nofun⟩

theorem get : Aside (MonadState.get : Command Shell) := fun _ => ⟨⟨rfl, rfl⟩, nofun⟩

theorem throw {e : Stop} (h : e ≠ .status 0) : Aside (MonadExcept.throw e : Command α) := fun _ =>
  ⟨⟨rfl, rfl⟩, fun k => h (Except.error.inj k)⟩

theorem modified {f : Shell → Shell} (h : ∀ s, Shell.Aside s (f s)) : Aside (modify f : Command Unit) := fun s =>
  ⟨h s, nofun⟩

theorem bind {x : Command α} {f : α → Command β} (hx : Aside x) (hf : ∀ a, Aside (f a)) : Aside (x >>= f) := by
  intro s
  have h := hx s
  rcases hr : x.run.run s with ⟨r, s'⟩
  rw [hr] at h
  cases r with
  | ok a =>
    rw [run_bind hr]
    exact ⟨h.1.trans (hf a s').1, (hf a s').2⟩
  | error e =>
    rw [run_bind_error hr]
    exact ⟨h.1, fun k => h.2 (by rw [Except.error.inj k])⟩

theorem forM {f : α → Command Unit} (hf : ∀ a, Aside (f a)) (as : List α) : Aside (as.forM f) := by
  induction as with
  | nil => exact pure ()
  | cons a as ih => exact bind (hf a) fun _ => ih

theorem warn (line : String) : Aside (Command.warn line) := modified fun _ => ⟨rfl, rfl⟩

theorem giveUp (message : String) : Aside (Command.giveUp message : Command α) :=
  bind (warn _) fun _ => throw nofun

theorem logged (r : Log × Except Failure α) : Aside (Command.logged r) := by
  refine bind (modified fun _ => ⟨rfl, rfl⟩) fun _ => ?_
  cases r.2 with
  | ok a => exact pure a
  | error f => exact throw nofun

theorem read (path : String) : Aside (Command.read path) := by
  refine bind get fun s => ?_
  cases s.files.read path with
  | ok text => exact pure text
  | error t => exact throw nofun

theorem readObject (path : Option String) : Aside (Command.readObject path) := by
  unfold Command.readObject
  cases path.filter (!·.isEmpty) with
  | none => exact pure []
  | some path =>
    refine bind get fun s => ?_
    cases s.files.read path with
    | error t => exact giveUp _
    | ok text =>
      dsimp only
      split
      · exact pure _
      · exact giveUp _
      · exact giveUp _
      · exact giveUp _
      · exact throw nofun

end Aside

namespace Lastly

theorem write (text : String) : Lastly (Command.write text) := fun s => ⟨s, ⟨rfl, rfl⟩, .inr ⟨text, fun _ => rfl⟩⟩

theorem throw {e : Stop} (h : e ≠ .status 0) : Lastly fun _ => MonadExcept.throw e := fun s =>
  ⟨s, ⟨rfl, rfl⟩, .inl ⟨e, h, fun _ => rfl⟩⟩

theorem bind {x : Command α} {f : α → Option String → Command Unit} (hx : Aside x) (hf : ∀ a, Lastly (f a)) :
    Lastly fun output => x >>= fun a => f a output := by
  intro s
  have h := hx s
  rcases hr : x.run.run s with ⟨r, s'⟩
  rw [hr] at h
  cases r with
  | ok a =>
    obtain ⟨s'', hs, hend⟩ := hf a s'
    refine ⟨s'', h.1.trans hs, ?_⟩
    simpa only [run_bind hr] using hend
  | error e => exact ⟨s', h.1, .inl ⟨e, fun k => h.2 (by rw [k]), fun output => run_bind_error hr _⟩⟩

theorem giveUp (message : String) : Lastly fun _ => Command.giveUp message :=
  bind (Aside.warn _) fun _ => throw nofun

/-! ### Commands -/

theorem extract (path : String) : Lastly (Command.extract path) :=
  bind (Aside.read path) fun _ => bind (Aside.logged _) fun _ => write _

theorem embed (path descriptorPath : String) : Lastly (Command.embed path descriptorPath) := by
  refine bind (Aside.read descriptorPath) fun source => ?_
  cases Descriptor.parse source with
  | error problem =>
    dsimp only
    split_ifs
    · exact giveUp _
    · exact throw nofun
  | ok d =>
    refine bind Aside.get fun s => ?_
    cases s.files.read path with
    | ok content =>
      dsimp only
      rcases Document.update content d with ⟨log, result⟩
      refine bind (Aside.modified fun _ => ⟨rfl, rfl⟩) fun _ => ?_
      cases result with
      | ok markup => exact write markup
      | error f => exact giveUp _
    | error t => cases t <;> first | exact giveUp _ | exact throw nofun

theorem defaults (path : String) : Lastly (Command.defaults path) :=
  bind (Aside.read path) fun _ => bind (Aside.logged _) fun _ => bind (Aside.logged _) fun _ => write _

theorem renderFile (path : String) (a : Arguments) : Lastly fun output => Command.renderFile path { a with output } := by
  refine bind (Aside.readObject a.values) fun values => bind (Aside.readObject a.settings) fun overrides =>
    bind (Aside.read path) fun content => ?_
  generalize World.ofSetup _ = world
  dsimp only
  generalize (Command.render a.size).run world = ended
  cases ended with
  | ok r w =>
    exact bind (Aside.logged _) fun _ => bind (Aside.forM (fun _ => Aside.warn _) _) fun _ => write _
  | error f w =>
    exact bind (Aside.logged _) fun _ => bind (Aside.forM (fun _ => Aside.warn _) _) fun _ => write _

theorem perform {command : String} (h : arity? command = some a.positional.length) :
    Lastly fun output => Command.perform command { a with output } := by
  obtain ⟨c, positional, o, values, settings, size, showHelp, showVersion, error⟩ := a
  dsimp only at h
  unfold arity? at h
  split at h
  · obtain ⟨path, rfl⟩ := List.length_eq_one_iff.mp (Option.some.inj h).symm
    exact extract path
  · obtain ⟨path, descriptorPath, rfl⟩ := List.length_eq_two.mp (Option.some.inj h).symm
    exact embed path descriptorPath
  · obtain ⟨path, rfl⟩ := List.length_eq_one_iff.mp (Option.some.inj h).symm
    exact defaults path
  · obtain ⟨path, rfl⟩ := List.length_eq_one_iff.mp (Option.some.inj h).symm
    exact renderFile path ⟨c, [path], o, values, settings, size, showHelp, showVersion, error⟩
  · cases h

end Lastly

theorem run_write_print (text : String) {output : Option String} (h : output.filter (!·.isEmpty) = none) (s : Shell) :
    (Command.write text output).run.run s = (.ok (), { s with out := s.out ++ text ++ "\n" }) := by
  unfold Command.write
  rw [h]
  rfl

theorem run_write_file (text : String) {output : Option String} {path : String}
    (h : output.filter (!·.isEmpty) = some path) (s : Shell) :
    (Command.write text output).run.run s =
      match s.files.write path text with
      | .ok files => (.ok (), { s with files })
      | .error t => (.error (.trouble t), s) := by
  unfold Command.write
  rw [h]
  dsimp only
  rw [run_get]
  cases s.files.write path text <;> rfl

/-- Arguments are refused, ask for no command, or are for one with as many files as it takes. -/
theorem carryOut_cases (a : Arguments) (s : Shell) :
    ((carryOut a).run.run s).2.files = s.files ∧ (((carryOut a).run.run s).1 = .error (.status 1) ∨
      ((carryOut a).run.run s).1 = .ok none ∧ a.error = none ∧
        (a.showHelp = true ∨ a.showVersion = true ∨ a.command = none)) ∨
    a.error = none ∧ ∃ command, arity? command = some a.positional.length ∧
      ∀ output, carryOut { a with output } = (perform command { a with output } >>= fun _ => pure (some 0)) := by
  obtain ⟨command, positional, output, values, settings, size, showHelp, showVersion, error⟩ := a
  rcases error with _ | e
  · cases showHelp
    · cases showVersion
      · rcases command with _ | command
        · exact .inl ⟨rfl, .inr ⟨rfl, rfl, .inr (.inr rfl)⟩⟩
        · cases hn : arity? command with
          | none =>
            refine .inl ?_
            simp only [carryOut, hn, Bool.false_eq_true, if_false]
            exact ⟨rfl, .inl rfl⟩
          | some n =>
            by_cases hlen : positional.length = n
            · subst hlen
              refine .inr ⟨rfl, command, hn, fun output => ?_⟩
              simp only [carryOut, hn, Bool.false_eq_true, if_false, ne_eq, not_true_eq_false]
            · refine .inl ?_
              simp only [carryOut, hn, hlen, Bool.false_eq_true, if_false, ne_eq, not_false_eq_true, if_true]
              exact ⟨rfl, .inl rfl⟩
      · exact .inl ⟨rfl, .inr ⟨rfl, rfl, .inr (.inl rfl)⟩⟩
    · exact .inl ⟨rfl, .inr ⟨rfl, rfl, .inl rfl⟩⟩
  · exact .inl ⟨rfl, .inl rfl⟩

end Command

/-! ### The whole program -/

/-- Whether the program ends in a failure or with a status that tells of one. -/
def Outcome.failed (o : Outcome) : Bool := o.failure.isSome || o.status.any (· != 0)

/-- The file that the output is for, if it is for one. -/
def outputFile? (items : List Item) : Option String := (lastValue .output items).filter (!·.isEmpty)

/-- The items without those that say where the output goes. -/
def withoutOutput (items : List Item) : List Item := items.filter fun i => (i.value? .output).isNone

variable {words : List String} {files : Files} {s : Shell} {items : List Item} {a : Arguments}

theorem run_of_carryOut {status : Option Nat} (ha : Arguments.ofList words = a)
    (h : (Command.carryOut a).run.run { files } = (.ok status, s)) : run words files = ⟨status, none, s⟩ := by
  unfold run
  rw [ha, h]

theorem run_of_stop {e : Stop} (ha : Arguments.ofList words = a)
    (h : (Command.carryOut a).run.run { files } = (.error e, s)) (he : e ≠ .status 0) :
    (run words files).failed = true ∧ (run words files).shell.files = s.files := by
  unfold run
  rw [ha, h]
  cases e with
  | status code =>
    have hcode : code ≠ 0 := fun k => he (by rw [k])
    exact ⟨by simp [Outcome.failed, hcode], rfl⟩
  | trouble t => cases t <;> exact ⟨rfl, rfl⟩
  | failed f => exact ⟨rfl, rfl⟩

theorem Item.eq_of_output {i : Item} (h : (i.value? .output).isSome = true) :
    ∃ name named value, i = .option .output name named value := by
  cases i with
  | option o name named value =>
    by_cases ho : o = .output
    · subst ho
      exact ⟨name, named, value, rfl⟩
    · simp [value?, ho] at h
  | _ => cases h

/-- What is not said by an output item is said without them. -/
theorem filterMap_withoutOutput {α : Type} {f : Item → Option α}
    (hf : ∀ name named value, f (.option .output name named value) = none) (items : List Item) :
    (withoutOutput items).filterMap f = items.filterMap f := by
  rw [withoutOutput, List.filterMap_filter]
  refine List.filterMap_congr fun i _ => ?_
  cases h : i.value? .output with
  | none => rfl
  | some value =>
    obtain ⟨name, named, value, rfl⟩ := Item.eq_of_output (i := i) (by rw [h]; rfl)
    exact (hf name named value).symm

theorem lastValue_withoutOutput (o : WordOption) (items : List Item) :
    lastValue o (withoutOutput items) = if o = .output then none else lastValue o items := by
  split_ifs with ho
  · subst ho
    have hnil : (withoutOutput items).filterMap (Item.value? .output) = [] := by
      rw [List.filterMap_eq_nil_iff]
      intro i hi
      exact Option.isNone_iff_eq_none.mp (List.mem_filter.mp hi).2
    rw [lastValue, hnil]
    rfl
  · exact congrArg List.getLast? (filterMap_withoutOutput (fun name named value => if_neg (Ne.symm ho)) items)

theorem raises_withoutOutput (f : Flag) (items : List Item) : raises f (withoutOutput items) = raises f items := by
  rw [raises, withoutOutput, List.any_filter]
  refine List.any_congr rfl fun i => ?_
  cases h : i.value? .output with
  | none => exact Bool.true_and _
  | some value =>
    obtain ⟨name, named, value, rfl⟩ := Item.eq_of_output (i := i) (by rw [h]; rfl)
    rfl

theorem meaning_withoutOutput (items : List Item) :
    meaning (withoutOutput items) = { meaning items with output := none } := by
  have hword : freeWords (withoutOutput items) = freeWords items := filterMap_withoutOutput (fun _ _ _ => rfl) items
  have hsize : lastSize (withoutOutput items) = lastSize items :=
    congrArg List.getLast? (filterMap_withoutOutput (fun _ _ _ => rfl) items)
  simp [meaning, hword, hsize, lastValue_withoutOutput, raises_withoutOutput]

/-- How the program ends, and where its output is then. -/
inductive Ends (words : List String) (files : Files) : Prop where
  | failed (h : (run words files).failed = true) (hf : (run words files).shell.files = files)
  | idle (items : List Item) (hw : spell items = words) (hf : (run words files).shell.files = files)
      (h : raises .help items = true ∨ raises .version items = true ∨ freeWords items = [])
  | printed (items : List Item) (hw : spell items = words) (ho : outputFile? items = none)
      (hf : (run words files).shell.files = files)
  | written (items : List Item) (hw : spell items = words) (path : String) (ho : outputFile? items = some path)
      (text : String) (s : Shell)
      (hplain : run (spell (withoutOutput items)) files = ⟨some 0, none, { s with files, out := text ++ "\n" }⟩)
      (hfile : run words files = ⟨some 0, none,
        { s with files := files.set (Files.normalize path) (Text.Utf8.encode text), out := "" }⟩)

theorem ends_of_stop {e : Stop} (ha : Arguments.ofList words = a)
    (h : (Command.carryOut a).run.run { files } = (.error e, s)) (he : e ≠ .status 0) (hf : s.files = files) :
    Ends words files :=
  have hrun := run_of_stop ha h he
  .failed hrun.1 (hrun.2.trans hf)

/-- A command whose arguments fit ends as it is said where its output goes, once it has come to its text. -/
theorem ends_of_perform {command : String} (hw : spell items = words)
    (hn : Command.arity? command = some (meaning items).positional.length)
    (hp : ∀ output, Command.carryOut { meaning items with output } =
      (Command.perform command { meaning items with output } >>= fun _ => pure (some 0))) : Ends words files := by
  have hargs : Arguments.ofList words = { meaning items with output := lastValue .output items } := ofList_of_spell hw
  have hplain : Arguments.ofList (spell (withoutOutput items)) = { meaning items with output := none } :=
    (ofList_of_spell rfl).trans (meaning_withoutOutput items)
  obtain ⟨⟨f, o, err, log⟩, ⟨hf, ho⟩, hend⟩ := Command.Lastly.perform hn { files }
  dsimp only at hf ho
  subst hf ho
  have hcarry : ∀ {output : Option String} {r : Except Stop Unit} {s : Shell},
      (Command.perform command { meaning items with output }).run.run { files := f } = (r, s) →
      (Command.carryOut { meaning items with output }).run.run { files := f } = (r.map fun _ => some 0, s) := by
    intro output r s h
    rw [hp]
    cases r with
    | ok => exact Command.run_bind h _
    | error e => exact Command.run_bind_error h _
  rcases hend with ⟨e, he, hrun⟩ | ⟨text, hrun⟩
  · exact ends_of_stop hargs (hcarry (hrun _)) he rfl
  · have hprint : ∀ output : Option String, output.filter (!·.isEmpty) = none →
        (Command.carryOut { meaning items with output }).run.run { files := f } =
          (.ok (some 0), ⟨f, text ++ "\n", err, log⟩) := fun output ho => by
      rw [hcarry ((hrun output).trans (Command.run_write_print text ho _)), String.empty_append]
      rfl
    cases hfile : outputFile? items with
    | none =>
      refine .printed items hw hfile ?_
      rw [run_of_carryOut hargs (hprint _ hfile)]
    | some path =>
      have hwrite := (hrun _).trans (Command.run_write_file text hfile _)
      dsimp only at hwrite
      cases hset : f.write path text with
      | ok files =>
        rw [hset] at hwrite
        refine .written items hw path hfile text ⟨f, "", err, log⟩ (run_of_carryOut hplain (hprint none rfl)) ?_
        rw [run_of_carryOut hargs (hcarry hwrite), Files.eq_set_of_write hset]
      | error t =>
        rw [hset] at hwrite
        exact ends_of_stop hargs (hcarry hwrite) nofun rfl

theorem ends (words : List String) (files : Files) : Ends words files := by
  rcases hr : (Command.carryOut (Arguments.ofList words)).run.run { files } with ⟨r, s⟩
  have hcases := Command.carryOut_cases (Arguments.ofList words) { files }
  rw [hr] at hcases
  rcases hcases with ⟨hf, rfl | ⟨rfl, he, h⟩⟩ | ⟨he, command, hn, hp⟩
  · exact ends_of_stop rfl hr nofun hf
  · obtain ⟨items, hw⟩ := exists_spell_of_error he
    rw [ofList_of_spell hw] at h
    refine .idle items hw ?_ (h.imp_right (.imp_right List.head?_eq_none_iff.mp))
    rw [run_of_carryOut rfl hr]
    exact hf
  · obtain ⟨items, hw⟩ := exists_spell_of_error he
    rw [ofList_of_spell hw] at hn hp
    exact ends_of_perform hw hn hp

end LiveSvg.CommandLine
