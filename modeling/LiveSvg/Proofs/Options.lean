import LiveSvg.CommandLine.Arguments
import Mathlib.Data.List.Induction
import Mathlib.Tactic.Common
/-!
What can stand on a command line: options with their values, flags and free words, one after another.
Arguments are read without an error exactly if they are such items in a row. Otherwise what has been read is
the longest beginning that is one.
-/

namespace LiveSvg.CommandLine

open Number (Binary64)
open Arguments (isOption)

/-! ### Items -/

/-- What the command line calls an option whose value is any word. -/
def WordOption.names : WordOption → List String
  | .output => ["-o", "--output"]
  | .values => ["--values"]
  | .settings => ["--settings"]

inductive Flag where
  | help | version
  deriving DecidableEq

def Flag.names : Flag → List String
  | .help => ["-h", "--help"]
  | .version => ["-v", "--version"]

/-- What stands together on a command line. -/
inductive Item where
  | option (o : WordOption) (name : String) (named : name ∈ o.names) (value : String)
  | size (value : String) (size : Binary64 × Binary64) (accepted : Drawing.size? value = some size)
  | flag (f : Flag) (name : String) (named : name ∈ f.names)
  | free (word : String) (plain : isOption word = false)

namespace Item

def words : Item → List String
  | option _ name _ value => [name, value]
  | size value _ _ => ["--size", value]
  | flag _ name _ => [name]
  | free word _ => [word]

def word? : Item → Option String
  | free word _ => some word
  | _ => none

def value? (o : WordOption) : Item → Option String
  | option o' _ _ value => if o' = o then some value else none
  | _ => none

def size? : Item → Option (Binary64 × Binary64)
  | size _ found _ => some found
  | _ => none

def isFlag (f : Flag) : Item → Bool
  | flag f' _ _ => f' = f
  | _ => false

end Item

/-- The words of a row of items. -/
def spell (items : List Item) : List String := items.flatMap Item.words

def freeWords (items : List Item) : List String := items.filterMap Item.word?

/-- The value that counts for an option: the last one given. -/
def lastValue (o : WordOption) (items : List Item) : Option String := (items.filterMap (Item.value? o)).getLast?

def lastSize (items : List Item) : Option (Binary64 × Binary64) := (items.filterMap Item.size?).getLast?

def raises (f : Flag) (items : List Item) : Bool := items.any (Item.isFlag f)

/-- What a row of items says, read as a whole. -/
def meaning (items : List Item) : Arguments where
  command := (freeWords items).head?
  positional := (freeWords items).tail
  output := lastValue .output items
  values := lastValue .values items
  settings := lastValue .settings items
  size := lastSize items
  showHelp := raises .help items
  showVersion := raises .version items

/-- Words that begin with no item. -/
def Stuck (words : List String) : Prop := words ≠ [] ∧ ∀ i : Item, ¬i.words <+: words

/-- What is said of words that begin with no item. -/
inductive Complaint : List String → String → Prop where
  | valueless {name : String} (h : (∃ o : WordOption, name ∈ o.names) ∨ name = "--size") :
      Complaint [name] (name ++ " requires a value")
  | unsized {value : String} {rest : List String} (h : Drawing.size? value = none) :
      Complaint ("--size" :: value :: rest) ("Invalid size: " ++ value ++ " (expected WxH)")
  | unknown {name : String} {rest : List String} (h : isOption name = true) (ho : ∀ o : WordOption, name ∉ o.names)
      (hs : name ≠ "--size") (hf : ∀ f : Flag, name ∉ f.names) :
      Complaint (name :: rest) ("Unknown option: " ++ name)

variable {words rest more : List String} {items longer : List Item} {a : Arguments}

theorem spell_cons_append (i : Item) (items : List Item) (rest : List String) :
    spell (i :: items) ++ rest = i.words ++ (spell items ++ rest) := by
  rw [spell, List.flatMap_cons, List.append_assoc, spell]

/-! ### Names -/

theorem wordOption?_eq_some {o : WordOption} {name : String} : wordOption? name = some o ↔ name ∈ o.names := by
  constructor
  · intro h
    unfold wordOption? at h
    split_ifs at h with ho hv hs
    · cases h
      simpa [WordOption.names] using ho
    · cases h
      simpa [WordOption.names] using hv
    · cases h
      simpa [WordOption.names] using hs
  · intro h
    cases o <;> simp only [WordOption.names, List.mem_cons, List.not_mem_nil, or_false] at h
    · rcases h with rfl | rfl <;> rfl
    · subst h
      rfl
    · subst h
      rfl

theorem isOption_of_mem_names {o : WordOption} {name : String} (h : name ∈ o.names) : isOption name = true := by
  cases o <;> revert h name <;> decide

theorem Flag.isOption_of_mem_names {f : Flag} {name : String} (h : name ∈ f.names) : isOption name = true := by
  cases f <;> revert h name <;> decide

theorem ne_of_isOption {word : String} (h : isOption word = false) (name : String) (hn : isOption name = true) :
    word ≠ name := by
  rintro rfl
  rw [h] at hn
  cases hn

theorem wordOption?_eq_none {word : String} (h : isOption word = false) : wordOption? word = none := by
  cases hw : wordOption? word with
  | none => rfl
  | some o =>
    rw [isOption_of_mem_names (wordOption?_eq_some.mp hw)] at h
    cases h

/-! ### Reading items -/

namespace Arguments

/-- The arguments once an item has been read. -/
def take (a : Arguments) : Item → Arguments
  | .option o _ _ value => a.set o value
  | .size _ found _ => { a with size := some found }
  | .flag .help _ _ => { a with showHelp := true }
  | .flag .version _ _ => { a with showVersion := true }
  | .free word _ => a.addWord word

theorem read_option {o : WordOption} {name : String} (h : name ∈ o.names) (value : String) :
    a.read (name :: value :: rest) = (a.set o value).read rest := by
  rw [read, wordOption?_eq_some.mpr h]

theorem read_size {value : String} {found : Binary64 × Binary64} (h : Drawing.size? value = some found) :
    a.read ("--size" :: value :: rest) = { a with size := some found }.read rest := by
  have hw : wordOption? "--size" = none := rfl
  rw [read, hw]
  simp [h]

theorem read_flag {f : Flag} {name : String} (h : name ∈ f.names) :
    a.read (name :: rest) = (a.take (.flag f name h)).read rest := by
  rw [read.eq_def]
  cases f <;> simp only [Flag.names, List.mem_cons, List.not_mem_nil, or_false] at h <;>
    rcases h with rfl | rfl <;> rfl

theorem read_word {word : String} (h : isOption word = false) : a.read (word :: rest) = (a.addWord word).read rest := by
  have hne := ne_of_isOption h
  rw [read.eq_def]
  simp [wordOption?_eq_none h, hne "--size" rfl, hne "--help" rfl, hne "-h" rfl, hne "--version" rfl,
    hne "-v" rfl, h]

theorem read_item (a : Arguments) (i : Item) (rest : List String) : a.read (i.words ++ rest) = (a.take i).read rest := by
  cases i with
  | option o name named value => exact read_option named value
  | size value found accepted => exact read_size accepted
  | flag f name named => exact read_flag named
  | free word plain => exact read_word plain

theorem read_spell (a : Arguments) (items : List Item) (rest : List String) :
    a.read (spell items ++ rest) = (items.foldl take a).read rest := by
  induction items generalizing a with
  | nil => rfl
  | cons i items ih => rw [spell_cons_append, read_item, ih, List.foldl_cons]

/-- Where no item begins there is an error, and nothing else is taken. -/
theorem read_stuck (h : Stuck words) :
    ∃ message, Complaint words message ∧ ∀ a : Arguments, a.read words = { a with error := some message } := by
  obtain ⟨hne, hno⟩ := h
  obtain ⟨name, rest, rfl⟩ := List.exists_cons_of_ne_nil hne
  have hfree : isOption name = true := by
    by_contra k
    exact hno (.free name (Bool.not_eq_true _ ▸ k)) ⟨rest, rfl⟩
  have hflag : ∀ f : Flag, name ∉ f.names := fun f k => hno (.flag f name k) ⟨rest, rfl⟩
  cases hw : wordOption? name with
  | some o =>
    have ho := wordOption?_eq_some.mp hw
    cases rest with
    | nil => exact ⟨_, .valueless (.inl ⟨o, ho⟩), fun a => by rw [read, hw]; rfl⟩
    | cons value rest => exact absurd ⟨rest, rfl⟩ (hno (.option o name ho value))
  | none =>
    have ho : ∀ o : WordOption, name ∉ o.names := fun o k => by
      rw [wordOption?_eq_some.mpr k] at hw
      cases hw
    by_cases hs : name = "--size"
    · subst hs
      rcases rest with _ | ⟨value, rest⟩
      · exact ⟨_, .valueless (.inr rfl), fun a => by rw [read, hw]; rfl⟩
      cases hv : Drawing.size? value with
      | some found => exact absurd ⟨rest, rfl⟩ (hno (.size value found hv))
      | none => exact ⟨_, .unsized hv, fun a => by rw [read, hw]; simp [hv]⟩
    · refine ⟨_, .unknown hfree ho hs hflag, fun a => ?_⟩
      have hhelp : ¬(name = "--help" ∨ name = "-h") := fun k => hflag .help (by simpa [Flag.names, or_comm] using k)
      have hversion : ¬(name = "--version" ∨ name = "-v") := fun k =>
        hflag .version (by simpa [Flag.names, or_comm] using k)
      rw [read.eq_def]
      simp only [hw, if_neg hs, if_neg hhelp, if_neg hversion, if_pos hfree]

end Arguments

/-! ### What items say together -/

theorem freeWords_concat (items : List Item) (i : Item) :
    freeWords (items ++ [i]) = freeWords items ++ i.word?.toList := by
  cases h : i.word? <;> simp [freeWords, h]

theorem lastValue_concat (o : WordOption) (items : List Item) (i : Item) :
    lastValue o (items ++ [i]) = (i.value? o).or (lastValue o items) := by
  cases h : i.value? o <;> simp [lastValue, h]

theorem lastSize_concat (items : List Item) (i : Item) : lastSize (items ++ [i]) = i.size?.or (lastSize items) := by
  cases h : i.size? <;> simp [lastSize, h]

theorem raises_concat (f : Flag) (items : List Item) (i : Item) :
    raises f (items ++ [i]) = (raises f items || i.isFlag f) := by
  simp [raises]

theorem meaning_concat (items : List Item) (i : Item) : meaning (items ++ [i]) = (meaning items).take i := by
  unfold meaning
  simp only [freeWords_concat, lastValue_concat, lastSize_concat, raises_concat]
  cases i with
  | option o name named value =>
    cases o <;> simp [Item.word?, Item.value?, Item.size?, Item.isFlag, Arguments.take, Arguments.set]
  | size value found accepted => simp [Item.word?, Item.value?, Item.size?, Item.isFlag, Arguments.take]
  | flag f name named => cases f <;> simp [Item.word?, Item.value?, Item.size?, Item.isFlag, Arguments.take]
  | free word plain =>
    cases freeWords items <;>
      simp [Item.word?, Item.value?, Item.size?, Item.isFlag, Arguments.take, Arguments.addWord]

theorem foldl_take (items : List Item) : items.foldl Arguments.take {} = meaning items := by
  induction items using List.reverseRecOn with
  | nil => rfl
  | append_singleton items i ih =>
    rw [List.foldl_append, ih, meaning_concat]
    rfl

theorem ofList_spell (items : List Item) (rest : List String) :
    Arguments.ofList (spell items ++ rest) = (meaning items).read rest := by
  rw [Arguments.ofList, Arguments.read_spell, foldl_take]

/-! ### Taking words apart -/

/-- Which item begins with a word, if one does. -/
inductive Start where
  | option (o : WordOption)
  | size
  | flag (f : Flag)
  | free

def Item.start : Item → Start
  | option o _ _ _ => .option o
  | size _ _ _ => .size
  | flag f _ _ => .flag f
  | free _ _ => .free

def Start.ofWord (word : String) : Start :=
  match wordOption? word with
  | some o => .option o
  | none =>
    if word = "--size" then .size
    else if word ∈ Flag.help.names then .flag .help
    else if word ∈ Flag.version.names then .flag .version
    else .free

theorem Item.start_eq (i : Item) : ∃ word more, i.words = word :: more ∧ Start.ofWord word = i.start := by
  cases i with
  | option o name named value =>
    refine ⟨name, [value], rfl, ?_⟩
    rw [Start.ofWord, wordOption?_eq_some.mpr named]
    rfl
  | size value found accepted => exact ⟨"--size", [value], rfl, rfl⟩
  | flag f name named =>
    refine ⟨name, [], rfl, ?_⟩
    cases f <;> simp only [Flag.names, List.mem_cons, List.not_mem_nil, or_false] at named <;>
      rcases named with rfl | rfl <;> rfl
  | free word plain =>
    refine ⟨word, [], rfl, ?_⟩
    have hw : wordOption? word = none := wordOption?_eq_none plain
    have hf : ∀ f : Flag, word ∉ f.names := fun f h => by
      rw [Flag.isOption_of_mem_names h] at plain
      cases plain
    rw [Start.ofWord, hw]
    simp [hf, ne_of_isOption plain "--size" rfl, start]

/-- Words begin with one item at most. -/
theorem Item.eq_of_words {i j : Item} (h : i.words ++ rest = j.words ++ more) : i = j ∧ rest = more := by
  have hstart : i.start = j.start := by
    obtain ⟨word, ws, hi, hs⟩ := i.start_eq
    obtain ⟨word', ws', hj, hs'⟩ := j.start_eq
    rw [hi, hj] at h
    rw [← hs, ← hs', (List.cons.inj h).1]
  cases i <;> cases j <;> simp only [start, reduceCtorEq, Start.option.injEq, Start.flag.injEq] at hstart <;>
    simp only [words, List.cons_append, List.nil_append, List.cons.injEq] at h
  case option.option o name named value o' name' named' value' =>
    obtain ⟨rfl, rfl, rfl⟩ := h
    subst hstart
    exact ⟨rfl, rfl⟩
  case size.size value found accepted value' found' accepted' =>
    obtain ⟨-, rfl, rfl⟩ := h
    rw [accepted] at accepted'
    cases accepted'
    exact ⟨rfl, rfl⟩
  case flag.flag f name named f' name' named' =>
    obtain ⟨rfl, rfl⟩ := h
    subst hstart
    exact ⟨rfl, rfl⟩
  case free.free word plain word' plain' =>
    obtain ⟨rfl, rfl⟩ := h
    exact ⟨rfl, rfl⟩

/-- A row of items that words begin with is a beginning of every one that goes on until none begins. -/
theorem prefix_of_spell (hend : rest = [] ∨ Stuck rest) (h : spell longer ++ more = spell items ++ rest) :
    longer <+: items := by
  induction longer generalizing items with
  | nil => exact List.nil_prefix
  | cons i longer ih =>
    rw [spell_cons_append] at h
    cases items with
    | nil =>
      have hrest : i.words <+: rest := ⟨_, h⟩
      rcases hend with rfl | hstuck
      · obtain ⟨word, ws, hi, -⟩ := i.start_eq
        rw [hi] at hrest
        exact absurd hrest.length_le (by simp)
      · exact absurd hrest (hstuck.2 i)
    | cons j items =>
      rw [spell_cons_append] at h
      obtain ⟨rfl, hrest⟩ := Item.eq_of_words h
      exact (List.prefix_cons_inj i).mpr (ih hrest)

/-- All words are items in a row up to where none begins. -/
theorem exists_spell (words : List String) : ∃ items rest, spell items ++ rest = words ∧ (rest = [] ∨ Stuck rest) := by
  induction hn : words.length using Nat.strongRecOn generalizing words with
  | _ n ih =>
    by_cases hitem : ∃ i : Item, i.words <+: words
    · obtain ⟨i, more, rfl⟩ := hitem
      obtain ⟨word, ws, hi, -⟩ := i.start_eq
      have hlt : more.length < n := by
        rw [← hn, hi, List.length_append, List.length_cons]
        omega
      obtain ⟨items, rest, rfl, hend⟩ := ih more.length hlt more rfl
      exact ⟨i :: items, rest, spell_cons_append i items rest, hend⟩
    · refine ⟨[], words, rfl, ?_⟩
      by_cases hnil : words = []
      · exact .inl hnil
      · exact .inr ⟨hnil, fun i h => hitem ⟨i, h⟩⟩

/-! ### Reading -/

/-- What is read from all words: what the items say that they begin with, and an error if these are not all. -/
theorem ofList_cases (words : List String) : ∃ items rest, spell items ++ rest = words ∧
    (rest = [] ∧ Arguments.ofList words = meaning items ∨ Stuck rest ∧ ∃ message, Complaint rest message ∧
      Arguments.ofList words = { meaning items with error := some message }) := by
  obtain ⟨items, rest, rfl, hend⟩ := exists_spell words
  refine ⟨items, rest, rfl, hend.imp (fun hnil => ⟨hnil, ?_⟩) fun hstuck => ⟨hstuck, ?_⟩⟩
  · rw [ofList_spell, hnil]
    rfl
  · obtain ⟨message, hc, hm⟩ := Arguments.read_stuck hstuck
    exact ⟨message, hc, by rw [ofList_spell, hm]⟩

theorem ofList_of_spell (h : spell items = words) : Arguments.ofList words = meaning items := by
  rw [← h, ← List.append_nil (spell items), ofList_spell]
  rfl

theorem exists_spell_of_error (h : (Arguments.ofList words).error = none) : ∃ items, spell items = words := by
  obtain ⟨items, rest, hw, ⟨rfl, -⟩ | ⟨-, message, -, he⟩⟩ := ofList_cases words
  · exact ⟨items, by rw [← hw, List.append_nil]⟩
  · rw [he] at h
    cases h

/-- Arguments are read without an error exactly if they are items in a row, and then they say what the items
say together: the first free word and the others, the last value of each option, and the flags among them,
whatever else there is and in whatever order. Otherwise there is an error about what follows the longest
beginning that is items in a row, and all else is what these say. -/
theorem items_read (words : List String) :
    ((Arguments.ofList words).error = none ↔ ∃ items, spell items = words) ∧
    (∀ items, spell items = words → Arguments.ofList words = meaning items ∧
      ∀ others, freeWords others = freeWords items → (∀ o, lastValue o others = lastValue o items) →
        lastSize others = lastSize items → (∀ f, raises f others = raises f items) →
          Arguments.ofList (spell others) = Arguments.ofList words) ∧
    ((¬∃ items, spell items = words) → ∃ items rest message, spell items ++ rest = words ∧
      (∀ longer, spell longer <+: words → (spell longer).length ≤ (spell items).length) ∧ Complaint rest message ∧
        Arguments.ofList words = { meaning items with error := some message }) := by
  refine ⟨⟨exists_spell_of_error, ?_⟩, fun items h => ⟨ofList_of_spell h, ?_⟩, fun hno => ?_⟩
  · rintro ⟨items, h⟩
    rw [ofList_of_spell h]
    rfl
  · intro others hw hv hs hf
    rw [ofList_of_spell h, ofList_of_spell rfl]
    simp only [meaning, hw, hv, hs, hf]
  · obtain ⟨items, rest, rfl, ⟨rfl, -⟩ | ⟨hstuck, message, hc, he⟩⟩ := ofList_cases words
    · exact absurd ⟨items, (List.append_nil _).symm⟩ hno
    · refine ⟨items, rest, message, rfl, fun longer hl => ?_, hc, he⟩
      obtain ⟨more, hmore⟩ := hl
      obtain ⟨others, rfl⟩ := prefix_of_spell (.inr hstuck) hmore
      rw [spell, spell, List.flatMap_append, List.length_append]
      omega

/-- An option takes the word after it even if that looks like a flag, and only the last value counts. -/
theorem items_read_taken : Arguments.ofList ["-o", "-h", "extract", "--output", "--size", "a.svg", "-v"] =
    { command := some "extract", positional := ["a.svg"], output := some "--size", showVersion := true } :=
  ((items_read _).2.1 [.option .output "-o" (by decide) "-h", .free "extract" rfl,
    .option .output "--output" (by decide) "--size", .free "a.svg" rfl, .flag .version "-v" (by decide)] rfl).1

end LiveSvg.CommandLine
