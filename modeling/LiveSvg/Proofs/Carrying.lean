import LiveSvg.Proofs.Embedding
import LiveSvg.Proofs.Output
/-!
What becomes of a descriptor that is put into a document: it is read from the document again, by the
program as by its commands.
-/

namespace LiveSvg

namespace CommandLine

variable {files files' : Files}

namespace Command

variable {α : Type} {s : Shell} {path text : String}

/-- What is logged with a result is kept, and the result is there. -/
theorem run_logged (log : Log) (a : α) (s : Shell) :
    (Command.logged (log, .ok a)).run.run s = (.ok a, { s with log := s.log ++ log }) := rfl

theorem run_read (h : s.files.read path = .ok text) : (Command.read path).run.run s = (.ok text, s) := by
  unfold Command.read
  rw [run_get, h]
  rfl

theorem run_write {files : Files} (ho : path ≠ "") (h : s.files.write path text = .ok files) :
    (Command.write text (some path)).run.run s = (.ok (), { s with files }) := by
  have hf : (some path).filter (!·.isEmpty) = some path := by simp [Option.filter, ho]
  rw [run_write_file text hf, h]

theorem run_embed {descriptorPath output content markup source : String} {d : Descriptor} {files : Files}
    (ho : output ≠ "") (hd : s.files.read descriptorPath = .ok source) (hparse : Descriptor.parse source = .ok d)
    (hc : s.files.read path = .ok content) (hu : Document.update content d = ([], .ok markup))
    (hw : s.files.write output markup = .ok files) :
    (Command.embed path descriptorPath (some output)).run.run s = (.ok (), { s with files }) := by
  unfold Command.embed
  rw [run_bind (run_read hd), hparse]
  dsimp only
  rw [run_get, hc]
  dsimp only
  rw [hu]
  dsimp only
  have hlog : (modify fun s => { s with log := s.log ++ [] } : Command Unit).run.run s = (.ok (), s) := by
    change (Except.ok (), { s with log := s.log ++ [] }) = _
    rw [List.append_nil]
  rw [run_bind hlog]
  exact run_write ho hw

theorem run_extract {d : Descriptor} (hr : s.files.read path = .ok text)
    (hd : Document.descriptorOf (.text text) = ([], .ok d)) :
    (Command.extract path none).run.run s = (.ok (), { s with out := s.out ++ d.toJson ++ "\n" }) := by
  unfold Command.extract
  have hlogged : (Command.logged (([] : Log), .ok d)).run.run s = (.ok d, s) := by
    rw [run_logged, List.append_nil]
  rw [run_bind (run_read hr), hd, run_bind hlogged]
  rfl

end Command

/-- The program puts the descriptor in one file into the document in another, and writes a third. -/
theorem run_embed {path descriptorPath output content source markup : String} {d : Descriptor}
    (hpath : Arguments.isOption path = false) (hdpath : Arguments.isOption descriptorPath = false)
    (ho : output ≠ "") (hd : files.read descriptorPath = .ok source) (hparse : Descriptor.parse source = .ok d)
    (hc : files.read path = .ok content) (hu : Document.update content d = ([], .ok markup))
    (hw : files.write output markup = .ok files') :
    run ["embed", path, descriptorPath, "-o", output] files = ⟨some 0, none, { files := files' }⟩ := by
  have hargs : Arguments.ofList ["embed", path, descriptorPath, "-o", output] =
      { command := some "embed", positional := [path, descriptorPath], output := some output } := by
    unfold Arguments.ofList
    rw [Arguments.read_word rfl, Arguments.read_word hpath, Arguments.read_word hdpath]
    rfl
  have hembed : (Command.embed path descriptorPath (some output)).run.run { files } =
      (.ok (), { files := files' }) := Command.run_embed ho hd hparse hc hu hw
  exact run_of_carryOut hargs (Command.run_bind hembed _)

/-- The program prints the descriptor of the document in a file. -/
theorem run_extract {path text : String} {d : Descriptor} (hpath : Arguments.isOption path = false)
    (hr : files.read path = .ok text) (hd : Document.descriptorOf (.text text) = ([], .ok d)) :
    run ["extract", path] files = ⟨some 0, none, { files, out := d.toJson ++ "\n" }⟩ := by
  have hargs : Arguments.ofList ["extract", path] = { command := some "extract", positional := [path] } := by
    unfold Arguments.ofList
    rw [Arguments.read_word rfl, Arguments.read_word hpath]
    rfl
  have hextract : (Command.extract path none).run.run { files } =
      (.ok (), { files, out := "" ++ d.toJson ++ "\n" }) := Command.run_extract hr hd
  rw [String.empty_append] at hextract
  exact run_of_carryOut hargs (Command.run_bind hextract _)

end CommandLine

namespace Document

open Markup
open CommandLine (Files Arguments)

variable {content source source₂ : String} {e : Element Unit} {d d₂ : Descriptor}

/-! ### Documents that are read -/

/-- What holds of a document and a descriptor can be found out by reading both. -/
theorem exists_of_reads (content source : String) (test : Element Unit → Descriptor → Bool)
    (h : (match Markup.read (.text content), Descriptor.parse source with
      | some e, .ok d => test e d
      | _, _ => false) = true) :
    ∃ e d, Markup.read (.text content) = some e ∧ Descriptor.parse source = .ok d ∧ test e d = true := by
  cases he : Markup.read (.text content) with
  | none =>
    rw [he] at h
    cases h
  | some e =>
    cases hd : Descriptor.parse source with
    | error p =>
      rw [he, hd] at h
      cases h
    | ok d =>
      rw [he, hd] at h
      exact ⟨e, d, rfl, rfl, h⟩

/-- Whether all addresses in an element are written as they are read, as can be found out. -/
def isPlain (e : Element Unit) : Bool :=
  e.all.all fun x => x.head.declarations.all fun d => isPlainAddress d.uri

theorem plain_of_isPlain (h : isPlain e = true) : e.Plain := by
  intro x hx d hd
  exact List.all_eq_true.mp (List.all_eq_true.mp h x hx) d hd

/-! ### A descriptor put into a document -/

theorem update_of_read (hread : Markup.read (.text content) = some e) (d : Descriptor) :
    update content d = ([], .ok (put d (cleared e)).markup) := by
  unfold update read
  rw [hread]
  rfl

/-- What a document is read as once a descriptor has been put into it. -/
theorem read_update (hread : Markup.read (.text content) = some e) (ho : isDescriptor e.head = false) (hp : e.Plain)
    (hd : Descriptor.parse source = .ok d) :
    Markup.read (.text (put d (cleared e)).markup) = (cleared e).rebind.map (put d) :=
  read_put (cleared_spec (read_eq_some hread) hp ho).1 (Descriptor.parse_spec hd).1

/-- A descriptor comes back from the document that it has been put into, whatever stood in the document
before: if the result is well-formed, the descriptor that is found there is the one put in, and the
commands print it so. The result is well-formed unless clearing needless declarations has made two
attributes of one element the same. -/
theorem update_carries (hread : Markup.read (.text content) = some e) (ho : isDescriptor e.head = false)
    (hp : e.Plain) (hd : Descriptor.parse source = .ok d) :
    ∃ out, update content d = ([], .ok out) ∧
      ((Markup.read (.text out)).isSome = true ↔ Bound e ∨ (cleared e).Distinct) ∧
      ((Markup.read (.text out)).isSome = true → descriptorOf (.text out) = ([], .ok d) ∧
        ∀ (files files' : Files) (path descriptorPath output : String), Arguments.isOption path = false →
          Arguments.isOption descriptorPath = false → Arguments.isOption output = false → output ≠ "" →
          files.read path = .ok content → files.read descriptorPath = .ok source →
          files.write output out = .ok files' →
            CommandLine.run ["embed", path, descriptorPath, "-o", output] files =
              ⟨some 0, none, { files := files' }⟩ ∧
            CommandLine.run ["extract", output] files' =
              ⟨some 0, none, { files := files', out := d.toJson ++ "\n" }⟩) := by
  have hu := update_of_read hread d
  have hback := read_update hread ho hp hd
  have hsound := read_eq_some hread
  obtain ⟨hr, -⟩ := cleared_spec hsound hp ho
  refine ⟨_, hu, ?_, fun hsome => ?_⟩
  · rw [hback, ← exists_rebind_cleared hsound hp ho, Option.isSome_map, Option.isSome_iff_exists]
  · rw [hback, Option.isSome_map, Option.isSome_iff_exists] at hsome
    obtain ⟨e', hb⟩ := hsome
    have hread' : Markup.read (.text (put d (cleared e)).markup) = some (put d e') := by
      rw [hback, hb]
      rfl
    have hl' : e'.head.Legible := (read_eq_some hread').legible.1
    have hof : descriptorOf (.text (put d (cleared e)).markup) = ([], .ok d) := by
      unfold descriptorOf read
      rw [hread']
      dsimp only
      rw [descriptor_put hl' (other_of_rebind hr hb) hd]
      rfl
    refine ⟨hof, fun files files' path descriptorPath output hpath hdpath hout hne hc hs hw => ⟨?_, ?_⟩⟩
    · exact CommandLine.run_embed hpath hdpath hne hs hd hc hu hw
    · obtain ⟨hl, hplain⟩ := put_legible hr (Descriptor.parse_spec hd).1
      have hself := Element.condense_of_legible hl
      have hall : isClean (put d (cleared e)).markup.toList = true :=
        Element.isClean_markup (by rwa [hself]) (by rwa [hself])
      have hclean : '\r' ∉ (put d (cleared e)).markup.toList := fun k =>
        absurd (List.all_eq_true.mp hall _ k) (by decide)
      exact CommandLine.run_extract hout (CommandLine.Files.read_write hw hclean) hof

/-- Descriptors here and there in a document in which their prefix stands for another namespace. -/
def strayText : String :=
  "<svg xmlns='s' xmlns:tb='o' tb:q='1'>a<t:metadata xmlns:t='https://thingsboard.io/svg'>\x7b\x7d<t:metadata/>" ++
    "</t:metadata>b<g><t:metadata xmlns:t='https://thingsboard.io/svg'/>c<!--d--></g></svg>"

/-- A descriptor whose title could end a section. -/
def endingText : String := "\x7b\"title\":\"]]>\x5cu0000\"\x7d"

set_option maxRecDepth 100000 in
/-- It is so when there are descriptors here and there, and their prefix stands for another namespace. -/
theorem update_carries_stray : ∃ e d out, Markup.read (.text strayText) = some e ∧ isDescriptor e.head = false ∧
    e.Plain ∧ Descriptor.parse endingText = .ok d ∧ update strayText d = ([], .ok out) ∧
      descriptorOf (.text out) = ([], .ok d) := by
  obtain ⟨e, d, hread, hd, ht⟩ := exists_of_reads strayText endingText
    (fun e _ => !isDescriptor e.head && isPlain e && (cleared e).rebind.isSome) (by decide +kernel)
  simp only [Bool.and_eq_true, Bool.not_eq_true'] at ht
  obtain ⟨⟨ho, hp⟩, hbinds⟩ := ht
  have hsome : (Markup.read (.text (put d (cleared e)).markup)).isSome = true := by
    rw [read_update hread ho (plain_of_isPlain hp) hd, Option.isSome_map, hbinds]
  obtain ⟨out, hu, -, hcarried⟩ := update_carries hread ho (plain_of_isPlain hp) hd
  obtain rfl : (put d (cleared e)).markup = out := by
    rw [update_of_read hread] at hu
    cases hu
    rfl
  exact ⟨e, d, _, hread, ho, plain_of_isPlain hp, hd, hu, (hcarried hsome).1⟩

/-- Two attributes of which clearing takes the prefix of one and gives it that of the other. -/
def meetingText : String :=
  "<svg xmlns:p='u1'><g xmlns:q='u1' xmlns:p='u2' q:x='1' p:x='2'/></svg>"

set_option maxRecDepth 100000 in
/-- Putting a descriptor into a document may leave what is no document any more. -/
theorem unread_when_prefixes_meet : ∃ e d out, Markup.read (.text meetingText) = some e ∧
    isDescriptor e.head = false ∧ e.Plain ∧ Descriptor.parse endingText = .ok d ∧
      update meetingText d = ([], .ok out) ∧ Markup.read (.text out) = none := by
  obtain ⟨e, d, hread, hd, ht⟩ := exists_of_reads meetingText endingText
    (fun e _ => !isDescriptor e.head && isPlain e && (cleared e).rebind.isNone) (by decide +kernel)
  simp only [Bool.and_eq_true, Bool.not_eq_true', Option.isNone_iff_eq_none] at ht
  obtain ⟨⟨ho, hp⟩, hunbound⟩ := ht
  have hnone : Markup.read (.text (put d (cleared e)).markup) = none := by
    rw [read_update hread ho (plain_of_isPlain hp) hd, hunbound]
    rfl
  exact ⟨e, d, _, hread, ho, plain_of_isPlain hp, hd, update_of_read hread d, hnone⟩

/-- Whether an element, once it has been cleared, is read as one without descriptors inside it. -/
def Clears (e : Element Unit) : Prop :=
  ∃ e', (cleared e).rebind = some e' ∧ ∀ x ∈ e'.inner.elements, isDescriptor x.head = false

theorem clears_of_bound (hs : e.Sound [] Markup.maxDepth) (hp : e.Plain) (ho : isDescriptor e.head = false)
    (hb : Bound e) : Clears e := by
  obtain ⟨-, hn, hbound, -⟩ := cleared_spec hs hp ho
  have hstrip := strip_sound hs
  rw [Clears, hbound hb]
  rw [hbound hb] at hn
  exact ⟨strip e, Element.rebind_iff.mpr ⟨_, _, hstrip.head, hstrip.inner, rfl⟩, hn⟩

/-- The last descriptor put into a document replaces those before it: it is the only one and the first node
of the document. What comes of putting it in is what would have come of it in the first place, unless the
prefix of descriptors stands for another namespace and clearing the document again changes it again. -/
theorem update_replaces (hread : Markup.read (.text content) = some e) (ho : isDescriptor e.head = false)
    (hp : e.Plain) (hc : Bound e ∨ Clears e) (hd : Descriptor.parse source = .ok d)
    (hd₂ : Descriptor.parse source₂ = .ok d₂) :
    ∃ out e', update content d = ([], .ok out) ∧ Markup.read (.text out) = some e' ∧
      (∃ x, descriptors e' = [x] ∧ firstNode? e'.inner = some x) ∧
      (Scope.uri? [e.head.frame] "tb" = none ∨ Bound e ∨ cleared e' = strip e' →
        update out d₂ = update content d₂) := by
  have hsound := read_eq_some hread
  obtain ⟨e', hb, hn⟩ := hc.elim (clears_of_bound hsound hp ho) id
  obtain ⟨hr, -⟩ := cleared_spec hsound hp ho
  have hread' : Markup.read (.text (put d (cleared e)).markup) = some (put d e') := by
    rw [read_update hread ho hp hd, hb]
    rfl
  have hl' : e'.head.Legible := (read_eq_some hread').legible.1
  have hstrip : strip (put d e') = e' := strip_put hl' hn
  refine ⟨_, put d e', update_of_read hread d, hread', ⟨⟨(), descriptorHead e'.head, body d⟩, ?_, ?_⟩, fun hsteady => ?_⟩
  · rw [descriptors_put hl' (other_of_rebind hr hb), List.filter_eq_nil_iff.mpr]
    exact fun x hx => by simp [hn x hx]
  · exact firstNode?_insertFirst _ _ _ _
  · have hsame : Scope.uri? [e.head.frame] "tb" = none ∨ Bound e → cleared (put d e') = strip (put d e') :=
      fun hfree =>
        have hbound : Bound e' := (bound_cleared hsound hp ho hfree).of_declarations
          (declarations_of_rebind hr.legible.1 hb)
        if_pos (show Bound (put d e') from hbound)
    have hcleared : cleared (put d e') = e' := by
      rcases hsteady with hfree | hbound | hagain
      · rw [hsame (.inl hfree), hstrip]
      · rw [hsame (.inr hbound), hstrip]
      · rw [hagain, hstrip]
    rw [update_of_read hread', update_of_read hread, hcleared]
    have hmarkup : (put d₂ e').markup = (put d₂ (cleared e)).markup := by
      refine Element.rebind_markup (put_legible hr (Descriptor.parse_spec hd₂).1).1 ?_
      rw [rebind_put hr.legible.1, hb]
      rfl
    rw [hmarkup]

/-- Descriptors here and there in a document that declares their namespace under another prefix. -/
def foreignText : String :=
  "<svg xmlns='s' xmlns:x='https://thingsboard.io/svg'>a<x:metadata>\x7b\x7d<x:metadata/></x:metadata>b" ++
    "<g x:tag='g' xmlns:s='s'><s:r/><x:metadata/>c<!--d--></g></svg>"

set_option maxRecDepth 100000 in
/-- It is so when there are descriptors here and there, and needless declarations. -/
theorem update_replaces_foreign : ∃ e d d₂ out e', Markup.read (.text foreignText) = some e ∧
    isDescriptor e.head = false ∧ e.Plain ∧ Clears e ∧ Descriptor.parse endingText = .ok d ∧
      Descriptor.parse "\x7b\x7d" = .ok d₂ ∧ update foreignText d = ([], .ok out) ∧
        Markup.read (.text out) = some e' ∧ (∃ x, descriptors e' = [x] ∧ firstNode? e'.inner = some x) ∧
          update out d₂ = update foreignText d₂ := by
  obtain ⟨e, d, hread, hd, ht⟩ := exists_of_reads foreignText endingText
    (fun e _ => !isDescriptor e.head && isPlain e && (Scope.uri? [e.head.frame] "tb").isNone &&
      (cleared e).rebind.any fun e' => e'.inner.elements.all fun x => !isDescriptor x.head) (by decide +kernel)
  simp only [Bool.and_eq_true, Bool.not_eq_true', Option.isNone_iff_eq_none, Option.any_eq_true,
    List.all_eq_true] at ht
  obtain ⟨⟨⟨ho, hp⟩, hfree⟩, hclears⟩ := ht
  obtain ⟨_, d₂, -, hd₂, -⟩ := exists_of_reads "<svg/>" "\x7b\x7d"
    (fun _ _ => true) (by decide +kernel)
  obtain ⟨out, e', hu, hread', hone, hsame⟩ := update_replaces hread ho (plain_of_isPlain hp) (.inr hclears) hd hd₂
  exact ⟨e, d, d₂, out, e', hread, ho, plain_of_isPlain hp, hclears, hd, hd₂, hu, hread', hone, hsame (.inl hfree)⟩

/-- A name whose prefix comes to stand for another namespace when the document is written. -/
def capturedText : String :=
  "<svg xmlns:tb='o'><g xmlns:p='u1'><h xmlns:q='u1' xmlns:p='u2' q:x='1' p:y='2'/></g></svg>"

/-- The characters of the markup of an element. -/
def spelling (e : Element Unit) : List Char := elementChars e.head e.inner.body

set_option maxRecDepth 100000 in
/-- Where the prefix of descriptors stands for another namespace, putting a descriptor in once more may
change the document once more. -/
theorem differs_when_put_again : ∃ e d out out', Markup.read (.text capturedText) = some e ∧
    isDescriptor e.head = false ∧ e.Plain ∧ Clears e ∧ Descriptor.parse endingText = .ok d ∧
      update capturedText d = ([], .ok out) ∧ update out d = ([], .ok out') ∧ out' ≠ out := by
  obtain ⟨e, d, hread, hd, ht⟩ := exists_of_reads capturedText endingText
    (fun e d => !isDescriptor e.head && isPlain e && (cleared e).rebind.any fun e' =>
      (e'.inner.elements.all fun x => !isDescriptor x.head) &&
        spelling (put d (cleared (put d e'))) != spelling (put d (cleared e))) (by decide +kernel)
  simp only [Bool.and_eq_true, Bool.not_eq_true', Option.any_eq_true, List.all_eq_true] at ht
  obtain ⟨⟨ho, hp⟩, e', hbinds, hn, hagain⟩ := ht
  have hread' : Markup.read (.text (put d (cleared e)).markup) = some (put d e') := by
    rw [read_update hread ho (plain_of_isPlain hp) hd, hbinds]
    rfl
  refine ⟨e, d, _, _, hread, ho, plain_of_isPlain hp, ⟨e', hbinds, hn⟩, hd, update_of_read hread d,
    update_of_read hread' d, fun h => bne_iff_ne.mp hagain ?_⟩
  rw [spelling, ← Element.markup_toList, h, Element.markup_toList, spelling]

end Document

end LiveSvg
