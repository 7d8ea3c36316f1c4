import LiveSvg.Proofs.Characters
import LiveSvg.Proofs.Splitting
/-!
What is read from markup that has been written: the elements that were written, with their names
bound anew by the declarations around them.
-/

namespace LiveSvg.Markup

open Text

variable {ι : Type} {cs rest : List Char}

/-! ### Elements as they are written -/

/-- A name as it is written. -/
def Name.parts (n : Name) : Written :=
  match n.space with
  | some ⟨some short, _⟩ => (some short, n.base)
  | _ => (none, n.base)

theorem Name.written_toList (n : Name) : n.written.toList = n.parts.chars := by
  rcases n with ⟨none | ⟨none | short, uri⟩, base⟩ <;> simp [written, parts, Written.chars]

/-- A declaration as the attribute that it is written as. -/
def Declaration.parts (d : Declaration) : Written :=
  match d.short with
  | some short => (some "xmlns", short)
  | none => (none, "xmlns")

/-- A start tag as the attributes that it is written with. -/
def Head.raw (h : Head) : List (Written × String) :=
  h.declarations.map (fun d => (d.parts, d.uri)) ++ h.attrs.map fun a => (a.name.parts, a.value)

/-- Whether text may stand in a document as it is: it keeps its line ends. -/
def isClean (cs : List Char) : Bool := cs.all fun c => isMarkupChar c && c != '\r'

/-- What is written into a document, references included. -/
def isWritable (s : String) : Bool := s.toList.all isMarkupChar

structure Declaration.Legible (d : Declaration) : Prop where
  named : d.parts.isValid = true
  writable : isWritable d.uri = true
  declares : declaration? d.parts d.uri = some (some d)

/-- The declaration that every document begins with. -/
def Declaration.xml : Declaration := ⟨some "xml", xmlUri⟩

structure Name.Legible (n : Name) : Prop where
  base : isName n.base.toList = true
  space : ∀ d, n.space = some d → (d.Legible ∨ d = .xml) ∧ d.uri ≠ ""

structure Attr.Legible (a : Attr) : Prop where
  name : a.name.Legible
  prefixed : ∀ d, a.name.space = some d → d.short.isSome = true
  writable : isWritable a.value = true
  other : isDeclaration a.name.parts = false

structure Head.Legible (h : Head) : Prop where
  name : h.name.Legible
  declarations : ∀ d ∈ h.declarations, d.Legible
  distinct : (h.declarations.map (·.short)).Nodup
  attrs : ∀ a ∈ h.attrs, a.Legible

theorem Name.Legible.isValid {n : Name} (h : n.Legible) : n.parts.isValid = true := by
  unfold parts
  split
  · next short uri k =>
    have hs : isName short.toList = true := by
      rcases (h.space _ k).1 with hd | hd
      · have hp : Written.isValid (some "xmlns", short) = true := hd.named
        rw [Written.isValid, Bool.and_eq_true] at hp
        exact hp.2
      · cases hd
        decide
    exact Bool.and_eq_true_iff.mpr ⟨hs, h.base⟩
  · exact h.base

def Leaf.isText : Leaf → Bool
  | .text _ => true
  | _ => false

def Leaf.Legible : Leaf → Prop
  | .text s => s ≠ "" ∧ isWritable s = true
  | .cdata s => Precedes s.toList "]]>".toList ∧ isClean s.toList = true
  | .comment s => Precedes s.toList "--".toList ∧ isClean s.toList = true
  | .instruction target body =>
    isName target.toList = true ∧ Number.lowercase target.toList ≠ "xml".toList ∧
      isClean body.toList = true ∧ (body = "" ∨ (skipSpace body.toList = body.toList ∧
        Precedes (' ' :: body.toList) "?>".toList))

namespace Content

def startsText : Content ι → Bool
  | .leaf l _ => l.isText
  | _ => false

/-- Content that a text stands for: its parts are well-formed, and no text borders on another. -/
def Legible : Content ι → Prop
  | .nil => True
  | .leaf l rest => l.Legible ∧ (l.isText = true → rest.startsText = false) ∧ rest.Legible
  | .element _ h inner rest => h.Legible ∧ inner.Legible ∧ rest.Legible

def depth : Content ι → Nat
  | .nil => 0
  | .leaf _ rest => rest.depth
  | .element _ _ inner rest => max (inner.depth + 1) rest.depth

/-- The content with its names bound by the declarations around them, as they are written. -/
def rebind (scope : Scope) : Content ι → Option (Content ι)
  | .nil => some .nil
  | .leaf l rest => (rest.rebind scope).map (.leaf l)
  | .element id h inner rest => do
    let head ← bind? scope h.name.parts h.raw
    let inner ← inner.rebind (head.frame :: scope)
    let rest ← rest.rebind scope
    return .element id head inner rest

/-- Whether all addresses in the content are written as they are read. -/
def Plain (c : Content ι) : Prop :=
  ∀ x ∈ c.elements, ∀ d ∈ x.head.declarations, isPlainAddress d.uri = true

/-- What can be told from the written content: labels are not written, and neither are empty texts. -/
def condense : Content ι → Content Unit
  | .nil => .nil
  | .leaf l rest => if l = .text "" then rest.condense else .leaf l rest.condense
  | .element _ h inner rest => .element () h inner.condense rest.condense

theorem condense_of_legible {c : Content Unit} (hl : c.Legible) : c.condense = c := by
  induction c with
  | nil => rfl
  | leaf l rest ih =>
    have hne : l ≠ .text "" := by
      intro h
      rw [h] at hl
      exact hl.1.1 rfl
    rw [condense, if_neg hne, ih hl.2.2]
  | element id h inner rest hinner hrest => rw [condense, hinner hl.2.1, hrest hl.2.2]

end Content

/-! ### Start and end tags -/

theorem Declaration.chars_spells {d : Declaration} (h : d.Legible) (hp : isPlainAddress d.uri = true) :
    SpellsAttr d.chars d.parts d.uri := by
  obtain ⟨q, raw, hq, hn, he, hv⟩ := addressChars_written hp
  refine ⟨h.named, q, raw, hq, hn, ?_, hv⟩
  unfold Declaration.chars Declaration.parts Written.chars
  rw [he]
  cases d.short <;> simp

theorem Attr.chars_spells {a : Attr} (h : a.Legible) : SpellsAttr a.chars a.name.parts a.value := by
  refine ⟨h.name.isValid, '\x22', _, .inl rfl, ?_, ?_, attrValue?_written a.value⟩
  · intro k
    obtain ⟨c, -, hc⟩ := List.mem_flatMap.mp k
    exact (not_mem_escapeAttr c).2 hc
  · unfold Attr.chars
    rw [Name.written_toList]
    simp

/-- The attributes of a start tag with the texts that they are written as. -/
def Head.items (h : Head) : List (List Char × Written × String) :=
  h.declarations.map (fun d => (d.chars, d.parts, d.uri)) ++
    h.attrs.map fun a => (a.chars, a.name.parts, a.value)

theorem Head.chars_eq (h : Head) : h.chars = '<' :: (h.name.parts.chars ++ h.items.flatMap (·.1)) := by
  simp [Head.chars, Head.items, Name.written_toList, List.flatMap_append, List.flatMap_map]

theorem Head.items_raw (h : Head) : h.items.map (·.2) = h.raw := by
  simp [Head.items, Head.raw, Function.comp_def]

theorem Head.items_spell {h : Head} (hl : h.Legible)
    (hp : ∀ d ∈ h.declarations, isPlainAddress d.uri = true) :
    ∀ i ∈ h.items, SpellsAttr i.1 i.2.1 i.2.2 := by
  intro i hi
  rcases List.mem_append.mp hi with hi | hi
  · obtain ⟨d, hd, rfl⟩ := List.mem_map.mp hi
    exact Declaration.chars_spells (hl.declarations d hd) (hp d hd)
  · obtain ⟨a, ha, rfl⟩ := List.mem_map.mp hi
    exact Attr.chars_spells (hl.attrs a ha)

/-- What stands before the end of a start tag is read as its name and its attributes. -/
theorem Head.take_chars {h : Head} (hl : h.Legible)
    (hp : ∀ d ∈ h.declarations, isPlainAddress d.uri = true) (hr : endsTag rest = true) :
    ∃ mid, expect ['<'] (h.chars ++ rest) = some (h.name.parts.chars ++ mid) ∧
      takeWritten (h.name.parts.chars ++ mid) = some (h.name.parts, mid) ∧
      takeAttrs (mid.length + 1) mid = some (h.raw, rest) := by
  have hs := items_spell hl hp
  refine ⟨h.items.flatMap (·.1) ++ rest, ?_, takeWritten_append hl.name.isValid ?_, ?_⟩
  · rw [chars_eq, List.cons_append, List.append_assoc]
    exact expect_append ['<'] _
  · cases hi : h.items with
    | nil =>
      cases rest with
      | nil => cases hr
      | cons c rest =>
        simp only [endsTag, Bool.or_eq_true, beq_iff_eq] at hr
        rcases hr with rfl | rfl
        · exact (by decide : (!isNamePart '/' && '/' != ':') = true)
        · exact (by decide : (!isNamePart '>' && '>' != ':') = true)
    | cons i items =>
      rw [hi] at hs
      obtain ⟨-, q, raw, -, -, he, -⟩ := hs i List.mem_cons_self
      rw [List.flatMap_cons, he]
      simp only [List.cons_append, endsName]
      decide
  · rw [takeAttrs_append h.items hs hr, items_raw]
    have hlen : ∀ items : List (List Char × Written × String),
        (∀ i ∈ items, SpellsAttr i.1 i.2.1 i.2.2) → items.length ≤ (items.flatMap (·.1)).length := by
      intro items
      induction items with
      | nil => exact fun _ => Nat.le_refl _
      | cons i items ih =>
        intro hi
        obtain ⟨-, q, raw, -, -, he, -⟩ := hi i List.mem_cons_self
        have := ih fun j hj => hi j (List.mem_cons_of_mem _ hj)
        rw [List.flatMap_cons, List.length_append, he]
        simp only [List.length_cons, List.cons_append]
        omega
    have := hlen h.items hs
    rw [List.length_append]
    omega

theorem takeEnd_append {w : Written} (h : w.isValid = true) :
    takeEnd w ('<' :: '/' :: (w.chars ++ '>' :: rest)) = some rest := by
  unfold takeEnd
  have ho : expect ['<', '/'] ('<' :: '/' :: (w.chars ++ '>' :: rest)) = some (w.chars ++ '>' :: rest) :=
    expect_append ['<', '/'] _
  simp only [ho, takeWritten_append h (show endsName ('>' :: rest) = true by rw [endsName]; decide),
    Option.bind_eq_bind, Option.bind_some]
  rw [skipSpace_of_not_isSpace (by decide), if_pos trivial]
  exact expect_append ['>'] rest

/-! ### Elements -/

section Reading

variable {h head : Head} {scope : Scope} {fuel depth : Nat} {found : Leaf × List Char}

theorem readElement_empty (hl : h.Legible) (hp : ∀ d ∈ h.declarations, isPlainAddress d.uri = true) :
    readElement (fuel + 1) (depth + 1) scope (elementChars h none ++ rest) =
      (bind? scope h.name.parts h.raw).map fun head => (⟨(), head, .nil⟩, rest) := by
  have hend : endsTag ('/' :: '>' :: rest) = true := rfl
  obtain ⟨mid, hx, hw, ha⟩ := Head.take_chars hl hp hend
  have hc : elementChars h none ++ rest = h.chars ++ '/' :: '>' :: rest := by simp [elementChars]
  have ho : expect ['>'] ('>' :: rest) = some rest := expect_append ['>'] rest
  rw [readElement]
  simp only [hc, hx, hw, ha, ho, Option.bind_eq_bind, Option.bind_some]
  exact (Option.map_eq_bind ..).symm

theorem readElement_filled (hl : h.Legible) (hp : ∀ d ∈ h.declarations, isPlainAddress d.uri = true)
    {inner : Head → Option (Content Unit)} (hi : ∀ head, bind? scope h.name.parts h.raw = some head →
      ∀ rest, readContent fuel depth (head.frame :: scope) (cs ++ '<' :: '/' :: rest) =
        (inner head).map fun c => (c, '<' :: '/' :: rest)) :
    readElement (fuel + 1) (depth + 1) scope (elementChars h (some cs) ++ rest) =
      (bind? scope h.name.parts h.raw).bind fun head => (inner head).map fun c => (⟨(), head, c⟩, rest) := by
  have hend : endsTag ('>' :: (cs ++ '<' :: '/' :: (h.name.parts.chars ++ '>' :: rest))) = true := rfl
  obtain ⟨mid, hx, hw, ha⟩ := Head.take_chars hl hp hend
  have hc : elementChars h (some cs) ++ rest =
      h.chars ++ '>' :: (cs ++ '<' :: '/' :: (h.name.parts.chars ++ '>' :: rest)) := by
    simp [elementChars, Name.written_toList]
  have ho : expect ['>'] ('>' :: (cs ++ '<' :: '/' :: (h.name.parts.chars ++ '>' :: rest))) =
      some (cs ++ '<' :: '/' :: (h.name.parts.chars ++ '>' :: rest)) := expect_append ['>'] _
  rw [readElement]
  simp only [hc, hx, hw, ha, Option.bind_eq_bind, Option.bind_some]
  cases hb : bind? scope h.name.parts h.raw with
  | none => rfl
  | some head =>
    rw [Option.bind_some, Option.bind_some]
    split
    · next k => exact absurd (List.cons.inj k).1 (by decide)
    · rw [ho, Option.bind_some, hi head hb]
      cases inner head with
      | none => rfl
      | some c =>
        simp only [Option.map_some, Option.bind_some, takeEnd_append hl.name.isValid]
        rfl

/-! ### Content -/

theorem escapeData_cons (c : Char) : ∃ d ds, escapeData c = d :: ds ∧ d ≠ '<' := by
  unfold escapeData
  repeat' split
  all_goals exact ⟨_, _, rfl, by first | decide | assumption⟩

theorem readContent_element {c : Char} (h : isNameStart c = true) :
    readContent (fuel + 1) depth scope ('<' :: c :: cs) =
      (readElement fuel depth scope ('<' :: c :: cs)).bind fun found =>
        (readContent fuel depth scope found.2).map fun after =>
          (.element found.1.id found.1.head found.1.inner after.1, after.2) := by
  have hn : c ≠ '/' ∧ c ≠ '?' ∧ c ≠ '!' := by
    refine ⟨?_, ?_, ?_⟩ <;>
    · rintro rfl
      revert h
      decide
  rw [readContent]
  · cases readElement fuel depth scope ('<' :: c :: cs) with
    | none => rfl
    | some found => exact (Option.map_eq_bind ..).symm
  · exact fun _ k => hn.1 (List.cons.inj k).1
  · exact fun _ k => hn.2.1 (List.cons.inj k).1
  · exact fun _ k => hn.2.2 (List.cons.inj k).1
  · exact fun _ k => hn.2.2 (List.cons.inj k).1

theorem readContent_text {c : Char} (h : c ≠ '<') :
    readContent (fuel + 1) depth scope (c :: cs) =
      (dataValue? ((c :: cs).takeWhile (· ≠ '<'))).bind fun s =>
        (readContent fuel depth scope ((c :: cs).dropWhile (· ≠ '<'))).map fun after =>
          (.leaf (.text s) after.1, after.2) := by
  rw [readContent]
  · cases dataValue? ((c :: cs).takeWhile (· ≠ '<')) with
    | none => rfl
    | some s => exact (Option.map_eq_bind ..).symm
  · nofun
  all_goals exact fun _ k => h (List.cons.inj k).1

theorem readContent_section (h : takeSection cs = some found) :
    readContent (fuel + 1) depth scope ("<![CDATA[".toList ++ cs) =
      (readContent fuel depth scope found.2).map fun after => (.leaf found.1 after.1, after.2) := by
  change readContent (fuel + 1) depth scope ('<' :: '!' :: '[' :: 'C' :: 'D' :: 'A' :: 'T' :: 'A' :: '[' :: cs) = _
  rw [readContent, h]
  exact (Option.map_eq_bind ..).symm

theorem readContent_comment (h : takeComment cs = some found) :
    readContent (fuel + 1) depth scope ("<!--".toList ++ cs) =
      (readContent fuel depth scope found.2).map fun after => (.leaf found.1 after.1, after.2) := by
  change readContent (fuel + 1) depth scope ('<' :: '!' :: '-' :: '-' :: cs) = _
  rw [readContent, h]
  exact (Option.map_eq_bind ..).symm

theorem readContent_instruction (h : takeInstruction cs = some found) :
    readContent (fuel + 1) depth scope ("<?".toList ++ cs) =
      (readContent fuel depth scope found.2).map fun after => (.leaf found.1 after.1, after.2) := by
  change readContent (fuel + 1) depth scope ('<' :: '?' :: cs) = _
  rw [readContent, h]
  exact (Option.map_eq_bind ..).symm

/-- A leaf that is no text is read from what it is written as. -/
theorem readContent_leaf {l : Leaf} (hl : l.Legible) (ht : l.isText = false) :
    readContent (fuel + 1) depth scope (l.chars ++ rest) =
      (readContent fuel depth scope rest).map fun after => (.leaf l after.1, after.2) := by
  cases l with
  | text => cases ht
  | cdata s =>
    have hc : (Leaf.cdata s).chars ++ rest = "<![CDATA[".toList ++ (s.toList ++ ("]]>".toList ++ rest)) := by
      unfold Leaf.chars
      rw [List.append_assoc, List.append_assoc]
    have hf : takeSection (s.toList ++ ("]]>".toList ++ rest)) = some (.cdata s, rest) := by
      simp only [takeSection, hl.1.split rest, Option.bind_eq_bind, Option.bind_some, String.ofList_toList]
      rfl
    rw [hc, readContent_section hf]
  | comment s =>
    have hc : (Leaf.comment s).chars ++ rest = "<!--".toList ++ (s.toList ++ ("-->".toList ++ rest)) := by
      unfold Leaf.chars
      rw [List.append_assoc, List.append_assoc]
    have hs : splitMarker "--".toList (s.toList ++ ("-->".toList ++ rest)) = some (s.toList, '>' :: rest) :=
      hl.1.split ('>' :: rest)
    have ho : expect ['>'] ('>' :: rest) = some rest := expect_append ['>'] rest
    have hf : takeComment (s.toList ++ ("-->".toList ++ rest)) = some (.comment s, rest) := by
      simp only [takeComment, hs, ho, Option.bind_eq_bind, Option.bind_some, String.ofList_toList]
      rfl
    rw [hc, readContent_comment hf]
  | instruction target body =>
    obtain ⟨hn, hx, -, hb⟩ := hl
    have hc : (Leaf.instruction target body).chars ++ rest = "<?".toList ++ (target.toList ++
        ((if body.isEmpty then [] else ' ' :: body.toList) ++ ("?>".toList ++ rest))) := by
      unfold Leaf.chars
      rw [List.append_assoc, List.append_assoc, List.append_assoc]
    rw [hc]
    by_cases he : body = ""
    · subst body
      have hk : takeName (target.toList ++ ("?>".toList ++ rest)) = some (target.toList, "?>".toList ++ rest) :=
        takeName_append hn (by change (!isNamePart '?') = true; decide)
      have hnone : Precedes [] "?>".toList := by
        unfold Precedes
        decide
      have hm : splitMarker "?>".toList ("?>".toList ++ rest) = some ([], rest) := hnone.split rest
      have hf : takeInstruction (target.toList ++ ("?>".toList ++ rest)) = some (.instruction target "", rest) := by
        simp only [takeInstruction, hk, hm, if_neg hx, Option.bind_eq_bind, Option.bind_some,
          String.ofList_toList]
        rfl
      exact readContent_instruction hf
    · obtain ⟨hs, hp⟩ := hb.resolve_left he
      have hk : takeName (target.toList ++ (' ' :: body.toList ++ ("?>".toList ++ rest))) =
          some (target.toList, ' ' :: body.toList ++ ("?>".toList ++ rest)) :=
        takeName_append hn (by change (!isNamePart ' ') = true; decide)
      have hsk : skipSpace (' ' :: body.toList) = body.toList := by
        rw [skipSpace, List.dropWhile_cons_of_pos (by decide)]
        exact hs
      have hf : takeInstruction (target.toList ++ (' ' :: body.toList ++ ("?>".toList ++ rest))) =
          some (.instruction target body, rest) := by
        simp only [takeInstruction, hk, hp.split rest, hsk, if_neg hx, Option.bind_eq_bind, Option.bind_some,
          String.ofList_toList, List.isEmpty_cons, List.length_cons]
        rw [if_neg (by simp), if_neg (by omega)]
        rfl
      rw [if_neg (by simpa using he), readContent_instruction hf]

theorem Leaf.eq_text {l : Leaf} (h : l.isText = true) : ∃ s, l = .text s := by
  cases l with
  | text s => exact ⟨s, rfl⟩
  | _ => exact absurd h Bool.false_ne_true

theorem Leaf.chars_bracket {l : Leaf} (h : l.isText = false) : ∃ more, l.chars = '<' :: more := by
  rw [← List.head?_eq_some_iff]
  cases l with
  | text => exact absurd h.symm Bool.false_ne_true
  | _ => rfl

theorem Leaf.chars_text (s : String) : (Leaf.text s).chars = s.toList.flatMap escapeData :=
  rfl

theorem Leaf.chars_pos {l : Leaf} (h : l.Legible) : 0 < l.chars.length := by
  cases ht : l.isText with
  | false =>
    obtain ⟨more, hm⟩ := chars_bracket ht
    rw [hm]
    exact Nat.succ_pos _
  | true =>
    obtain ⟨s, rfl⟩ := eq_text ht
    cases hs : s.toList with
    | nil => exact absurd (String.toList_eq_nil_iff.mp hs) h.1
    | cons c cs =>
      obtain ⟨d, ds, hd, -⟩ := escapeData_cons c
      rw [chars_text, hs, List.flatMap_cons, hd]
      exact Nat.succ_pos _

/-- Text up to a bracket is read from what it is written as. -/
theorem readContent_text_written {s : String} (hs : s ≠ "") :
    readContent (fuel + 1) depth scope (s.toList.flatMap escapeData ++ '<' :: rest) =
      (readContent fuel depth scope ('<' :: rest)).map fun after => (.leaf (.text s) after.1, after.2) := by
  have hw : ∀ cs : List Char, '<' ∉ cs → (cs ++ '<' :: rest).takeWhile (· ≠ '<') = cs ∧
      (cs ++ '<' :: rest).dropWhile (· ≠ '<') = '<' :: rest := by
    intro cs hcs
    induction cs with
    | nil => simp
    | cons c cs ih =>
      obtain ⟨ht, hd⟩ := ih (List.not_mem_of_not_mem_cons hcs)
      have hc : c ≠ '<' := Ne.symm (List.ne_of_not_mem_cons hcs)
      simp [hc] at ht hd ⊢
      exact ⟨ht, hd⟩
  obtain ⟨ht, hd⟩ := hw (s.toList.flatMap escapeData) fun k => by
    obtain ⟨c, -, hc⟩ := List.mem_flatMap.mp k
    exact (not_mem_escapeData c).1 hc
  obtain ⟨c, cs, he, hc⟩ : ∃ c cs, s.toList.flatMap escapeData = c :: cs ∧ c ≠ '<' := by
    cases hs' : s.toList with
    | nil => exact absurd (String.toList_eq_nil_iff.mp hs') hs
    | cons a as =>
      obtain ⟨d, ds, hd, hn⟩ := escapeData_cons a
      exact ⟨d, ds ++ as.flatMap escapeData, by rw [List.flatMap_cons, hd]; rfl, hn⟩
  rw [he] at ht hd
  rw [he]
  rw [List.cons_append] at ht hd ⊢
  rw [readContent_text hc, ht, hd, ← he, dataValue?_written, Option.bind_some]

/-- The written form of content, if there is any. -/
def Content.body (c : Content ι) : Option (List Char) :=
  match c with
  | .nil => none
  | c => some c.chars

theorem elementChars_cons {h : Head} (hl : h.Legible) (body : Option (List Char)) :
    ∃ c more, elementChars h body = '<' :: c :: more ∧ isNameStart c = true := by
  obtain ⟨c, cs, he, hc⟩ := Written.chars_cons hl.name.isValid
  cases body <;> exact ⟨c, _, by rw [elementChars, Head.chars_eq, he]; rfl, hc⟩

theorem Content.chars_element (id : ι) (h : Head) (inner rest : Content ι) :
    (Content.element id h inner rest).chars = elementChars h inner.body ++ rest.chars := by
  cases inner <;> rfl

theorem Content.chars_bracket {c : Content ι} (hl : c.condense.Legible) (h : c.condense.startsText = false)
    (rest : List Char) : ∃ more, c.chars ++ '<' :: rest = '<' :: more := by
  induction c with
  | nil => exact ⟨_, rfl⟩
  | leaf l c ih =>
    rw [condense] at hl h
    split at hl
    · next he =>
      rw [if_pos he] at h
      obtain ⟨more, hm⟩ := ih hl h
      rw [he]
      exact ⟨more, hm⟩
    · next he =>
      rw [if_neg he] at h
      obtain ⟨more, hm⟩ := Leaf.chars_bracket h
      exact ⟨_, by rw [chars, hm, List.append_assoc, List.cons_append]⟩
  | element id h inner c =>
    obtain ⟨a, more, ha, -⟩ := elementChars_cons hl.1 inner.body
    exact ⟨_, by rw [chars_element, ha, List.append_assoc, List.cons_append]⟩

theorem length_elementChars (h : Head) (inner : Content ι) :
    inner.chars.length + 2 ≤ (elementChars h inner.body).length := by
  cases inner <;> simp [elementChars, Content.body, Content.chars, Head.chars] <;> omega

/-- An element is read as it is written, if its content is. -/
theorem readElement_body (hl : h.Legible) (hp : ∀ d ∈ h.declarations, isPlainAddress d.uri = true)
    {inner : Content ι} (hi : ∀ head, bind? scope h.name.parts h.raw = some head →
      ∀ rest, readContent fuel depth (head.frame :: scope) (inner.chars ++ '<' :: '/' :: rest) =
        (inner.condense.rebind (head.frame :: scope)).map fun c => (c, '<' :: '/' :: rest)) (rest : List Char) :
    readElement (fuel + 1) (depth + 1) scope (elementChars h inner.body ++ rest) =
      (bind? scope h.name.parts h.raw).bind fun head =>
        (inner.condense.rebind (head.frame :: scope)).map fun c => (⟨(), head, c⟩, rest) := by
  cases inner with
  | nil => exact (readElement_empty hl hp).trans (Option.map_eq_bind ..)
  | leaf => exact readElement_filled hl hp hi
  | element => exact readElement_filled hl hp hi

/-- Content is read as it is written, up to the end tag that follows, with its names bound anew. -/
theorem readContent_chars {c : Content ι} (hl : c.condense.Legible) (hp : c.condense.Plain)
    (hd : c.condense.depth ≤ depth) (hf : c.chars.length < fuel) (rest : List Char) :
    readContent fuel depth scope (c.chars ++ '<' :: '/' :: rest) =
      (c.condense.rebind scope).map fun c => (c, '<' :: '/' :: rest) := by
  induction c generalizing scope depth fuel rest with
  | nil =>
    obtain ⟨fuel, rfl⟩ := Nat.exists_eq_succ_of_ne_zero (Nat.ne_of_gt hf)
    rfl
  | leaf l c ih =>
    rw [Content.condense] at hl hp hd ⊢
    by_cases hempty : l = .text ""
    · -- an empty text leaves nothing to read
      rw [if_pos hempty] at hl hp hd ⊢
      rw [hempty] at hf ⊢
      exact ih hl hp hd hf rest
    · rw [if_neg hempty] at hl hp hd ⊢
      obtain ⟨fuel, rfl⟩ := Nat.exists_eq_succ_of_ne_zero (Nat.ne_of_gt (Nat.zero_lt_of_lt hf))
      have hlen : c.chars.length < fuel := by
        have := Leaf.chars_pos hl.1
        rw [Content.chars, List.length_append] at hf
        omega
      have ih : readContent fuel depth scope (c.chars ++ '<' :: '/' :: rest) =
          (c.condense.rebind scope).map fun c => (c, '<' :: '/' :: rest) := ih hl.2.2 hp hd hlen rest
      rw [Content.chars, List.append_assoc, Content.rebind, Option.map_map]
      cases ht : l.isText with
      | false =>
        rw [readContent_leaf hl.1 ht, ih, Option.map_map]
        rfl
      | true =>
        obtain ⟨more, hm⟩ := Content.chars_bracket hl.2.2 (hl.2.1 ht) ('/' :: rest)
        obtain ⟨s, rfl⟩ := Leaf.eq_text ht
        rw [Leaf.chars_text, hm, readContent_text_written hl.1.1, ← hm, ih, Option.map_map]
        rfl
  | element id h inner c ihi ihc =>
    rw [Content.condense, Content.depth, Nat.max_le] at hd
    obtain ⟨depth, rfl⟩ := Nat.exists_eq_succ_of_ne_zero (Nat.ne_of_gt (Nat.zero_lt_of_lt hd.1))
    rw [Content.chars_element, List.length_append] at hf
    have hlen := length_elementChars h inner
    obtain ⟨fuel, rfl⟩ : ∃ k, fuel = k + 2 := ⟨fuel - 2, by omega⟩
    have hi : ∀ head, bind? scope h.name.parts h.raw = some head →
        ∀ rest, readContent fuel depth (head.frame :: scope) (inner.chars ++ '<' :: '/' :: rest) =
          (inner.condense.rebind (head.frame :: scope)).map fun c => (c, '<' :: '/' :: rest) := fun head _ =>
      ihi hl.2.1 (fun x hx => hp x (by simp [Content.condense, Content.elements, hx])) (by omega) (by omega)
    have hc : readContent (fuel + 1) (depth + 1) scope (c.chars ++ '<' :: '/' :: rest) =
        (c.condense.rebind scope).map fun c => (c, '<' :: '/' :: rest) :=
      ihc hl.2.2 (fun x hx => hp x (by simp [Content.condense, Content.elements, hx])) hd.2 (by omega) rest
    have he := readElement_body hl.1 (hp ⟨(), h, inner.condense⟩ (by simp [Content.condense, Content.elements])) hi
      (c.chars ++ '<' :: '/' :: rest)
    obtain ⟨a, more, ha, hn⟩ := elementChars_cons hl.1 inner.body
    rw [Content.chars_element, List.append_assoc, Content.condense, Content.rebind]
    rw [ha] at he ⊢
    rw [List.cons_append, List.cons_append] at he ⊢
    rw [readContent_element hn, he]
    cases bind? scope h.name.parts h.raw with
    | none => rfl
    | some head =>
      simp only [Option.bind_eq_bind, Option.bind_some]
      cases inner.condense.rebind (head.frame :: scope) with
      | none => rfl
      | some inner' =>
        simp only [Option.map_some, Option.bind_some, hc]
        cases c.condense.rebind scope <;> rfl

end Reading

/-! ### Characters -/

theorem isClean_append {as bs : List Char} : isClean (as ++ bs) = (isClean as && isClean bs) :=
  List.all_append

theorem isClean_cons {c : Char} : isClean (c :: cs) = (isMarkupChar c && c != '\r' && isClean cs) :=
  List.all_cons

theorem isClean_flatMap {α : Type} {as : List α} {f : α → List Char} (h : ∀ a ∈ as, isClean (f a) = true) :
    isClean (as.flatMap f) = true := by
  unfold isClean
  rw [List.all_flatMap, List.all_eq_true]
  exact h

theorem isClean_of_isNamePart {c : Char} (h : isNamePart c = true) :
    (isMarkupChar c && c != '\r') = true := by
  have ha : c.isAlpha = true → 65 ≤ c.toNat := by
    intro h
    change (decide (65 ≤ c.val ∧ c.val ≤ 90) || decide (97 ≤ c.val) && decide (c.val ≤ 122)) = true at h
    simp only [Bool.or_eq_true, decide_eq_true_eq, Bool.and_eq_true, UInt32.le_iff_toNat_le] at h
    exact h.elim (·.1) (fun h => Nat.le_trans (by decide) h.1)
  have hd : c.isDigit = true → 48 ≤ c.toNat := by
    intro h
    simp only [Char.isDigit, Bool.and_eq_true, decide_eq_true_eq, ge_iff_le, UInt32.le_iff_toNat_le] at h
    exact h.1
  have hm : isNameStart c = true → 32 ≤ c.toNat ∧ c.toNat ≠ 0xfffe ∧ c.toNat ≠ 0xffff := by
    intro h
    unfold isNameStart at h
    dsimp only at h
    split at h
    · rw [Bool.or_eq_true, beq_iff_eq] at h
      have : 32 ≤ c.toNat := h.elim (fun h => Nat.le_trans (by decide) (ha h)) (by rintro rfl; decide)
      omega
    · simp only [Bool.or_eq_true, Bool.and_eq_true, decide_eq_true_eq, beq_iff_eq, bne_iff_ne, ne_eq] at h
      omega
  have hp : 32 ≤ c.toNat ∧ c.toNat ≠ 0xfffe ∧ c.toNat ≠ 0xffff := by
    unfold isNamePart at h
    simp only [Bool.or_eq_true, Bool.and_eq_true, decide_eq_true_eq, beq_iff_eq] at h
    rcases h with ((((h | ⟨hn, h⟩) | h) | h) | h) | h
    · exact hm h
    · have : 32 ≤ c.toNat := by
        rcases h with (h | rfl) | rfl
        · exact Nat.le_trans (by decide) (hd h)
        · decide
        · decide
      omega
    all_goals
      omega
  have hr : c ≠ '\r' := by
    rintro rfl
    exact absurd hp.1 (by decide)
  unfold isMarkupChar
  simp [hp, hr]

theorem isClean_of_isName (h : isName cs = true) : isClean cs = true := by
  cases cs with
  | nil => cases h
  | cons c cs =>
    rw [isName, Bool.and_eq_true, List.all_eq_true] at h
    rw [isClean, List.all_eq_true]
    intro d hd
    rcases List.mem_cons.mp hd with rfl | hd
    · exact isClean_of_isNamePart (isNamePart_of_isNameStart h.1)
    · exact isClean_of_isNamePart (h.2 d hd)

theorem Written.isClean_chars {w : Written} (h : w.isValid = true) : isClean w.chars = true := by
  obtain ⟨short, base⟩ := w
  rw [isValid, Bool.and_eq_true] at h
  cases short with
  | none => exact isClean_of_isName h.2
  | some short =>
    have hs : isClean short.toList = true := isClean_of_isName h.1
    have hc : (isMarkupChar ':' && ':' != '\r') = true := by decide
    rw [chars, isClean_append, hs, isClean_cons, hc, isClean_of_isName h.2]
    rfl

theorem isClean_escapeData {c : Char} (h : isMarkupChar c = true) : isClean (escapeData c) = true := by
  unfold escapeData
  repeat' split
  all_goals first | decide | simp [isClean, *]

theorem isClean_escapeAttr {c : Char} (h : isMarkupChar c = true) : isClean (escapeAttr c) = true := by
  unfold escapeAttr
  repeat' split
  all_goals first | decide | exact isClean_escapeData h

theorem isClean_addressChars {s : String} (h : isWritable s = true) (hp : isPlainAddress s = true) :
    isClean (addressChars s) = true := by
  have hc : ∀ c ∈ s.toList, (isMarkupChar c && c != '\r') = true := by
    intro c hc
    rw [Bool.and_eq_true, bne_iff_ne]
    refine ⟨List.all_eq_true.mp h c hc, ?_⟩
    rintro rfl
    exact absurd (List.all_eq_true.mp hp _ hc) (by decide)
  have hs : isClean s.toList = true := List.all_eq_true.mpr hc
  have hf : isClean (s.toList.flatMap fun c => if c = '\x22' then "&quot;".toList else [c]) = true := by
    refine isClean_flatMap fun c hm => ?_
    split
    · decide
    · rw [isClean_cons, hc c hm]
      rfl
  unfold addressChars
  dsimp only
  repeat' split
  all_goals simp +decide only [List.cons_append, isClean_cons, isClean_append, hs, hf]

theorem Head.isClean_chars {h : Head} (hl : h.Legible)
    (hp : ∀ d ∈ h.declarations, isPlainAddress d.uri = true) : isClean h.chars = true := by
  have hd : isClean (h.declarations.flatMap Declaration.chars) = true := by
    refine isClean_flatMap fun d hd => ?_
    have hc : d.chars = ' ' :: d.parts.chars ++ '=' :: addressChars d.uri := by
      unfold Declaration.chars Declaration.parts Written.chars
      cases d.short <;> simp
    have hn := Written.isClean_chars (hl.declarations d hd).named
    have hu := isClean_addressChars (hl.declarations d hd).writable (hp d hd)
    simp +decide [hc, isClean_append, isClean_cons, hn, hu]
  have ha : isClean (h.attrs.flatMap Attr.chars) = true := by
    refine isClean_flatMap fun a ha => ?_
    have hn := Written.isClean_chars (hl.attrs a ha).name.isValid
    have hv : isClean (a.value.toList.flatMap escapeAttr) = true := isClean_flatMap fun c hc =>
      isClean_escapeAttr (List.all_eq_true.mp (hl.attrs a ha).writable c hc)
    simp +decide [Attr.chars, Name.written_toList, isClean_append, isClean_cons, hn, hv]
  have hn := Written.isClean_chars hl.name.isValid
  simp +decide [chars, Name.written_toList, isClean_append, isClean_cons, hd, ha, hn]

theorem Leaf.isClean_chars {l : Leaf} (h : l.Legible) : isClean l.chars = true := by
  cases l with
  | text s => exact isClean_flatMap fun c hc => isClean_escapeData (List.all_eq_true.mp h.2 c hc)
  | cdata s =>
    change isClean ("<![CDATA[".toList ++ s.toList ++ "]]>".toList) = true
    rw [isClean_append, isClean_append, h.2]
    decide
  | comment s =>
    change isClean ("<!--".toList ++ s.toList ++ "-->".toList) = true
    rw [isClean_append, isClean_append, h.2]
    decide
  | instruction target body =>
    change isClean ("<?".toList ++ target.toList ++ (if body.isEmpty then [] else ' ' :: body.toList) ++
      "?>".toList) = true
    have hb : isClean (if body.isEmpty then [] else ' ' :: body.toList) = true := by
      split
      · rfl
      · rw [isClean_cons, h.2.2.1]
        decide
    rw [isClean_append, isClean_append, isClean_append, isClean_of_isName h.1, hb]
    decide

theorem isClean_elementChars {h : Head} (hl : h.Legible)
    (hp : ∀ d ∈ h.declarations, isPlainAddress d.uri = true) {body : Option (List Char)}
    (hb : body.all isClean = true) : isClean (elementChars h body) = true := by
  cases body with
  | none =>
    rw [elementChars, isClean_append, Head.isClean_chars hl hp]
    decide
  | some cs =>
    have hcs : isClean cs = true := hb
    have hh := Head.isClean_chars hl hp
    have hn := Written.isClean_chars hl.name.isValid
    simp +decide [elementChars, Name.written_toList, isClean_append, isClean_cons, hh, hcs, hn]

theorem Content.isClean_body {c : Content ι} (h : isClean c.chars = true) : c.body.all isClean = true := by
  cases c <;> first | rfl | exact h

theorem Content.isClean_chars {c : Content ι} (hl : c.condense.Legible) (hp : c.condense.Plain) :
    isClean c.chars = true := by
  induction c with
  | nil => rfl
  | leaf l c ih =>
    rw [condense] at hl hp
    by_cases hempty : l = .text ""
    · rw [if_pos hempty] at hl hp
      rw [hempty]
      exact ih hl hp
    · rw [if_neg hempty] at hl hp
      rw [chars, isClean_append, Leaf.isClean_chars hl.1, ih hl.2.2 hp]
      rfl
  | element id h inner c ihi ihc =>
    have hi := ihi hl.2.1 fun x hx => hp x (by simp [condense, elements, hx])
    rw [chars_element, isClean_append,
      isClean_elementChars hl.1 (hp ⟨(), h, inner.condense⟩ (by simp [condense, elements])) (isClean_body hi),
      ihc hl.2.2 fun x hx => hp x (by simp [condense, elements, hx])]
    rfl

theorem normalizeLines_of_isClean (h : isClean cs = true) : normalizeLines cs = cs := by
  induction cs with
  | nil => rfl
  | cons c cs ih =>
    rw [isClean_cons, Bool.and_eq_true, Bool.and_eq_true, bne_iff_ne] at h
    rw [normalizeLines, ih h.2]
    · exact fun _ k _ => h.1.2 k
    · exact h.1.2

/-! ### Documents -/

namespace Element

def Legible (e : Element ι) : Prop := e.head.Legible ∧ e.inner.Legible

/-- Whether all addresses in the element are written as they are read. -/
def Plain (e : Element ι) : Prop :=
  ∀ x ∈ e.all, ∀ d ∈ x.head.declarations, isPlainAddress d.uri = true

/-- The element with its names bound by the declarations in it, as they are written. -/
def rebind (e : Element ι) : Option (Element ι) := do
  let head ← bind? [] e.head.name.parts e.head.raw
  let inner ← e.inner.rebind [head.frame]
  return ⟨e.id, head, inner⟩

theorem markup_toList (e : Element ι) : e.markup.toList = elementChars e.head e.inner.body := by
  obtain ⟨id, head, inner⟩ := e
  cases inner <;> simp [markup, Content.body]

/-- What can be told from the markup of an element. -/
def condense (e : Element ι) : Element Unit := ⟨(), e.head, e.inner.condense⟩

theorem condense_of_legible {e : Element Unit} (hl : e.Legible) : e.condense = e := by
  rw [condense, Content.condense_of_legible hl.2]

end Element

/-- A text that starts with an element, as its first characters show. -/
def StartsElement (cs : List Char) : Prop := ∃ c more, cs = '<' :: c :: more ∧ isNameStart c = true

theorem StartsElement.expect_none (h : StartsElement cs) {c : Char} (hc : isNameStart c = false)
    (opening : List Char) : expect ('<' :: c :: opening) cs = none := by
  obtain ⟨d, more, rfl, hd⟩ := h
  have hne : c ≠ d := by
    rintro rfl
    rw [hc] at hd
    cases hd
  unfold expect
  simp [List.isPrefixOf, hne]

theorem StartsElement.skipAside (h : StartsElement cs) (fuel : Nat) : skipAside (fuel + 1) cs = some cs := by
  obtain ⟨c, more, rfl, hc⟩ := h
  have hn : c ≠ '?' ∧ c ≠ '!' := by
    constructor <;>
    · rintro rfl
      revert hc
      decide
  rw [Markup.skipAside, skipSpace_of_not_isSpace (by decide)]
  split
  · next k => exact absurd (List.cons.inj (List.cons.inj k).2).1 hn.1
  · next k => exact absurd (List.cons.inj (List.cons.inj k).2).1 hn.2
  · rfl

theorem Element.isClean_markup {e : Element ι} (hl : e.condense.Legible) (hp : e.condense.Plain) :
    isClean e.markup.toList = true := by
  rw [markup_toList]
  exact isClean_elementChars hl.1 (hp e.condense List.mem_cons_self)
    (Content.isClean_body (Content.isClean_chars hl.2 fun x hx => hp x (List.mem_cons_of_mem _ hx)))

/-- An element is read from its markup, with its names bound anew, if they can be. -/
theorem read_condense {e : Element ι} (hl : e.condense.Legible) (hp : e.condense.Plain)
    (hd : e.condense.inner.depth < maxDepth) : read (.text e.markup) = e.condense.rebind := by
  have hph : ∀ d ∈ e.head.declarations, isPlainAddress d.uri = true := hp e.condense List.mem_cons_self
  have hpi : e.inner.condense.Plain := fun x hx => hp x (List.mem_cons_of_mem _ hx)
  have hclean := Element.isClean_markup hl hp
  have hs : StartsElement e.markup.toList := by
    rw [Element.markup_toList]
    exact elementChars_cons hl.1 e.inner.body
  have hx : startsDeclaration e.markup.toList = false := by
    unfold startsDeclaration
    rw [show expect "<?xml".toList e.markup.toList = none from hs.expect_none (by decide) "xml".toList]
  have hread : readElement (e.markup.toList.length + 1) maxDepth [] e.markup.toList =
      e.condense.rebind.map fun e => (e, []) := by
    have hlen := length_elementChars e.head e.inner
    rw [← Element.markup_toList] at hlen
    obtain ⟨fuel, hf⟩ : ∃ k, e.markup.toList.length = k + 1 := ⟨e.markup.toList.length - 1, by omega⟩
    have hinner : ∀ head, bind? [] e.head.name.parts e.head.raw = some head →
        ∀ rest, readContent (fuel + 1) 255 [head.frame] (e.inner.chars ++ '<' :: '/' :: rest) =
          (e.inner.condense.rebind [head.frame]).map fun c => (c, '<' :: '/' :: rest) := fun head _ =>
      readContent_chars hl.2 hpi (Nat.le_of_lt_succ hd) (by omega)
    have hhead : e.head.Legible := hl.1
    have he := readElement_body hhead hph hinner []
    rw [← Element.markup_toList, List.append_nil] at he
    rw [hf, Element.rebind, Element.condense]
    refine he.trans ?_
    cases bind? [] e.head.name.parts e.head.raw with
    | none => rfl
    | some head => cases hi : e.inner.condense.rebind [head.frame] <;> simp [hi]
  have hmark : Source.dropMark e.markup.toList = e.markup.toList := by
    obtain ⟨c, more, hc, -⟩ := hs
    rw [hc]
    rfl
  have hchars : readChars e.markup.toList = e.condense.rebind := by
    have hall : e.markup.toList.all isMarkupChar = true := by
      rw [List.all_eq_true]
      intro c hc
      exact (Bool.and_eq_true _ _ ▸ List.all_eq_true.mp hclean c hc).1
    unfold readChars
    rw [hall, normalizeLines_of_isClean hclean]
    have hd : skipDoctype e.markup.toList = some e.markup.toList := by
      unfold skipDoctype
      rw [show expect "<!DOCTYPE".toList e.markup.toList = none from
        hs.expect_none (by decide) "DOCTYPE".toList]
    have he : skipAside (e.markup.toList.length + 1) [] = some [] := rfl
    simp [hx, hs.skipAside, hd, hread]
    cases e.condense.rebind with
    | none => rfl
    | some e' => simp [he]
  simp [read, Source.chars?, chars_eq, hmark, encodingNamed, hx, hchars]

/-- An element that can be told from its markup is read as it is. -/
theorem read_markup {e : Element Unit} (hl : e.Legible) (hp : e.Plain) (hd : e.inner.depth < maxDepth) :
    read (.text e.markup) = e.rebind := by
  have hself := Element.condense_of_legible hl
  have hread : read (.text e.markup) = e.condense.rebind := read_condense (by rwa [hself]) (by rwa [hself]) (by rwa [hself])
  rw [hread, hself]

end LiveSvg.Markup
