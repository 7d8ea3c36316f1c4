import LiveSvg.Proofs.Members
import LiveSvg.Proofs.Styling
import LiveSvg.Proofs.Trees
import Mathlib.Data.List.DropRight
/-!
Styles read and written. A style that has been read, or changed by declarations with proper names and values,
reads back from its text as it was, order included. So setting one declaration of a drawing's style, or taking
one away, leaves all others as they were.
-/

namespace LiveSvg

namespace Text

/-! ### Blanks at the ends -/

/-- Whether a text has no blank at either end. -/
def Unpadded (cs : List Char) : Prop :=
  (∀ c, cs.head? = some c → isBlank c = false) ∧ ∀ c, cs.getLast? = some c → isBlank c = false

variable {cs ds : List Char} {mark : Char}

theorem unpadded_of_ends (hhead : cs.head?.all (!isBlank ·) = true) (hlast : cs.getLast?.all (!isBlank ·) = true) :
    Unpadded cs := by
  have hblank : ∀ {o : Option Char}, o.all (!isBlank ·) = true → ∀ c, o = some c → isBlank c = false := by
    rintro o h c rfl
    simpa using h
  exact ⟨hblank hhead, hblank hlast⟩

theorem trim_of_unpadded (h : Unpadded cs) : trim cs = cs := by
  obtain ⟨hhead, hlast⟩ := h
  have hleft : cs.dropWhile isBlank = cs := by
    cases cs with
    | nil => rfl
    | cons c cs => exact List.dropWhile_cons_of_neg (by simp [hhead c rfl])
  have hright : cs.rdropWhile isBlank = cs := by
    apply List.rdropWhile_eq_self_iff.mpr
    intro hne
    rw [hlast _ (List.getLast?_eq_getLast_of_ne_nil hne)]
    exact Bool.false_ne_true
  rw [trim, hleft]
  exact hright

theorem unpadded_trim (cs : List Char) : Unpadded (trim cs) := by
  have htrim : trim cs = (cs.dropWhile isBlank).rdropWhile isBlank := rfl
  rw [htrim]
  constructor
  · intro c hc
    have hne : (cs.dropWhile isBlank).rdropWhile isBlank ≠ [] := by
      intro h
      rw [h] at hc
      cases hc
    have hhead := (List.rdropWhile_prefix isBlank (l := cs.dropWhile isBlank)).head hne
    rw [List.head?_eq_some_head hne, Option.some.injEq] at hc
    rw [← hc, hhead]
    simpa using List.head_dropWhile_not isBlank (l := cs) _
  · intro c hc
    have hne : (cs.dropWhile isBlank).rdropWhile isBlank ≠ [] := by
      intro h
      rw [h] at hc
      cases hc
    rw [List.getLast?_eq_getLast_of_ne_nil hne, Option.some.injEq] at hc
    rw [← hc]
    simpa using List.rdropWhile_last_not isBlank _ hne

theorem trim_blank {c : Char} (hc : isBlank c = true) (cs : List Char) : trim (c :: cs) = trim cs := by
  rw [trim, trim, List.dropWhile_cons_of_pos hc]

/-! ### Parts between marks -/

theorem splitAt_eq_singleton (h : mark ∉ cs) : splitAt mark cs = [cs] := by
  induction cs with
  | nil => rfl
  | cons c cs ih =>
    rw [List.mem_cons, not_or] at h
    exact splitAt_other (Ne.symm h.1) (ih h.2)

theorem splitAt_append_mark (h : mark ∉ cs) (ds : List Char) :
    splitAt mark (cs ++ mark :: ds) = cs :: splitAt mark ds := by
  induction cs with
  | nil => rw [List.nil_append, splitAt_cons, if_pos rfl]
  | cons c cs ih =>
    rw [List.mem_cons, not_or] at h
    exact splitAt_other (Ne.symm h.1) (ih h.2)

end Text

namespace Drawing

open Markup
open Text (Unpadded)

/-! ### Declarations -/

/-- Whether a text can be the name of a declaration. -/
structure IsStyleName (s : String) : Prop where
  nonempty : s.toList ≠ []
  unpadded : Unpadded s.toList
  colon : ':' ∉ s.toList
  semicolon : ';' ∉ s.toList

/-- Whether a text can be the value of a declaration. -/
structure IsStyleValue (s : String) : Prop where
  unpadded : Unpadded s.toList
  semicolon : ';' ∉ s.toList

namespace Style

variable {style : Style} {name value n : String} {cs : List Char}

/-- What a style becomes with what a part of a text declares. -/
def declare (style : Style) (part : List Char) : Style :=
  match declaration? part with
  | some (name, value) => Value.Members.set style name value
  | none => style

theorem parse_eq (s : String) : parse s = (Text.splitAt ';' s.toList).foldl declare [] := rfl

/-- What is declared has a proper name and a proper value. -/
theorem declaration?_fits (hs : ';' ∉ cs) (h : declaration? cs = some (name, value)) :
    IsStyleName name ∧ IsStyleValue value := by
  obtain ⟨⟨before, after⟩, hsplit, hd⟩ := Option.bind_eq_some_iff.mp h
  obtain ⟨rfl, hcolon⟩ := splitFirst_some hsplit
  rw [List.mem_append, List.mem_cons, not_or, not_or] at hs
  dsimp only at hd
  split at hd
  · cases hd
  · next hne =>
    cases hd
    refine ⟨⟨?_, ?_, ?_, ?_⟩, ⟨?_, ?_⟩⟩ <;> rw [String.toList_ofList]
    · exact fun he => hne (List.isEmpty_iff.mpr he)
    · exact Text.unpadded_trim before
    · exact fun hm => hcolon (mem_of_mem_trim hm)
    · exact fun hm => hs.1 (mem_of_mem_trim hm)
    · exact Text.unpadded_trim after
    · exact fun hm => hs.2.2 (mem_of_mem_trim hm)

/-- A proper declaration as it is written. -/
def written (p : String × String) : List Char := p.1.toList ++ ':' :: ' ' :: p.2.toList

theorem declaration?_written (hn : IsStyleName name) (hv : IsStyleValue value) :
    declaration? (written (name, value)) = some (name, value) := by
  have hname : Text.trim name.toList = name.toList := Text.trim_of_unpadded hn.unpadded
  have hvalue : Text.trim (' ' :: value.toList) = value.toList := by
    rw [Text.trim_blank (by decide), Text.trim_of_unpadded hv.unpadded]
  have hne : name ≠ "" := by
    rintro rfl
    exact hn.nonempty rfl
  unfold declaration? written
  rw [splitFirst_append hn.colon]
  simp [hname, hvalue, hne]

theorem declaration?_blank (cs : List Char) : declaration? (' ' :: cs) = declaration? cs := by
  unfold declaration?
  have hsplit : Text.splitFirst ':' (' ' :: cs) =
      (Text.splitFirst ':' cs).map fun parts => (' ' :: parts.1, parts.2) := rfl
  rw [hsplit]
  cases h : Text.splitFirst ':' cs with
  | none => rfl
  | some parts =>
    obtain ⟨before, after⟩ := parts
    simp [Text.trim_blank (show Text.isBlank ' ' = true by decide)]

theorem declare_written (style : Style) (hn : IsStyleName name) (hv : IsStyleValue value) :
    declare style (written (name, value)) = Value.Members.set style name value := by
  rw [declare, declaration?_written hn hv]

/-! ### Styles that read back -/

/-- A style that names nothing twice, with proper names and values only. -/
structure Tidy (style : Style) : Prop where
  distinct : (style.map (·.1)).Nodup
  fits : ∀ p ∈ style, IsStyleName p.1 ∧ IsStyleValue p.2

theorem Tidy.set (h : style.Tidy) (hn : IsStyleName name) (hv : IsStyleValue value) :
    Tidy (Value.Members.set style name value) where
  distinct := by
    rw [Value.Members.keys_set]
    split
    · exact h.distinct
    · next hmem => exact List.Nodup.append h.distinct (List.nodup_singleton _) (by simpa using hmem)
  fits := by
    induction style with
    | nil => exact List.forall_mem_singleton.mpr ⟨hn, hv⟩
    | cons p style ih =>
      obtain ⟨hp, hrest⟩ := List.forall_mem_cons.mp h.fits
      have hdistinct := (List.nodup_cons.mp h.distinct).2
      rw [Value.Members.set]
      split
      · exact List.forall_mem_cons.mpr ⟨⟨hp.1, hv⟩, hrest⟩
      · exact List.forall_mem_cons.mpr ⟨hp, ih ⟨hdistinct, hrest⟩⟩

theorem Tidy.erase (h : style.Tidy) (name : String) : Tidy (Value.Members.erase style name) where
  distinct := h.distinct.sublist (List.filter_sublist.map _)
  fits p hp := h.fits p (List.mem_of_mem_filter hp)

theorem tidy_parse (s : String) : (parse s).Tidy := by
  rw [parse_eq]
  refine List.foldlRecOn _ _ ⟨List.nodup_nil, fun p hp => by cases hp⟩ fun style hstyle part hpart => ?_
  unfold declare
  split
  · next name value hd =>
    obtain ⟨hn, hv⟩ := declaration?_fits (Text.not_mem_of_mem_splitAt hpart) hd
    exact hstyle.set hn hv
  · exact hstyle

/-- The parts of a text after a blank declare what they declare without it. -/
theorem foldl_declare_blank (style : Style) (cs : List Char) :
    (Text.splitAt ';' (' ' :: cs)).foldl declare style = (Text.splitAt ';' cs).foldl declare style := by
  obtain ⟨part, parts, h⟩ := List.exists_cons_of_ne_nil (Text.splitAt_ne_nil ';' cs)
  rw [Text.splitAt_other (by decide) h, h, List.foldl_cons, List.foldl_cons]
  unfold declare
  rw [declaration?_blank]

theorem text_cons (p : String × String) (style : Style) :
    (text (p :: style)).toList = written p ++ (if style = [] then [] else ';' :: ' ' :: (text style).toList) := by
  have hp : (p.1 ++ ": " ++ p.2).toList = written p := by
    simp [written, String.toList_append]
  unfold text
  cases style with
  | nil =>
    rw [List.map_cons, List.map_nil, String.intercalate_singleton, if_pos rfl, List.append_nil]
    exact hp
  | cons q style =>
    rw [List.map_cons, List.map_cons, String.intercalate_cons_cons, if_neg (List.cons_ne_nil _ _),
      String.toList_append, String.toList_append]
    rw [hp, List.append_assoc]
    rfl

/-- The text of a style declares its declarations, one after the other. -/
theorem foldl_declare_text (h : ∀ p ∈ style, IsStyleName p.1 ∧ IsStyleValue p.2) (start : Style) :
    (Text.splitAt ';' (text style).toList).foldl declare start =
      style.foldl (fun s p => Value.Members.set s p.1 p.2) start := by
  induction style generalizing start with
  | nil => rfl
  | cons p style ih =>
    obtain ⟨⟨hn, hv⟩, hrest⟩ := List.forall_mem_cons.mp h
    obtain ⟨name, value⟩ := p
    have hfree : ';' ∉ written (name, value) := by
      simp [written, hn.semicolon, hv.semicolon]
    rw [text_cons]
    split
    · next he =>
      subst he
      rw [List.append_nil, Text.splitAt_eq_singleton hfree]
      exact declare_written start hn hv
    · rw [Text.splitAt_append_mark hfree, List.foldl_cons, foldl_declare_blank, ih hrest, declare_written start hn hv]
      rfl

theorem foldl_set_of_nodup (start : Style) (h : ((start ++ style).map (·.1)).Nodup) :
    style.foldl (fun s p => Value.Members.set s p.1 p.2) start = start ++ style := by
  induction style generalizing start with
  | nil => rw [List.append_nil]; rfl
  | cons p style ih =>
    obtain ⟨name, value⟩ := p
    have hnew : name ∉ start.map (·.1) := by
      intro hm
      rw [List.map_append, List.map_cons] at h
      exact (List.nodup_append.mp h).2.2 _ hm _ List.mem_cons_self rfl
    rw [List.foldl_cons, Value.Members.set_of_not_mem hnew, ih, List.append_assoc]
    · rfl
    · rw [List.append_assoc]
      exact h

/-- A tidy style reads back from its text, order included. -/
theorem Tidy.parse_text (h : style.Tidy) : parse style.text = style := by
  rw [parse_eq, foldl_declare_text h.fits, foldl_set_of_nodup [] h.distinct, List.nil_append]

end Style

/-- Styles that can be read, or come about by setting and removing proper declarations. -/
inductive Style.Built : Style → Prop where
  | parse (s : String) : Built (Style.parse s)
  | set {style : Style} {name value : String} : Built style → IsStyleName name → IsStyleValue value →
      Built (style.put name (some value))
  | remove {style : Style} (name : String) : Built style → Built (style.put name none)

theorem Style.Built.tidy {style : Style} (h : style.Built) : style.Tidy := by
  induction h with
  | parse s => exact Style.tidy_parse s
  | set _ hn hv ih => exact ih.set hn hv
  | remove name _ ih => exact ih.erase name

theorem Style.get?_put (style : Style) (name : String) (value : Option String) (n : String) :
    (style.put name value).get? n = if name = n then value else style.get? n := by
  cases value with
  | some v => exact Value.Members.get?_set name v
  | none =>
    rw [Style.put, Style.get?, Value.Members.erase]
    have hfilter := Value.Members.get?_filter (fun k => k ≠ name) style n
    rw [hfilter]
    by_cases h : name = n
    · simp [h]
    · simp [h, Ne.symm h, Style.get?]

/-- The declarations beside one do not change when that one is set. -/
theorem Style.erase_set (style : Style) (name value : String) :
    (style.put name (some value)).put name none = style.put name none := by
  induction style with
  | nil => simp [Style.put, Value.Members.set, Value.Members.erase]
  | cons p style ih =>
    obtain ⟨k, v⟩ := p
    simp only [Style.put, Value.Members.erase] at ih ⊢
    by_cases hk : k = name
    · rw [Value.Members.set, if_pos hk, List.filter_cons_of_neg (by simp [hk]), List.filter_cons_of_neg (by simp [hk])]
    · rw [Value.Members.set, if_neg hk, List.filter_cons_of_pos (by simp [hk]), List.filter_cons_of_pos (by simp [hk]), ih]

/-! ### The style of a drawing -/

variable {d d' : Drawing} {style : Style} {name value base : String}

/-- Whether two drawings have the same root apart from its style. -/
structure SameButStyle (d d' : Drawing) : Prop where
  attr : ∀ base, base ≠ "style" → d'.rootAttr? base = d.rootAttr? base
  inner : d'.root.inner = d.root.inner

theorem root_retag (d : Drawing) (g : Head → Head) :
    (d.retag d.root.id g).root = ⟨d.root.id, g d.root.head, d.root.inner⟩ := if_pos rfl

theorem putRoot_style_ok (h : d.putRoot "style" value = .ok d') :
    d'.rootAttr? "style" = some value ∧ SameButStyle d d' := by
  obtain ⟨g, generated, hg, rfl⟩ := put_ok h
  have hroot : ∀ base, rootAttr? { d.retag d.root.id g with generated } base =
      attrOf? (g d.root.head) ⟨none, base⟩ := by
    intro base
    rw [rootAttr?, root_retag]
  refine ⟨?_, ?_, ?_⟩
  · rw [hroot, hg, if_pos rfl]
  · intro base hb
    rw [hroot, hg, if_neg (by simpa using hb)]
    rfl
  · rw [root_retag]

theorem erase_style (d : Drawing) :
    (d.erase d.root.id ⟨none, "style"⟩).rootAttr? "style" = none ∧
      SameButStyle d (d.erase d.root.id ⟨none, "style"⟩) := by
  have hroot : ∀ base, (d.erase d.root.id ⟨none, "style"⟩).rootAttr? base =
      ((d.root.head.attrs.filter fun a => !(⟨none, "style"⟩ : Key).names a.name).find? fun a =>
        (⟨none, base⟩ : Key).names a.name).map (·.value) := by
    intro base
    rw [rootAttr?, erase, attrOf?, update_root_head]
  refine ⟨?_, ?_, ?_⟩
  · rw [hroot, Option.map_eq_none_iff, List.find?_eq_none]
    intro a ha
    simpa using List.of_mem_filter ha
  · intro base hb
    rw [hroot, List.find?_filter, rootAttr?, attrOf?]
    congr 2
    funext a
    cases hn : (⟨none, base⟩ : Key).names a.name with
    | false => simp
    | true =>
      have hkey := Key.names_iff.mp hn
      have hne : (⟨none, "style"⟩ : Key).names a.name = false := by
        rw [Bool.eq_false_iff]
        intro hs
        have hkeys := (Key.names_iff.mp hs).trans hkey.symm
        exact hb (Key.mk.inj hkeys).2.symm
      simp [hne]
  · unfold erase
    rw [root_retag]

/-- A tidy style that markup can carry is written to the root as it is. -/
theorem putStyle_ok (ht : style.Tidy) (hc : style.Carried) :
    ∃ d', d.putStyle style = .ok d' ∧ d'.style = style ∧ SameButStyle d d' ∧
      d'.rootAttr? "style" = if style = [] then none else some style.text := by
  unfold putStyle
  cases style with
  | nil =>
    obtain ⟨hnone, hsame⟩ := erase_style d
    refine ⟨_, rfl, ?_, hsame, hnone⟩
    unfold Drawing.style
    rw [hnone]
  | cons p style =>
    have hok : ∃ d', d.putRoot "style" (Style.text (p :: style)) = .ok d' := by
      unfold putRoot put
      rw [hc.text]
      exact ⟨_, rfl⟩
    obtain ⟨d', hd'⟩ := hok
    obtain ⟨hattr, hsame⟩ := putRoot_style_ok hd'
    refine ⟨d', hd', ?_, hsame, hattr⟩
    unfold Drawing.style
    rw [hattr]
    exact ht.parse_text

theorem tidy_style (d : Drawing) : d.style.Tidy := by
  unfold Drawing.style
  split
  · exact Style.tidy_parse _
  · exact ⟨List.nodup_nil, fun p hp => by cases hp⟩

/-- A style in which something cannot be carried is refused. -/
theorem putStyle_refused (h : isCarried style.text = false) : d.putStyle style = .error notCarried := by
  unfold putStyle putRoot put
  cases style with
  | nil => cases h
  | cons p style =>
    rw [h]
    rfl

theorem Style.carried_of_text (h : isCarried style.text = true) : style.Carried := by
  induction style with
  | nil => exact fun p hp => by cases hp
  | cons p style ih =>
    unfold isCarried at h
    rw [text_cons, List.all_append, Bool.and_eq_true] at h
    obtain ⟨hp, hrest⟩ := h
    rw [written, List.all_append, List.all_cons, List.all_cons] at hp
    simp only [Bool.and_eq_true] at hp
    refine List.forall_mem_cons.mpr ⟨⟨hp.1, hp.2.2.2⟩, ?_⟩
    split at hrest
    · next he =>
      subst he
      exact fun q hq => by cases hq
    · rw [List.all_cons, List.all_cons, Bool.and_eq_true, Bool.and_eq_true] at hrest
      exact ih hrest.2.2

theorem Style.mem_set (style : Style) (name value : String) : (name, value) ∈ Value.Members.set style name value := by
  apply Value.Members.mem_of_get?
  rw [Value.Members.get?_set, if_pos rfl]

/-- Setting or removing a declaration once more changes nothing. -/
theorem Style.put_put (style : Style) (name : String) (value : Option String) :
    (style.put name value).put name value = style.put name value := by
  cases value with
  | none =>
    unfold Style.put Value.Members.erase
    simp [List.filter_filter]
  | some v => exact Value.Members.set_set style name v v

/-- Setting a declaration of a style changes that one alone, and so does removing one. Where markup cannot carry
the name or the value, nothing is set. Styles that can be read or come about in this way read back from
their text. -/
theorem style_changes_one (hd : ∀ s, d.rootAttr? "style" = some s → isCarried s = true)
    (hn : IsStyleName name) (hv : IsStyleValue value) :
    (isCarried name = true ∧ isCarried value = true →
      ∃ d', d.setStyle name (some value) = .ok d' ∧
        (∀ n, d'.style.get? n = if name = n then some value else d.style.get? n) ∧
        d'.style.put name none = d.style.put name none ∧ SameButStyle d d' ∧
        ∃ d'', d'.setStyle name (some value) = .ok d'' ∧ d''.rootAttr? "style" = d'.rootAttr? "style") ∧
    (¬ (isCarried name = true ∧ isCarried value = true) → d.setStyle name (some value) = .error notCarried) ∧
    (∃ d', d.setStyle name none = .ok d' ∧
      (∀ n, d'.style.get? n = if name = n then none else d.style.get? n) ∧
      d'.style = d.style.put name none ∧ (d'.style = [] → d'.rootAttr? "style" = none) ∧ SameButStyle d d' ∧
      ∃ d'', d'.setStyle name none = .ok d'' ∧ d''.rootAttr? "style" = d'.rootAttr? "style") ∧
    ∀ style : Style, style.Built → Style.parse style.text = style := by
  have hcarried : d.style.Carried := by
    unfold Drawing.style
    split
    · next s hs => exact Style.parse_carried (hd s hs)
    · exact fun p hp => by cases hp
  have again : ∀ {value : Option String} {d' : Drawing}, (d.style.put name value).Tidy →
      (d.style.put name value).Carried → d'.style = d.style.put name value →
      d'.rootAttr? "style" = (if d.style.put name value = [] then none else some (d.style.put name value).text) →
      ∃ d'', d'.setStyle name value = .ok d'' ∧ d''.rootAttr? "style" = d'.rootAttr? "style" := by
    intro value d' ht hc hstyle hattr
    obtain ⟨d'', hset, -, -, hattr'⟩ := putStyle_ok (d := d') ht hc
    refine ⟨d'', ?_, hattr'.trans hattr.symm⟩
    rw [setStyle, hstyle, Style.put_put]
    exact hset
  refine ⟨?_, ?_, ?_, fun style hs => hs.tidy.parse_text⟩
  · rintro ⟨hcn, hcv⟩
    have ht : (d.style.put name (some value)).Tidy := d.tidy_style.set hn hv
    have hc : (d.style.put name (some value)).Carried := hcarried.set hcn hcv
    obtain ⟨d', hset, hstyle, hsame, hattr⟩ := putStyle_ok (d := d) ht hc
    refine ⟨d', hset, ?_, ?_, hsame, again ht hc hstyle hattr⟩
    · intro n
      rw [hstyle, Style.get?_put]
    · rw [hstyle, Style.erase_set]
  · intro h
    apply putStyle_refused
    rw [Bool.eq_false_iff]
    intro hc
    exact h (Style.carried_of_text hc _ (Style.mem_set d.style name value))
  · have ht : (d.style.put name none).Tidy := d.tidy_style.erase name
    have hc : (d.style.put name none).Carried := fun p hp => hcarried p (List.mem_of_mem_filter hp)
    obtain ⟨d', hset, hstyle, hsame, hattr⟩ := putStyle_ok (d := d) ht hc
    refine ⟨d', hset, ?_, hstyle, ?_, hsame, again ht hc hstyle hattr⟩
    · intro n
      rw [hstyle, Style.get?_put]
    · intro he
      rw [hattr, if_pos (hstyle ▸ he)]

/-- A drawing whose root has a style with a bit of everything in it. -/
def styled : Drawing :=
  { root := ⟨0, ⟨⟨none, "svg"⟩, [], [⟨.plain "style", ";fill: a:b ;; stroke;fill:c; x :"⟩]⟩, .nil⟩, next := 1 }

theorem style_changes_one_styled :
    (∃ d', styled.setStyle "x" (some "y: z") = .ok d' ∧
      ∀ n, d'.style.get? n = if "x" = n then some "y: z" else styled.style.get? n) ∧
    ∃ d', styled.setStyle "x" none = .ok d' ∧ d'.style = [("fill", "c")] := by
  have hd : ∀ s, styled.rootAttr? "style" = some s → isCarried s = true := by
    intro s hs
    cases hs
    decide
  have hn : IsStyleName "x" := ⟨by decide, Text.unpadded_of_ends rfl rfl, by decide, by decide⟩
  have hv : IsStyleValue "y: z" := ⟨Text.unpadded_of_ends rfl rfl, by decide⟩
  obtain ⟨hset, -, hremove, -⟩ := style_changes_one hd hn hv
  obtain ⟨d', hok, hget, -⟩ := hset ⟨by decide, by decide⟩
  obtain ⟨e', hok', -, hstyle, -⟩ := hremove
  refine ⟨⟨d', hok, hget⟩, e', hok', ?_⟩
  rw [hstyle]
  decide

/-- A control character is no value that a style can be given. -/
theorem control_refused :
    (IsStyleName "fill" ∧ IsStyleValue "\x01") ∧ styled.setStyle "fill" (some "\x01") = .error notCarried := by
  refine ⟨⟨⟨by decide, Text.unpadded_of_ends rfl rfl, by decide, by decide⟩, Text.unpadded_of_ends rfl rfl, by decide⟩, ?_⟩
  rfl

end Drawing

end LiveSvg
