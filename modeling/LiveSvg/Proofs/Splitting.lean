import LiveSvg.Markup.Reader
import LiveSvg.Markup.Writer
/-!
Cutting texts of markup into names, values and what stands between markers: what has been cut off is
cut off again wherever it is written with something else after it.
-/

namespace LiveSvg.Markup

open Text

variable {c : Char} {cs ds rest marker : List Char}

/-! ### Markers -/

theorem splitFirst_append (h : c ∉ cs) (rest : List Char) :
    splitFirst c (cs ++ c :: rest) = some (cs, rest) := by
  induction cs with
  | nil => simp [splitFirst]
  | cons d cs ih =>
    rw [List.cons_append, splitFirst, if_neg (Ne.symm (List.ne_of_not_mem_cons h)),
      ih (List.not_mem_of_not_mem_cons h)]
    rfl

theorem splitFirst_some (h : splitFirst c cs = some (ds, rest)) : cs = ds ++ c :: rest ∧ c ∉ ds := by
  induction cs generalizing ds with
  | nil => cases h
  | cons d cs ih =>
    rw [splitFirst] at h
    split at h
    · cases h
      exact ⟨by simp [*], List.not_mem_nil⟩
    · obtain ⟨⟨before, after⟩, hs, he⟩ := Option.map_eq_some_iff.mp h
      cases he
      obtain ⟨rfl, hn⟩ := ih hs
      exact ⟨rfl, List.not_mem_cons_of_ne_of_not_mem (Ne.symm ‹_›) hn⟩

/-- A text in which a marker does not begin before its end, where the marker follows. -/
def Precedes (cs marker : List Char) : Prop := splitMarker marker (cs ++ marker) = some (cs, [])

/-- What a marker has been found behind is found again, whatever follows. -/
theorem splitMarker_append (h : splitMarker marker ds = some (cs, rest)) (more : List Char) :
    splitMarker marker (ds ++ more) = some (cs, rest ++ more) := by
  have hlen : ∀ {ds cs rest}, splitMarker marker ds = some (cs, rest) → marker.length ≤ ds.length := by
    intro ds
    induction ds with
    | nil =>
      intro cs rest h
      rw [splitMarker] at h
      split at h
      · simp_all
      · cases h
    | cons d ds ih =>
      intro cs rest h
      rw [splitMarker] at h
      split at h
      · rename_i hp
        exact (List.isPrefixOf_iff_prefix.mp hp).length_le
      · obtain ⟨⟨before, after⟩, hs, -⟩ := Option.map_eq_some_iff.mp h
        exact Nat.le_succ_of_le (ih hs)
  induction ds generalizing cs with
  | nil =>
    rw [splitMarker] at h
    split at h
    · rename_i hm
      obtain rfl := List.isEmpty_iff.mp hm
      cases h
      cases more with
      | nil => rfl
      | cons => simp [splitMarker]
    · cases h
  | cons d ds ih =>
    rw [splitMarker] at h
    rw [List.cons_append, splitMarker]
    split at h
    · rename_i hp
      cases h
      obtain ⟨tail, ht⟩ := List.isPrefixOf_iff_prefix.mp hp
      rw [if_pos, ← List.cons_append, ← ht]
      · simp
      · rw [← List.cons_append, ← ht, List.append_assoc]
        exact List.isPrefixOf_iff_prefix.mpr (List.prefix_append _ _)
    · rename_i hp
      obtain ⟨⟨before, after⟩, hs, he⟩ := Option.map_eq_some_iff.mp h
      cases he
      rw [if_neg, ih hs]
      · rfl
      · -- the marker would lie within what has been searched
        intro k
        refine hp (List.isPrefixOf_iff_prefix.mpr ?_)
        exact List.prefix_of_prefix_length_le (List.isPrefixOf_iff_prefix.mp k)
          (List.prefix_append (d :: ds) more) (Nat.le_succ_of_le (hlen hs))

theorem Precedes.split (h : Precedes cs marker) (rest : List Char) :
    splitMarker marker (cs ++ (marker ++ rest)) = some (cs, rest) := by
  rw [← List.append_assoc]
  exact splitMarker_append h rest

theorem splitMarker_some (h : splitMarker marker ds = some (cs, rest)) :
    ds = cs ++ (marker ++ rest) ∧ Precedes cs marker := by
  unfold Precedes
  induction ds generalizing cs with
  | nil =>
    rw [splitMarker] at h
    split at h
    · rename_i hm
      obtain rfl := List.isEmpty_iff.mp hm
      cases h
      exact ⟨rfl, by simp [splitMarker]⟩
    · cases h
  | cons d ds ih =>
    rw [splitMarker] at h
    split at h
    · rename_i hp
      cases h
      obtain ⟨tail, ht⟩ := List.isPrefixOf_iff_prefix.mp hp
      refine ⟨by rw [← ht]; simp, ?_⟩
      cases marker with
      | nil => rfl
      | cons m marker => simp [splitMarker]
    · rename_i hp
      obtain ⟨⟨before, after⟩, hs, he⟩ := Option.map_eq_some_iff.mp h
      cases he
      obtain ⟨rfl, hm⟩ := ih hs
      refine ⟨rfl, ?_⟩
      rw [List.cons_append, splitMarker, if_neg, hm]
      · rfl
      · intro k
        refine hp (List.isPrefixOf_iff_prefix.mpr ?_)
        have hk := List.isPrefixOf_iff_prefix.mp k
        refine hk.trans ?_
        rw [← List.append_assoc, ← List.cons_append, ← List.cons_append]
        exact List.prefix_append _ _

theorem Precedes.of_cons (h : Precedes (c :: cs) marker) : Precedes cs marker := by
  unfold Precedes at h
  rw [List.cons_append, splitMarker] at h
  split at h
  · cases h
  · obtain ⟨⟨before, after⟩, hs, he⟩ := Option.map_eq_some_iff.mp h
    cases he
    exact hs

theorem Precedes.of_append (h : Precedes (cs ++ ds) marker) : Precedes ds marker := by
  induction cs with
  | nil => exact h
  | cons c cs ih => exact ih h.of_cons

/-- A character that no marker begins with may stand before. -/
theorem Precedes.cons {m : Char} (h : Precedes cs (m :: marker)) (hc : c ≠ m) :
    Precedes (c :: cs) (m :: marker) := by
  unfold Precedes at h ⊢
  rw [List.cons_append, splitMarker, if_neg (by simp [List.isPrefixOf, hc.symm]), h]
  rfl

/-- A marker with a character that does not occur is not found. -/
theorem splitMarker_none (hc : c ∈ marker) (h : c ∉ cs) : splitMarker marker cs = none := by
  induction cs with
  | nil =>
    rw [splitMarker, if_neg]
    intro k
    rw [List.isEmpty_iff.mp k] at hc
    cases hc
  | cons d cs ih =>
    rw [splitMarker, if_neg, ih (fun k => h (List.mem_cons_of_mem _ k))]
    · rfl
    · intro k
      exact h ((List.isPrefixOf_iff_prefix.mp k).subset hc)

theorem expect_append (opening rest : List Char) : expect opening (opening ++ rest) = some rest := by
  unfold expect
  rw [if_pos (List.isPrefixOf_iff_prefix.mpr (List.prefix_append _ _)), List.drop_left]

theorem expect_some {opening : List Char} (h : expect opening cs = some rest) : cs = opening ++ rest := by
  unfold expect at h
  split at h
  · rename_i hp
    obtain ⟨tail, rfl⟩ := List.isPrefixOf_iff_prefix.mp hp
    simpa using h
  · cases h

/-! ### References -/

variable {plain : Char → Char}

theorem resolve_reference (name : List Char) {d : Char} (h : ';' ∉ name) (hd : reference? name = some d)
    (rest : List Char) :
    resolve plain none ('&' :: (name ++ ';' :: rest)) = (resolve plain none rest).map (d :: ·) := by
  have hp : ∀ done : List Char, resolve plain (some done) (name ++ ';' :: rest) =
      (reference? (done.reverse ++ name)).bind fun d => (resolve plain none rest).map (d :: ·) := by
    clear hd
    induction name with
    | nil =>
      intro done
      rw [List.nil_append, resolve, List.append_nil, if_pos rfl]
      cases reference? done.reverse <;> cases resolve plain none rest <;> rfl
    | cons c name ih =>
      intro done
      rw [List.cons_append, resolve, if_neg (Ne.symm (List.ne_of_not_mem_cons h)), ih (List.not_mem_of_not_mem_cons h)]
      simp
  rw [resolve, if_pos rfl, hp, List.reverse_nil, List.nil_append, hd]
  rfl

theorem resolve_plain (hc : c ≠ '&') (rest : List Char) :
    resolve plain none (c :: rest) = (resolve plain none rest).map (plain c :: ·) := by
  rw [resolve, if_neg hc]
  cases resolve plain none rest <;> rfl

theorem resolve_escapeData (hp : plain c = c) (rest : List Char) :
    resolve plain none (escapeData c ++ rest) = (resolve plain none rest).map (c :: ·) := by
  unfold escapeData
  split
  · subst c
    exact resolve_reference ['l', 't'] (by decide) rfl rest
  · split
    · subst c
      exact resolve_reference ['g', 't'] (by decide) rfl rest
    · split
      · subst c
        exact resolve_reference ['a', 'm', 'p'] (by decide) rfl rest
      · split
        · subst c
          exact resolve_reference ['#', '1', '3'] (by decide) rfl rest
        · exact (resolve_plain ‹_› rest).trans (by rw [hp])

theorem resolve_escapeAttr (c : Char) (rest : List Char) :
    resolve (fun c => if isSpace c then ' ' else c) none (escapeAttr c ++ rest) =
      (resolve (fun c => if isSpace c then ' ' else c) none rest).map (c :: ·) := by
  unfold escapeAttr
  split
  · subst c
    exact resolve_reference ['q', 'u', 'o', 't'] (by decide) rfl rest
  · split
    · subst c
      exact resolve_reference ['#', '1', '0'] (by decide) rfl rest
    · split
      · subst c
        exact resolve_reference ['#', '9'] (by decide) rfl rest
      · by_cases hr : c = '\r'
        · subst c
          exact resolve_reference ['#', '1', '3'] (by decide) rfl rest
        · refine resolve_escapeData ?_ rest
          have hs : isSpace c = true → c = ' ' := by simp [isSpace, *]
          split
          · exact (hs ‹_›).symm
          · rfl

theorem not_mem_escapeData (c : Char) : '<' ∉ escapeData c ∧ '>' ∉ escapeData c := by
  unfold escapeData
  repeat' split
  all_goals first | decide | simp [Ne.symm ‹¬c = '<'›, Ne.symm ‹¬c = '>'›]

theorem not_mem_escapeAttr (c : Char) : '<' ∉ escapeAttr c ∧ '\x22' ∉ escapeAttr c := by
  unfold escapeAttr
  split
  · decide
  · split
    · decide
    · split
      · decide
      · refine ⟨(not_mem_escapeData c).1, ?_⟩
        unfold escapeData
        repeat' split
        all_goals first | decide | simp [Ne.symm ‹¬c = '\x22'›]

theorem resolve_id_written (cs : List Char) : resolve id none (cs.flatMap escapeData) = some cs := by
  induction cs with
  | nil => rfl
  | cons c cs ih => rw [List.flatMap_cons, resolve_escapeData rfl, ih, Option.map_some]

theorem dataValue?_written (s : String) : dataValue? (s.toList.flatMap escapeData) = some s := by
  have hgt : '>' ∉ s.toList.flatMap escapeData := by
    intro h
    obtain ⟨c, -, hc⟩ := List.mem_flatMap.mp h
    exact (not_mem_escapeData c).2 hc
  unfold dataValue?
  rw [splitMarker_none (c := '>') (by decide) hgt, resolve_id_written]
  simp

theorem attrValue?_written (s : String) : attrValue? (s.toList.flatMap escapeAttr) = some s := by
  have hlt : '<' ∉ s.toList.flatMap escapeAttr := by
    intro h
    obtain ⟨c, -, hc⟩ := List.mem_flatMap.mp h
    exact (not_mem_escapeAttr c).1 hc
  have hr : ∀ cs : List Char, resolve (fun c => if isSpace c then ' ' else c) none (cs.flatMap escapeAttr) =
      some cs := by
    intro cs
    induction cs with
    | nil => rfl
    | cons c cs ih => rw [List.flatMap_cons, resolve_escapeAttr, ih, Option.map_some]
  unfold attrValue?
  rw [if_neg (by simpa using hlt), hr]
  simp

/-- Whether an address reads as itself without any escapes. -/
def isPlainAddress (s : String) : Bool :=
  s.toList.all fun c => c != '&' && c != '<' && (c == ' ' || !isSpace c)

/-- An address in quotation marks is read as what it is, if it needs no escapes. -/
theorem addressChars_written {s : String} (h : isPlainAddress s = true) : ∃ (q : Char) (raw : List Char),
    (q = '\x22' ∨ q = '\x27') ∧ q ∉ raw ∧ addressChars s = q :: raw ++ [q] ∧ attrValue? raw = some s := by
  have hc : ∀ c ∈ s.toList, c ≠ '&' ∧ c ≠ '<' ∧ (isSpace c = true → c = ' ') := by
    intro c hc
    have := List.all_eq_true.mp h c hc
    simp only [Bool.and_eq_true, Bool.or_eq_true, bne_iff_ne, beq_iff_eq, Bool.not_eq_true'] at this
    exact ⟨this.1.1, this.1.2, fun k => this.2.resolve_right (by simp [k])⟩
  have hr : ∀ esc : Char → List Char, (∀ c, esc c = [c] ∨ c = '\x22' ∧ esc c = "&quot;".toList) →
      attrValue? (s.toList.flatMap esc) = some s := by
    intro esc he
    have hlt : '<' ∉ s.toList.flatMap esc := by
      intro k
      obtain ⟨c, hm, hk⟩ := List.mem_flatMap.mp k
      rcases he c with e | ⟨-, e⟩ <;> rw [e] at hk
      · exact (hc c hm).2.1 (List.mem_singleton.mp hk).symm
      · revert hk
        decide
    have hres : ∀ cs : List Char, (∀ c ∈ cs, c ∈ s.toList) →
        resolve (fun c => if isSpace c then ' ' else c) none (cs.flatMap esc) = some cs := by
      intro cs hcs
      induction cs with
      | nil => rfl
      | cons c cs ih =>
        obtain ⟨ha, -, hs⟩ := hc c (hcs c List.mem_cons_self)
        have ih := ih fun d hd => hcs d (List.mem_cons_of_mem _ hd)
        rw [List.flatMap_cons]
        rcases he c with e | ⟨rfl, e⟩ <;> rw [e]
        · rw [List.singleton_append, resolve_plain ha, ih, Option.map_some]
          split
          · rw [hs ‹_›]
          · rfl
        · refine (resolve_reference ['q', 'u', 'o', 't'] (by decide) rfl _).trans ?_
          exact congrArg (Option.map ('\x22' :: ·)) ih
    unfold attrValue?
    rw [if_neg (by simpa using hlt), hres _ fun _ => id]
    simp
  have hself := hr (fun c => [c]) fun _ => .inl rfl
  rw [List.flatMap_singleton'] at hself
  unfold addressChars
  dsimp only
  split
  · exact ⟨'\x22', s.toList, .inl rfl, by simp_all, rfl, hself⟩
  · split
    · exact ⟨'\x27', s.toList, .inr rfl, by simp_all, rfl, hself⟩
    · refine ⟨'\x22', _, .inl rfl, ?_, rfl, hr _ fun c => ?_⟩
      · intro k
        obtain ⟨c, -, hk⟩ := List.mem_flatMap.mp k
        split at hk
        · revert hk
          decide
        · exact ‹¬c = '\x22'› (List.mem_singleton.mp hk).symm
      · split
        · exact .inr ⟨‹_›, rfl⟩
        · exact .inl rfl

/-! ### Names -/

/-- Whether a name ends where a text begins. -/
def endsName : List Char → Bool
  | c :: _ => !isNamePart c && c != ':'
  | [] => true

theorem isNamePart_of_isNameStart (h : isNameStart c = true) : isNamePart c = true := by
  simp [isNamePart, h]

theorem isSpace_of_isNamePart (h : isNamePart c = true) : isSpace c = false := by
  cases hs : isSpace c with
  | false => rfl
  | true =>
    simp only [isSpace, Bool.or_eq_true, beq_iff_eq] at hs
    rcases hs with ((rfl | rfl) | rfl) | rfl <;> revert h <;> decide

theorem takeName_append (h : isName cs = true) (hr : rest.head?.all (!isNamePart ·) = true) :
    takeName (cs ++ rest) = some (cs, rest) := by
  have hw : ∀ ds : List Char, ds.all isNamePart = true →
      (ds ++ rest).takeWhile isNamePart = ds ∧ (ds ++ rest).dropWhile isNamePart = rest := by
    intro ds hd
    induction ds with
    | nil =>
      cases rest with
      | nil => exact ⟨rfl, rfl⟩
      | cons c rest =>
        have hc : isNamePart c = false := by simpa using hr
        simp [hc]
    | cons d ds ih =>
      rw [List.all_cons, Bool.and_eq_true] at hd
      obtain ⟨ht, hd'⟩ := ih hd.2
      simp [hd.1, ht, hd']
  cases cs with
  | nil => cases h
  | cons c cs =>
    rw [isName, Bool.and_eq_true] at h
    obtain ⟨ht, hd⟩ := hw cs h.2
    rw [List.cons_append, takeName, if_pos h.1, ht, hd]

theorem takeName_some (h : takeName cs = some (ds, rest)) : cs = ds ++ rest ∧ isName ds = true := by
  cases cs with
  | nil => cases h
  | cons c cs =>
    rw [takeName] at h
    split at h
    · cases h
      refine ⟨by rw [List.cons_append, List.takeWhile_append_dropWhile], ?_⟩
      rw [isName, Bool.and_eq_true]
      exact ⟨‹_›, List.all_takeWhile⟩
    · cases h

/-- A name as it is written. -/
def Written.chars (w : Written) : List Char :=
  match w with
  | (none, base) => base.toList
  | (some short, base) => short.toList ++ ':' :: base.toList

def Written.isValid (w : Written) : Bool := w.1.all (isName ·.toList) && isName w.2.toList

theorem takeWritten_append {w : Written} (h : w.isValid = true) (hr : endsName rest = true) :
    takeWritten (w.chars ++ rest) = some (w, rest) := by
  have he : rest.head?.all (!isNamePart ·) = true ∧ ∀ r, rest ≠ ':' :: r := by
    cases rest with
    | nil => simp
    | cons c rest =>
      simp only [endsName, Bool.and_eq_true, bne_iff_ne, ne_eq] at hr
      exact ⟨hr.1, fun r k => hr.2 (List.cons.inj k).1⟩
  obtain ⟨short, base⟩ := w
  simp only [Written.isValid, Bool.and_eq_true] at h
  unfold takeWritten Written.chars
  cases short with
  | none =>
    dsimp only
    rw [takeName_append h.2 he.1, Option.bind_eq_bind, Option.bind_some]
    split
    · next r hm => exact absurd hm (he.2 r)
    · simp
  | some short =>
    have hs : isName short.toList = true := h.1
    have hc : (':' :: base.toList ++ rest).head?.all (!isNamePart ·) = true := by
      change (!isNamePart ':') = true
      decide
    dsimp only
    rw [List.append_assoc, takeName_append hs hc, Option.bind_eq_bind, Option.bind_some]
    change ((takeName (base.toList ++ rest)).bind _) = _
    rw [takeName_append h.2 he.1, Option.bind_some]
    split
    · next r hm => exact absurd hm (he.2 r)
    · simp

theorem takeWritten_some {w : Written} (h : takeWritten cs = some (w, rest)) :
    cs = w.chars ++ rest ∧ w.isValid = true := by
  obtain ⟨⟨first, after⟩, h₁, k⟩ := Option.bind_eq_some_iff.mp h
  obtain ⟨rfl, hn⟩ := takeName_some h₁
  unfold Written.isValid Written.chars
  dsimp only at k
  split at k
  · obtain ⟨⟨second, after⟩, h₂, k₂⟩ := Option.bind_eq_some_iff.mp k
    obtain ⟨rfl, hn₂⟩ := takeName_some h₂
    dsimp only at k₂
    split at k₂
    · cases k₂
    · cases k₂
      simp [hn, hn₂]
  · cases k
    simp [hn]


theorem Written.chars_cons {w : Written} (h : w.isValid = true) :
    ∃ c cs, w.chars = c :: cs ∧ isNameStart c = true := by
  have hc : ∀ s : String, isName s.toList = true → ∃ c cs, s.toList = c :: cs ∧ isNameStart c = true := by
    intro s hs
    cases he : s.toList with
    | nil => rw [he] at hs; cases hs
    | cons c cs =>
      rw [he, isName, Bool.and_eq_true] at hs
      exact ⟨c, cs, rfl, hs.1⟩
  obtain ⟨short, base⟩ := w
  rw [isValid, Bool.and_eq_true] at h
  cases short with
  | none => exact hc base h.2
  | some short =>
    obtain ⟨c, cs, he, hn⟩ := hc short h.1
    exact ⟨c, cs ++ ':' :: base.toList, by simp [chars, he], hn⟩

theorem skipSpace_of_not_isSpace (h : isSpace c = false) (cs : List Char) : skipSpace (c :: cs) = c :: cs := by
  simp [skipSpace, h]

theorem isSpace_of_isNameStart (h : isNameStart c = true) : isSpace c = false :=
  isSpace_of_isNamePart (isNamePart_of_isNameStart h)

/-! ### Attributes -/

/-- A text that an attribute with a name and a value may be written as. -/
def SpellsAttr (cs : List Char) (w : Written) (v : String) : Prop :=
  w.isValid = true ∧ ∃ (q : Char) (raw : List Char), (q = '\x22' ∨ q = '\x27') ∧ q ∉ raw ∧
    cs = ' ' :: w.chars ++ '=' :: (q :: raw ++ [q]) ∧ attrValue? raw = some v

theorem takeAttrs_cons {w : Written} {v : String} (h : SpellsAttr cs w v) (fuel : Nat)
    (rest : List Char) : takeAttrs (fuel + 1) (cs ++ rest) =
      (takeAttrs fuel rest).map fun (more, rest) => ((w, v) :: more, rest) := by
  obtain ⟨hw, q, raw, hq, hraw, rfl, hv⟩ := h
  obtain ⟨c, ds, he, hc⟩ := Written.chars_cons hw
  have hskip : skipSpace (' ' :: w.chars ++ '=' :: (q :: raw ++ [q]) ++ rest) =
      w.chars ++ '=' :: (q :: (raw ++ q :: rest)) := by
    have hs : ∀ more, skipSpace (' ' :: (c :: ds ++ more)) = c :: ds ++ more := fun more => by
      simp [skipSpace, isSpace_of_isNameStart hc, show isSpace ' ' = true by decide]
    rw [he]
    simpa using hs ('=' :: (q :: (raw ++ q :: rest)))
  have hqs : isSpace q = false := by rcases hq with rfl | rfl <;> decide
  rw [takeAttrs]
  simp only [Option.bind_eq_bind]
  rw [hskip]
  have hne : ∀ r, w.chars ++ '=' :: (q :: (raw ++ q :: rest)) ≠ '/' :: r ∧
      w.chars ++ '=' :: (q :: (raw ++ q :: rest)) ≠ '>' :: r := by
    intro r
    rw [he, List.cons_append]
    constructor <;>
    · intro k
      rw [(List.cons.inj k).1] at hc
      revert hc
      decide
  split
  · next r hm => exact absurd hm (hne _).1
  · next r hm => exact absurd hm (hne _).2
  · have he : endsName ('=' :: (q :: (raw ++ q :: rest))) = true := by
      rw [endsName]
      decide
    rw [if_neg (by simp), takeWritten_append hw he, Option.bind_some]
    dsimp only
    rw [skipSpace_of_not_isSpace (by decide), show expect ['='] ('=' :: (q :: (raw ++ q :: rest))) = _ from
      expect_append ['='] _, Option.bind_some, skipSpace_of_not_isSpace hqs]
    dsimp only
    rw [if_pos hq, splitFirst_append hraw, Option.bind_some]
    dsimp only
    rw [hv, Option.bind_some]
    cases takeAttrs fuel rest <;> rfl

/-- Whether a text begins where a start tag ends. -/
def endsTag : List Char → Bool
  | c :: _ => c == '/' || c == '>'
  | [] => false

theorem takeAttrs_end (h : endsTag rest = true) (fuel : Nat) :
    takeAttrs (fuel + 1) rest = some ([], rest) := by
  cases rest with
  | nil => cases h
  | cons c rest =>
    simp only [endsTag, Bool.or_eq_true, beq_iff_eq] at h
    rcases h with rfl | rfl <;> rfl

/-- The attributes of a tag are read as they are written, one after another. -/
theorem takeAttrs_append (items : List (List Char × Written × String))
    (h : ∀ i ∈ items, SpellsAttr i.1 i.2.1 i.2.2) (hr : endsTag rest = true) {fuel : Nat}
    (hf : items.length < fuel) :
    takeAttrs fuel (items.flatMap (·.1) ++ rest) = some (items.map (·.2), rest) := by
  induction items generalizing fuel with
  | nil =>
    obtain ⟨fuel, rfl⟩ := Nat.exists_eq_succ_of_ne_zero (Nat.ne_of_gt hf)
    exact takeAttrs_end hr fuel
  | cons i items ih =>
    obtain ⟨fuel, rfl⟩ := Nat.exists_eq_succ_of_ne_zero (Nat.ne_of_gt (Nat.zero_lt_of_lt hf))
    rw [List.flatMap_cons, List.append_assoc, takeAttrs_cons (h i List.mem_cons_self),
      ih (fun j hj => h j (List.mem_cons_of_mem _ hj)) (Nat.lt_of_succ_lt_succ hf)]
    rfl

end LiveSvg.Markup
