import LiveSvg.Proofs.Floats
import LiveSvg.Proofs.Members
import LiveSvg.Proofs.Quoting
/-!
Values are read back from the JSON text that they are written as, also with the ends of sections in it
escaped; and whatever is read can be written so.
-/

namespace LiveSvg.Json

open Number Text
open Document (sectionSafe)

variable {c : Char} {fuel depth k : Nat} {cs rest : List Char} {v : Value}

/-- Values that stand in JSON text with so many levels of lists and objects: integers are not too long,
and no object names a member twice. -/
inductive Fits : Nat → Value → Prop where
  | null {depth : Nat} : Fits depth .null
  | bool {depth : Nat} (b : Bool) : Fits depth (.bool b)
  | int {depth : Nat} {n : Int} (h : (digitsOf n.natAbs).length ≤ maxIntDigits) : Fits depth (.int n)
  | float {depth : Nat} (x : Binary64) : Fits depth (.float x)
  | text {depth : Nat} (s : String) : Fits depth (.text s)
  | list {depth : Nat} {xs : List Value} (h : ∀ x ∈ xs, Fits depth x) : Fits (depth + 1) (.list xs)
  | object {depth : Nat} {ms : List (String × Value)} (hn : (ms.map (·.1)).Nodup)
      (h : ∀ m ∈ ms, Fits depth m.2) : Fits (depth + 1) (.object ms)

/-! ### Layout -/

theorem skipSpace_lead (k : Nat) (cs : List Char) : skipSpace (Layout.lead .tree k ++ cs) = skipSpace cs := by
  have hs : ∀ c ∈ Layout.lead .tree k, isSpace c = true := by
    intro c hc
    rcases List.mem_cons.mp hc with rfl | hc
    · rfl
    · rw [List.eq_of_mem_replicate hc]
      rfl
  exact List.dropWhile_append_of_pos hs

theorem skipSpace_cons (h : isSpace c = false) (cs : List Char) : skipSpace (c :: cs) = c :: cs :=
  List.dropWhile_cons_of_neg (by simp [h])

theorem not_mem_lead (k : Nat) : ']' ∉ Layout.lead .tree k := by
  refine List.not_mem_cons_of_ne_of_not_mem (by decide) fun h => ?_
  exact absurd (List.eq_of_mem_replicate h) (by decide)

/-- What a value is written as, the ends of sections escaped. -/
def safe (k : Nat) (v : Value) : List Char := sectionSafe (chars .tree k v)

/-- How values begin. -/
def Opens (cs : List Char) : Prop := ∃ c more, cs = c :: more ∧ isSpace c = false ∧ c ≠ ']' ∧ c ≠ '\x7d'

theorem StartsNumber.opens (h : StartsNumber cs) : Opens cs := by
  obtain ⟨c, more, hc, rfl | rfl⟩ := h
  · have hne : ∀ {d : Char}, isAsciiDigit d = false → c ≠ d := ne_of_isAsciiDigit hc
    refine ⟨c, more, rfl, ?_, hne rfl, hne rfl⟩
    simp [isSpace, hne (show isAsciiDigit ' ' = false from rfl), hne (show isAsciiDigit '\n' = false from rfl),
      hne (show isAsciiDigit '\r' = false from rfl), hne (show isAsciiDigit '\t' = false from rfl)]
  · exact ⟨'-', _, rfl, rfl, by decide, by decide⟩

theorem opens_chars (k : Nat) (v : Value) : Opens (chars .tree k v) := by
  have word : ∀ {c : Char} {more : List Char}, isSpace c = false ∧ c ≠ ']' ∧ c ≠ '\x7d' → Opens (c :: more) :=
    fun h => ⟨_, _, rfl, h⟩
  cases v with
  | null => exact word (by decide)
  | bool b => cases b <;> exact word (by decide)
  | int n => exact (startsNumber_intText n).opens
  | float x =>
    cases x with
    | nan => exact word (by decide)
    | infinity b => cases b <;> exact word (by decide)
    | finite b m e hc => exact (startsNumber_text b hc).opens
  | text s => exact word (by decide)
  | list xs => cases xs <;> exact word (by decide)
  | object ms => cases ms <;> exact word (by decide)

theorem Opens.safe {cs : List Char} (h : Opens cs) : Opens (sectionSafe cs) := by
  obtain ⟨c, more, rfl, hc⟩ := h
  exact ⟨c, _, sectionSafe_cons fun _ k => absurd k hc.2.1, hc⟩

theorem opens_safe (k : Nat) (v : Value) : Opens (safe k v) := (opens_chars k v).safe

theorem Opens.append {cs : List Char} (h : Opens cs) (rest : List Char) : Opens (cs ++ rest) := by
  obtain ⟨c, more, rfl, hc⟩ := h
  exact ⟨c, _, rfl, hc⟩

theorem Opens.skipSpace_append {cs : List Char} (h : Opens cs) (rest : List Char) :
    skipSpace (cs ++ rest) = cs ++ rest := by
  obtain ⟨c, more, rfl, hc, -⟩ := h
  exact skipSpace_cons hc _

/-! ### Lists -/

/-- What follows the first item of a list. -/
def itemsAfter (k : Nat) (xs : List Value) : List Char :=
  itemChars .tree (k + 1) xs ++ (Layout.lead .tree k ++ [']'])

theorem ends_comma (cs : List Char) : Ends (',' :: cs) := by
  rintro c ⟨⟩
  exact .inl rfl

theorem ends_lead (k : Nat) (cs : List Char) : Ends (Layout.lead .tree k ++ cs) := by
  rintro c ⟨⟩
  exact .inr rfl

theorem Ends.append (h : Ends cs) (hne : cs ≠ []) (rest : List Char) : Ends (cs ++ rest) := by
  obtain ⟨c, cs, rfl⟩ := List.exists_cons_of_ne_nil hne
  exact h

theorem Ends.sectionSafe_append {as : List Char} (h : Ends cs) :
    sectionSafe (as ++ cs) = sectionSafe as ++ sectionSafe cs := by
  refine Json.sectionSafe_append (fun k => ?_) fun k => ?_
  · rcases h _ k with k | k <;> exact absurd k (by decide)
  · rcases h _ k with k | k <;> exact absurd k (by decide)

theorem ends_itemsAfter (k : Nat) (xs : List Value) : Ends (itemsAfter k xs) := by
  cases xs with
  | nil => exact ends_lead k _
  | cons x xs =>
    unfold itemsAfter
    rw [itemChars]
    exact ends_comma _

theorem sectionSafe_itemsAfter_nil (k : Nat) :
    sectionSafe (itemsAfter k []) = Layout.lead .tree k ++ [']'] := by
  unfold itemsAfter
  rw [itemChars, List.nil_append, sectionSafe_append_of_not_mem (not_mem_lead k)]
  rfl

theorem sectionSafe_itemsAfter_cons (k : Nat) (x : Value) (xs : List Value) :
    sectionSafe (itemsAfter k (x :: xs)) =
      ',' :: (Layout.lead .tree (k + 1) ++ (safe (k + 1) x ++ sectionSafe (itemsAfter k xs))) := by
  have h : itemsAfter k (x :: xs) =
      (',' :: Layout.lead .tree (k + 1)) ++ (chars .tree (k + 1) x ++ itemsAfter k xs) := by
    simp [itemsAfter, itemChars, Layout.comma]
  rw [h, sectionSafe_append_of_not_mem (List.not_mem_cons_of_ne_of_not_mem (by decide) (not_mem_lead _)),
    (ends_itemsAfter k xs).sectionSafe_append]
  rfl

theorem safe_list (k : Nat) (x : Value) (xs : List Value) : safe k (.list (x :: xs)) =
    '[' :: (Layout.lead .tree (k + 1) ++ (safe (k + 1) x ++ sectionSafe (itemsAfter k xs))) := by
  have h : chars .tree k (.list (x :: xs)) =
      ('[' :: Layout.lead .tree (k + 1)) ++ (chars .tree (k + 1) x ++ itemsAfter k xs) := by
    simp [chars, itemsAfter]
  rw [safe, h, sectionSafe_append_of_not_mem (List.not_mem_cons_of_ne_of_not_mem (by decide) (not_mem_lead _)),
    (ends_itemsAfter k xs).sectionSafe_append]
  rfl

/-- Whether a value is read from what it is written as, whatever follows. -/
def Reads (depth : Nat) (v : Value) : Prop :=
  ∀ (k fuel : Nat) (rest : List Char), Ends rest → (safe k v).length ≤ fuel →
    readValue fuel depth (safe k v ++ rest) = .ok (v, rest)

section Steps

variable {fuel depth : Nat} {x : Value} {xs : List Value} {after next : List Char}

theorem readItems_last (hx : readValue fuel depth cs = .ok (x, after)) (hr : skipSpace after = ']' :: rest) :
    readItems (fuel + 1) depth cs = .ok ([x], rest) := by
  rw [readItems, hx]
  simp only [bind, Except.bind]
  rw [hr]
  rfl

theorem readItems_more (hx : readValue fuel depth cs = .ok (x, after)) (hr : skipSpace after = ',' :: next)
    (hm : readItems fuel depth (skipSpace next) = .ok (xs, rest)) :
    readItems (fuel + 1) depth cs = .ok (x :: xs, rest) := by
  rw [readItems, hx]
  simp only [bind, Except.bind]
  rw [hr]
  simp only [hm]
  rfl

theorem readValue_list (ho : Opens cs) (hr : skipSpace after = cs)
    (hm : readItems fuel depth cs = .ok (xs, rest)) :
    readValue (fuel + 1) (depth + 1) ('[' :: after) = .ok (.list xs, rest) := by
  obtain ⟨c, more, rfl, -, hc, -⟩ := ho
  rw [readValue, hr]
  split
  · next k => exact absurd (List.cons.inj k).1 hc
  · rw [hm]
    rfl

end Steps

theorem readItems_safe {x : Value} {xs : List Value} (h : ∀ y ∈ x :: xs, Reads depth y)
    (hf : (safe (k + 1) x).length + (sectionSafe (itemsAfter k xs)).length ≤ fuel) :
    readItems fuel depth (safe (k + 1) x ++ (sectionSafe (itemsAfter k xs) ++ rest)) = .ok (x :: xs, rest) := by
  induction xs generalizing x fuel with
  | nil =>
    rw [sectionSafe_itemsAfter_nil] at hf ⊢
    rw [List.length_append, List.length_singleton] at hf
    obtain ⟨fuel, rfl⟩ : ∃ n, fuel = n + 1 := ⟨fuel - 1, by omega⟩
    rw [List.append_assoc]
    refine readItems_last (h x List.mem_cons_self _ _ _ (ends_lead k _) (by omega)) ?_
    rw [skipSpace_lead]
    rfl
  | cons y ys ih =>
    rw [sectionSafe_itemsAfter_cons] at hf ⊢
    simp only [List.length_cons, List.length_append] at hf
    obtain ⟨fuel, rfl⟩ : ∃ n, fuel = n + 1 := ⟨fuel - 1, by omega⟩
    rw [List.cons_append, List.append_assoc, List.append_assoc]
    refine readItems_more (h x List.mem_cons_self _ _ _ (ends_comma _) (by omega)) (skipSpace_cons rfl _) ?_
    rw [skipSpace_lead, (opens_safe _ _).skipSpace_append]
    exact ih (fun z hz => h z (List.mem_cons_of_mem _ hz)) (by omega)

theorem reads_list {xs : List Value} (h : ∀ x ∈ xs, Reads depth x) : Reads (depth + 1) (.list xs) := by
  intro k fuel rest hr hf
  cases xs with
  | nil =>
    obtain ⟨fuel, rfl⟩ : ∃ n, fuel = n + 1 := ⟨fuel - 1, by simp [safe, chars, sectionSafe] at hf; omega⟩
    rfl
  | cons x xs =>
    rw [safe_list] at hf ⊢
    simp only [List.length_cons, List.length_append] at hf
    obtain ⟨fuel, rfl⟩ : ∃ n, fuel = n + 1 := ⟨fuel - 1, by omega⟩
    rw [List.cons_append, List.append_assoc, List.append_assoc]
    refine readValue_list ((opens_safe (k + 1) x).append _) ?_ (readItems_safe h (by omega))
    rw [skipSpace_lead, (opens_safe _ _).skipSpace_append]

/-! ### Objects -/

/-- What follows the first member of an object. -/
def membersAfter (k : Nat) (ms : List (String × Value)) : List Char :=
  memberChars .tree (k + 1) ms ++ (Layout.lead .tree k ++ ['\x7d'])

theorem ends_membersAfter (k : Nat) (ms : List (String × Value)) : Ends (membersAfter k ms) := by
  rcases ms with _ | ⟨⟨key, v⟩, ms⟩
  · exact ends_lead k _
  · unfold membersAfter
    rw [memberChars]
    exact ends_comma _

theorem sectionSafe_membersAfter_nil (k : Nat) :
    sectionSafe (membersAfter k []) = Layout.lead .tree k ++ ['\x7d'] := by
  unfold membersAfter
  rw [memberChars, List.nil_append, sectionSafe_append_of_not_mem (not_mem_lead k)]
  rfl

/-- What is written for a text, the ends of sections escaped. -/
def safeText (s : String) : List Char := '\x22' :: (sectionSafe (s.toList.flatMap escapeChar) ++ ['\x22'])

theorem sectionSafe_textChars (s : String) (cs : List Char) :
    sectionSafe (textChars s ++ cs) = safeText s ++ sectionSafe cs := by
  have hs : textChars s ++ cs = ['\x22'] ++ (s.toList.flatMap escapeChar ++ '\x22' :: cs) := by
    simp [textChars]
  rw [hs, sectionSafe_append_of_not_mem (by decide), sectionSafe_append_cons (by decide) (by decide),
    sectionSafe_cons fun _ k => absurd k (by decide)]
  simp [safeText]

/-- A member as it is written. -/
def safeMember (k : Nat) (key : String) (v : Value) : List Char := safeText key ++ (':' :: ' ' :: safe k v)

theorem sectionSafe_member (k : Nat) (key : String) (v : Value) (h : Ends cs) :
    sectionSafe (textChars key ++ (':' :: ' ' :: (chars .tree k v ++ cs))) = safeMember k key v ++ sectionSafe cs := by
  rw [sectionSafe_textChars]
  have hs : ':' :: ' ' :: (chars .tree k v ++ cs) = [':', ' '] ++ (chars .tree k v ++ cs) := rfl
  rw [hs, sectionSafe_append_of_not_mem (by decide), h.sectionSafe_append]
  simp [safeMember, safe]

theorem sectionSafe_membersAfter_cons (k : Nat) (key : String) (v : Value) (ms : List (String × Value)) :
    sectionSafe (membersAfter k ((key, v) :: ms)) =
      ',' :: (Layout.lead .tree (k + 1) ++ (safeMember (k + 1) key v ++ sectionSafe (membersAfter k ms))) := by
  have h : membersAfter k ((key, v) :: ms) = (',' :: Layout.lead .tree (k + 1)) ++
      (textChars key ++ (':' :: ' ' :: (chars .tree (k + 1) v ++ membersAfter k ms))) := by
    simp [membersAfter, memberChars, Layout.comma]
  rw [h, sectionSafe_append_of_not_mem (List.not_mem_cons_of_ne_of_not_mem (by decide) (not_mem_lead _)),
    sectionSafe_member _ _ _ (ends_membersAfter k ms)]
  rfl

theorem safe_object (k : Nat) (key : String) (v : Value) (ms : List (String × Value)) :
    safe k (.object ((key, v) :: ms)) =
      '\x7b' :: (Layout.lead .tree (k + 1) ++ (safeMember (k + 1) key v ++ sectionSafe (membersAfter k ms))) := by
  have h : chars .tree k (.object ((key, v) :: ms)) = ('\x7b' :: Layout.lead .tree (k + 1)) ++
      (textChars key ++ (':' :: ' ' :: (chars .tree (k + 1) v ++ membersAfter k ms))) := by
    simp [chars, membersAfter]
  rw [safe, h, sectionSafe_append_of_not_mem (List.not_mem_cons_of_ne_of_not_mem (by decide) (not_mem_lead _)),
    sectionSafe_member _ _ _ (ends_membersAfter k ms)]
  rfl

theorem readText_safeText (s : String) :
    readText ((sectionSafe (s.toList.flatMap escapeChar) ++ '\x22' :: rest).length + 1) []
      (sectionSafe (s.toList.flatMap escapeChar) ++ '\x22' :: rest) = .ok (s, rest) := by
  have hlen : ∀ cs : List Char, cs.length ≤ (cs.flatMap escapeChar).length := by
    intro cs
    induction cs with
    | nil => exact Nat.le_refl _
    | cons c cs ih =>
      have hc : 0 < (escapeChar c).length := by
        rcases escapeChar_shape c with h | ⟨more, h⟩ <;> simp [h]
      rw [List.flatMap_cons, List.length_append, List.length_cons]
      omega
  rw [readText_escaped, List.reverse_nil, List.nil_append, String.ofList_toList]
  have h₁ := hlen s.toList
  have h₂ := length_le_sectionSafe (s.toList.flatMap escapeChar)
  rw [List.length_append]
  omega

section Steps

variable {fuel depth : Nat} {key : String} {v : Value} {ms : List (String × Value)} {after : List Char}

/-- A member is read with what follows it. -/
theorem readMembers_member (hv : readValue fuel depth (safe k v ++ after) = .ok (v, after)) {found : List (String × Value)}
    (hr : skipSpace after = '\x7d' :: rest ∧ found = [] ∨ ∃ next, skipSpace after = ',' :: next ∧
      readMembers fuel depth (skipSpace next) = .ok (found, rest)) :
    readMembers (fuel + 1) depth (safeMember k key v ++ after) = .ok ((key, v) :: found, rest) := by
  have hs : safeMember k key v ++ after = '\x22' :: (sectionSafe (key.toList.flatMap escapeChar) ++
      '\x22' :: (':' :: ' ' :: (safe k v ++ after))) := by
    simp [safeMember, safeText]
  rw [hs, readMembers, readText_safeText]
  simp only [bind, Except.bind]
  rw [skipSpace_cons rfl]
  have hsp : skipSpace (' ' :: (safe k v ++ after)) = safe k v ++ after :=
    (List.dropWhile_cons_of_pos rfl).trans ((opens_safe k v).skipSpace_append after)
  simp only [hsp, hv]
  rcases hr with ⟨hr, rfl⟩ | ⟨next, hr, hm⟩
  · rw [hr]
    rfl
  · rw [hr]
    simp only [hm]
    rfl

theorem readValue_object {more : List Char} (hr : skipSpace after = '\x22' :: more)
    (hm : readMembers fuel depth ('\x22' :: more) = .ok (ms, rest)) :
    readValue (fuel + 1) (depth + 1) ('\x7b' :: after) =
      .ok (.object (ms.foldl (fun ms (k, v) => Value.Members.set ms k v) []), rest) := by
  rw [readValue, hr]
  split
  · next k => exact absurd (List.cons.inj k).1 (by decide)
  · rw [hm]
    rfl

end Steps

/-- Members that are all different stay as they come. -/
theorem foldl_set {ms done : List (String × Value)} (h : ((done ++ ms).map (·.1)).Nodup) :
    ms.foldl (fun ms (k, v) => Value.Members.set ms k v) done = done ++ ms := by
  induction ms generalizing done with
  | nil => exact (List.append_nil done).symm
  | cons e ms ih =>
    obtain ⟨key, v⟩ := e
    rw [List.append_cons] at h
    have hk : key ∉ done.map (·.1) := by
      rw [List.append_assoc, List.map_append, List.nodup_append] at h
      exact fun k => h.2.2 key k key (by simp) rfl
    change ms.foldl _ (Value.Members.set done key v) = _
    rw [Value.Members.set_of_not_mem hk, ih h, List.append_assoc]
    rfl

theorem readMembers_safe {key : String} {v : Value} {ms : List (String × Value)}
    (h : ∀ m ∈ (key, v) :: ms, Reads depth m.2)
    (hf : (safeMember (k + 1) key v).length + (sectionSafe (membersAfter k ms)).length ≤ fuel) :
    readMembers fuel depth (safeMember (k + 1) key v ++ (sectionSafe (membersAfter k ms) ++ rest)) =
      .ok ((key, v) :: ms, rest) := by
  have hlen : ∀ (key : String) (v : Value), (safe (k + 1) v).length < (safeMember (k + 1) key v).length := by
    intro key v
    simp only [safeMember, List.length_append, List.length_cons]
    omega
  induction ms generalizing key v fuel with
  | nil =>
    have hv : Reads depth v := h (key, v) List.mem_cons_self
    have hl := hlen key v
    rw [sectionSafe_membersAfter_nil] at hf ⊢
    obtain ⟨fuel, rfl⟩ : ∃ n, fuel = n + 1 := ⟨fuel - 1, by omega⟩
    rw [List.append_assoc]
    have hread := hv (k + 1) fuel _ (ends_lead k (['\x7d'] ++ rest)) (by omega)
    refine readMembers_member hread (.inl ⟨?_, rfl⟩)
    rw [skipSpace_lead]
    rfl
  | cons e ms ih =>
    obtain ⟨key', v'⟩ := e
    have hv : Reads depth v := h (key, v) List.mem_cons_self
    have hl := hlen key v
    rw [sectionSafe_membersAfter_cons] at hf ⊢
    rw [List.length_cons, List.length_append, List.length_append] at hf
    obtain ⟨fuel, rfl⟩ : ∃ n, fuel = n + 1 := ⟨fuel - 1, by omega⟩
    rw [List.cons_append, List.append_assoc, List.append_assoc]
    have hread := fun more => hv (k + 1) fuel _ (ends_comma more) (by omega)
    refine readMembers_member (hread _) (.inr ⟨_, skipSpace_cons rfl _, ?_⟩)
    rw [skipSpace_lead]
    exact ih (fun m hm => h m (List.mem_cons_of_mem _ hm)) (by omega)

theorem reads_object {ms : List (String × Value)} (hn : (ms.map (·.1)).Nodup)
    (h : ∀ m ∈ ms, Reads depth m.2) : Reads (depth + 1) (.object ms) := by
  intro k fuel rest hr hf
  rcases ms with _ | ⟨⟨key, v⟩, ms⟩
  · obtain ⟨fuel, rfl⟩ : ∃ n, fuel = n + 1 := ⟨fuel - 1, by simp [safe, chars, sectionSafe] at hf; omega⟩
    rfl
  · rw [safe_object] at hf ⊢
    rw [List.length_cons, List.length_append, List.length_append] at hf
    obtain ⟨fuel, rfl⟩ : ∃ n, fuel = n + 1 := ⟨fuel - 1, by omega⟩
    rw [List.cons_append, List.append_assoc, List.append_assoc]
    have hlen : (safeMember (k + 1) key v).length + (sectionSafe (membersAfter k ms)).length ≤ fuel := by omega
    rw [readValue_object (skipSpace_lead _ _) (readMembers_safe h hlen), foldl_set hn]
    rfl

theorem readValue_word {w : List Char} {v : Value} (h : (w, v) ∈ wordValues) :
    readValue (fuel + 1) depth (w ++ rest) = .ok (v, rest) := by
  have hw : readWord? (w ++ rest) = some (v, rest) ∧
      ∀ c, (w ++ rest).head? = some c → c ≠ '\x22' ∧ c ≠ '[' ∧ c ≠ '\x7b' := by
    simp only [wordValues, String.reduceToList, List.mem_cons, Prod.mk.injEq, List.not_mem_nil, or_false] at h
    rcases h with ⟨rfl, rfl⟩ | ⟨rfl, rfl⟩ | ⟨rfl, rfl⟩ | ⟨rfl, rfl⟩ | ⟨rfl, rfl⟩ | ⟨rfl, rfl⟩ <;>
      simp [readWord?, wordValues]
  rw [readValue]
  · rw [hw.1]
  · intro _ k
    exact (hw.2 _ (by rw [k]; rfl)).1 rfl
  · intro _ k
    exact (hw.2 _ (by rw [k]; rfl)).2.1 rfl
  · intro _ k
    exact (hw.2 _ (by rw [k]; rfl)).2.2 rfl

/-- What is written without brackets is read alike where ends of sections are escaped. -/
theorem reads_plain {v : Value} {w : List Char} (hv : ∀ k, chars .tree k v = w) (hw : ']' ∉ w) (hne : w ≠ [])
    (hr : ∀ fuel rest, Ends rest → readValue (fuel + 1) depth (w ++ rest) = .ok (v, rest)) :
    Reads depth v := by
  intro k fuel rest he hf
  have hs : safe k v = w := by
    unfold safe
    rw [hv, ← List.append_nil w, sectionSafe_append_of_not_mem hw]
    rfl
  rw [hs] at hf ⊢
  obtain ⟨fuel, rfl⟩ : ∃ n, fuel = n + 1 := ⟨fuel - 1, by have := List.length_pos_iff.mpr hne; omega⟩
  exact hr fuel rest he

theorem reads_word {w : List Char} {v : Value} (h : (w, v) ∈ wordValues) (hv : ∀ k, chars .tree k v = w) :
    Reads depth v := by
  have hall : ∀ p ∈ wordValues, ']' ∉ p.1 ∧ p.1 ≠ [] := by simp [wordValues]
  exact reads_plain hv (hall _ h).1 (hall _ h).2 fun _ _ _ => readValue_word h

theorem reads_number {v : Value} {w : List Char} (hv : ∀ k, chars .tree k v = w) (hw : ']' ∉ w)
    (hs : StartsNumber w) (hr : ∀ rest, Ends rest → readNumber (w ++ rest) = .ok (v, rest)) : Reads depth v := by
  refine reads_plain hv hw ?_ fun fuel rest he => ?_
  · obtain ⟨c, more, rfl, -⟩ := hs.opens
    exact List.cons_ne_nil _ _
  · rw [readValue_number (hs.append rest), hr rest he]

theorem reads_text (s : String) : Reads depth (.text s) := by
  intro k fuel rest he hf
  have hs : safe k (.text s) = safeText s := by
    change sectionSafe (textChars s) = _
    rw [← List.append_nil (textChars s), sectionSafe_textChars]
    exact List.append_nil _
  rw [hs] at hf ⊢
  obtain ⟨fuel, rfl⟩ : ∃ n, fuel = n + 1 := ⟨fuel - 1, by simp [safeText] at hf; omega⟩
  unfold safeText
  rw [List.cons_append, List.append_assoc, readValue, List.singleton_append, readText_safeText]
  rfl

/-- A value that fits is read from what it is written as, the ends of sections escaped. -/
theorem Fits.reads (h : Fits depth v) : Reads depth v := by
  induction h with
  | null => exact reads_word (.head _) fun _ => rfl
  | bool b =>
    cases b with
    | true => exact reads_word (.tail _ (.head _)) fun _ => rfl
    | false => exact reads_word (.tail _ (.tail _ (.head _))) fun _ => rfl
  | @int _ n h =>
    exact reads_number (fun _ => rfl) (fun k => absurd (mem_intText n _ k) (by decide))
      (startsNumber_intText n) fun _ => readNumber_int h
  | float x =>
    cases x with
    | nan => exact reads_word (.tail _ (.tail _ (.tail _ (.head _)))) fun _ => rfl
    | infinity b =>
      cases b with
      | true => exact reads_word (.tail _ (.tail _ (.tail _ (.tail _ (.tail _ (.head _)))))) fun _ => rfl
      | false => exact reads_word (.tail _ (.tail _ (.tail _ (.tail _ (.head _))))) fun _ => rfl
    | finite b m e hc =>
      exact reads_number (fun _ => rfl) (fun k => absurd (mem_text b hc _ k) (by decide))
        (startsNumber_text b hc) fun _ => readNumber_text b hc
  | text s => exact reads_text s
  | list h ih => exact reads_list ih
  | object hn h ih => exact reads_object hn ih

/-- The text of a value, the ends of sections escaped, is read as that value. -/
theorem read_safe (h : Fits maxDepth v) : read (String.ofList (sectionSafe (tree v).toList)) = .ok v := by
  have hs : (String.ofList (sectionSafe (tree v).toList)).toList = safe 0 v := by
    rw [String.toList_ofList, tree, String.toList_ofList]
    rfl
  have hv := h.reads 0 (2 * (safe 0 v).length + 2) [] (fun c k => by cases k) (by omega)
  rw [List.append_nil] at hv
  have hsp := (opens_safe 0 v).skipSpace_append []
  rw [List.append_nil] at hsp
  unfold read
  rw [chars_eq, hs]
  simp only [hsp, hv]
  rfl

/-! ### What is read fits -/

theorem natOfDigits_lt {ds : List Char} (h : ∀ c ∈ ds, isAsciiDigit c = true) : natOfDigits ds < 10 ^ ds.length := by
  have hfold : ∀ n, ds.foldl (fun n c => n * 10 + (c.toNat - 48)) n < (n + 1) * 10 ^ ds.length := by
    induction ds with
    | nil => intro n; simp
    | cons c ds ih =>
      intro n
      have hc := h c List.mem_cons_self
      simp only [isAsciiDigit, Bool.and_eq_true, decide_eq_true_eq, Char.le_def, UInt32.le_iff_toNat_le] at hc
      have hlt : c.toNat - 48 < 10 := by
        have h₉ : c.toNat ≤ 57 := hc.2
        omega
      calc (c :: ds).foldl (fun n c => n * 10 + (c.toNat - 48)) n
          = ds.foldl (fun n c => n * 10 + (c.toNat - 48)) (n * 10 + (c.toNat - 48)) := rfl
        _ < (n * 10 + (c.toNat - 48) + 1) * 10 ^ ds.length := ih (fun d hd => h d (List.mem_cons_of_mem _ hd)) _
        _ ≤ ((n + 1) * 10) * 10 ^ ds.length := Nat.mul_le_mul_right _ (by omega)
        _ = (n + 1) * 10 ^ (c :: ds).length := by rw [List.length_cons, Nat.pow_succ]; ac_rfl
  have h₀ := hfold 0
  rwa [Nat.zero_add, Nat.one_mul] at h₀

theorem takeDigits_fst (cs : List Char) : ∀ c ∈ (takeDigits cs).1, isAsciiDigit c = true :=
  List.all_eq_true.mp List.all_takeWhile

theorem takeWhole_fst (cs : List Char) : ∀ c ∈ (takeWhole cs).1, isAsciiDigit c = true := by
  unfold takeWhole
  split
  · intro c hc
    rw [List.mem_singleton.mp hc]
    rfl
  · exact takeDigits_fst _

theorem readNumber_fits (h : readNumber cs = .ok (v, rest)) : Fits depth v := by
  unfold readNumber at h
  dsimp only at h
  split at h
  · cases h
  · next hne =>
    split at h
    · split at h
      · cases h
      · next hlen =>
        cases h
        refine .int ?_
        have hlt := natOfDigits_lt (takeWhole_fst (takeMinus cs).2)
        have hpos : 0 < (takeWhole (takeMinus cs).2).1.length :=
          List.length_pos_iff.mpr fun k => hne (by rw [k]; rfl)
        have habs : (if (takeMinus cs).1 = true then -(natOfDigits (takeWhole (takeMinus cs).2).1 : Int)
            else natOfDigits (takeWhole (takeMinus cs).2).1).natAbs = natOfDigits (takeWhole (takeMinus cs).2).1 := by
          split <;> omega
        rw [habs]
        exact Nat.le_trans ((Nat.length_toDigits_le_iff (by decide) hpos).mpr hlt) (Nat.le_of_not_lt hlen)
    · cases h
      exact .float _

theorem readWord?_fits (h : readWord? cs = some (v, rest)) : Fits depth v := by
  obtain ⟨p, hp, h⟩ := List.exists_of_findSome?_eq_some h
  have hall : ∀ p ∈ wordValues, ∀ depth, Fits depth p.2 := by
    simp only [wordValues, List.mem_cons, List.not_mem_nil, or_false]
    rintro p (rfl | rfl | rfl | rfl | rfl | rfl) depth
    · exact .null
    · exact .bool _
    · exact .bool _
    all_goals exact .float _
  dsimp only at h
  split at h
  · cases h
    exact hall p hp depth
  · cases h

/-- However members are repeated, those that are kept fit as an object. -/
theorem fits_object {ms : List (String × Value)} (h : ∀ m ∈ ms, Fits depth m.2) :
    Fits (depth + 1) (.object (ms.foldl (fun ms (k, v) => Value.Members.set ms k v) [])) := by
  have hfold : ∀ done : List (String × Value), (done.map (·.1)).Nodup → (∀ m ∈ done, Fits depth m.2) →
      Fits (depth + 1) (.object (ms.foldl (fun ms (k, v) => Value.Members.set ms k v) done)) := by
    induction ms with
    | nil => exact fun done hn hd => .object hn hd
    | cons e ms ih =>
      obtain ⟨key, v⟩ := e
      intro done hn hd
      refine ih (fun m hm => h m (List.mem_cons_of_mem _ hm)) _ ?_ fun m hm => ?_
      · rw [Value.Members.keys_set]
        split
        · exact hn
        · next hk =>
          refine List.nodup_append.mpr ⟨hn, by simp, fun x hx y hy => ?_⟩
          rintro rfl
          exact hk (List.mem_singleton.mp hy ▸ hx)
      · rcases Value.Members.mem_set hm with hm | rfl
        · exact hd m hm
        · exact h (key, m.2) List.mem_cons_self
  exact hfold [] List.nodup_nil fun _ hm => absurd hm List.not_mem_nil

theorem bind_eq_ok {ε α β : Type} {x : Except ε α} {f : α → Except ε β} {b : β} :
    x >>= f = .ok b ↔ ∃ a, x = .ok a ∧ f a = .ok b := by
  cases x <;> simp [bind, Except.bind]

/-- Whatever is read fits as deep as it may be. -/
theorem read_fits (fuel : Nat) :
    (∀ {depth cs v rest}, readValue fuel depth cs = .ok (v, rest) → Fits depth v) ∧
    (∀ {depth cs xs rest}, readItems fuel depth cs = .ok (xs, rest) → ∀ x ∈ xs, Fits depth x) ∧
    (∀ {depth cs ms rest}, readMembers fuel depth cs = .ok (ms, rest) → ∀ m ∈ ms, Fits depth m.2) := by
  induction fuel with
  | zero =>
    refine ⟨?_, ?_, ?_⟩
    · intro depth cs v rest h
      rw [readValue] at h
      cases h
    · intro depth cs xs rest h
      rw [readItems] at h
      cases h
    · intro depth cs ms rest h
      rw [readMembers] at h
      cases h
  | succ fuel ih =>
    obtain ⟨ihv, ihi, ihm⟩ := ih
    refine ⟨?_, ?_, ?_⟩
    · intro depth cs v rest h
      unfold readValue at h
      split at h
      · obtain ⟨⟨s, after⟩, -, h⟩ := bind_eq_ok.mp h
        cases h
        exact .text s
      · split at h
        · cases h
        · split at h
          · cases h
            exact .list fun _ hx => absurd hx List.not_mem_nil
          · obtain ⟨⟨xs, after⟩, hi, h⟩ := bind_eq_ok.mp h
            cases h
            exact .list (ihi hi)
      · split at h
        · cases h
        · split at h
          · cases h
            exact .object List.nodup_nil fun _ hm => absurd hm List.not_mem_nil
          · obtain ⟨⟨ms, after⟩, hm, h⟩ := bind_eq_ok.mp h
            cases h
            exact fits_object (ihm hm)
      · split at h
        · next found hw =>
          cases h
          exact readWord?_fits hw
        · exact readNumber_fits h
    · intro depth cs xs rest h
      rw [readItems] at h
      obtain ⟨⟨x, after⟩, hx, h⟩ := bind_eq_ok.mp h
      dsimp only at h
      split at h
      · obtain ⟨⟨more, after⟩, hi, h⟩ := bind_eq_ok.mp h
        cases h
        exact List.forall_mem_cons.mpr ⟨ihv hx, ihi hi⟩
      · cases h
        exact List.forall_mem_singleton.mpr (ihv hx)
      · cases h
    · intro depth cs ms rest h
      unfold readMembers at h
      split at h
      · obtain ⟨⟨key, after⟩, -, h⟩ := bind_eq_ok.mp h
        dsimp only at h
        split at h
        · obtain ⟨⟨v, after⟩, hv, h⟩ := bind_eq_ok.mp h
          dsimp only at h
          split at h
          · obtain ⟨⟨more, after⟩, hm, h⟩ := bind_eq_ok.mp h
            cases h
            exact List.forall_mem_cons.mpr ⟨ihv hv, ihm hm⟩
          · cases h
            exact List.forall_mem_singleton.mpr (ihv hv)
          · cases h
        · cases h
      · cases h

theorem fits_of_read {s : String} (h : read s = .ok v) : Fits maxDepth v := by
  obtain ⟨⟨v', rest⟩, hv, h⟩ := bind_eq_ok.mp h
  dsimp only at h
  split at h
  · cases h
    exact (read_fits _).1 hv
  · cases h

end LiveSvg.Json
