import LiveSvg.Proofs.Lockstep
import LiveSvg.Script.Alone
/-!
What compiling makes of a body: a program that does what the statements do as they are written, as long as
nothing that the margin of the body is part of goes on from one line to another.
-/

namespace LiveSvg.Script

open Text Token

/-! ### A statement that does nothing, at the end -/

theorem bindsAll_pass (ss : List Stmt) : bindsAll (ss ++ [.pass]) = bindsAll ss := by
  induction ss with
  | nil => simp [bindsAll, Stmt.binds]
  | cons s ss ih => rw [List.cons_append, bindsAll, bindsAll, ih]

theorem execAll_pass (l : Locals) (ss : List Stmt) : execAll l (ss ++ [.pass]) = execAll l ss := by
  induction ss generalizing l with
  | nil => rfl
  | cons s ss ih =>
    rw [List.cons_append, execAll, execAll]
    refine congrArg (Act.bind _) (funext fun e => ?_)
    cases e with
    | next l => exact ih l
    | gave d => rfl

namespace Program

variable {name : String} {params : List String} {ss : List Stmt}

theorem call_pass (args : List Datum) : ({ name, params, body := ss ++ [.pass] } : Program).call args =
    ({ name, params, body := ss } : Program).call args := by
  simp only [call, locals, bindsAll_pass, execAll_pass]

/-- A program that gives nothing does what one without statements does. -/
theorem call_idle (h : isHead params name = true) (args : List Datum) :
    (idle params name).call args = ({ name, params, body := [] } : Program).call args := by
  rw [idle, if_pos h]
  rfl

end Program

/-! ### Statements as they are written -/

/-- The lines of a source as it is written, each with its end. -/
def written (source : String) : List Char := withLineFeeds (chars source) ++ ['\n']

/-- The statements of a source as it is written, at the depth that it has itself. -/
def written? (source : String) : Option (List Stmt) := do
  let cs := written source
  if cs.contains '\x00' then none
  else Grammar.body (enclosed (← Token.read (4 * cs.length + 8) {} cs))

/-- Where the reading of a source comes by. -/
def places (source : String) : List (State × List Char) :=
  trail (4 * (written source).length + 8) {} (written source)

/-- The margins of the lines that statements of a source start on. -/
def starts (source : String) : List (List Char) := (places source).filterMap startOf?

/-- What a source keeps to that means the same in a program. -/
structure Portable (source : String) : Prop where
  /-- Lines end with line feeds alone. -/
  ends : ∀ c ∈ chars source, isLineEnd c = true → c = '\n'
  /-- Lines of blanks have spaces and tabs alone. -/
  blanks : ∀ l ∈ splitAt '\n' (chars source), l.all isBlank = true → l.all isMargin = true
  /-- No line that is not blank starts less deep than the first statement. -/
  first : ∀ l, (splitAt '\n' (chars source)).find? (fun l => !isIdle (textOf l)) = some l →
    marginOf l = sharedMargin (splitAt '\n' (chars source))
  /-- No text between quotation marks goes on over the end of a line, and no line goes on with nothing. -/
  settled : ∀ p ∈ places source, isSettled p = true
  /-- Of two margins that statements start on one goes on where the other one ends. -/
  aligned : ∀ a ∈ starts source, ∀ b ∈ starts source, a <+: b ∨ b <+: a

/-- Whether a source keeps to that. -/
def isPortable (source : String) : Bool :=
  (chars source).all (fun c => !isLineEnd c || c == '\n') &&
    (splitAt '\n' (chars source)).all (fun l => !l.all isBlank || l.all isMargin) &&
    ((splitAt '\n' (chars source)).find? fun l => !isIdle (textOf l)).all
      (fun l => marginOf l == sharedMargin (splitAt '\n' (chars source))) &&
    (places source).all isSettled &&
    (starts source).all fun a => (starts source).all fun b => a.isPrefixOf b || b.isPrefixOf a

section

variable {source : String}

theorem portable_of_isPortable (h : isPortable source = true) : Portable source := by
  simp only [isPortable, Bool.and_eq_true, List.all_eq_true, Option.all_eq_true, beq_iff_eq] at h
  obtain ⟨⟨⟨⟨hends, hblanks⟩, hfirst⟩, hsettled⟩, haligned⟩ := h
  refine ⟨?_, ?_, hfirst, hsettled, ?_⟩
  · intro c hc he
    have hor := hends c hc
    rwa [he, Bool.not_true, Bool.false_or, beq_iff_eq] at hor
  · intro l hl hb
    have hor := hblanks l hl
    rwa [hb, Bool.not_true, Bool.false_or] at hor
  · intro a ha b hb
    have hor := haligned a ha b hb
    rwa [Bool.or_eq_true, List.isPrefixOf_iff_prefix, List.isPrefixOf_iff_prefix] at hor

theorem Portable.written_eq (h : Portable source) : written source = ended (splitAt '\n' (chars source)) := by
  have hreturn : '\r' ∉ chars source := fun hr => absurd (h.ends _ hr (by decide)) (by decide)
  rw [written, withLineFeeds_eq_self hreturn, ended_splitAt]

/-- Every line of a source is of spaces and tabs alone, or starts with the margin that all others share. -/
theorem Portable.isLine (h : Portable source) {l : List Char} (hl : l ∈ splitAt '\n' (chars source)) :
    IsLine (sharedMargin (splitAt '\n' (chars source))) l := by
  refine ⟨not_mem_of_mem_splitAt hl, ?_, ?_⟩
  · intro hf
    exact absurd (h.ends _ (mem_of_mem_splitAt hl hf) (by decide)) (by decide)
  · cases hm : l.all isMargin with
    | true => exact .inl rfl
    | false =>
      refine .inr ⟨?_, sharedMargin_prefix hl hm⟩
      rw [Bool.eq_false_iff]
      intro hb
      rw [h.blanks l hl hb] at hm
      cases hm

theorem exists_text_of_not_blank {cs : List Char} (h : cs.all isBlank = false) :
    ∃ l ∈ splitAt '\n' cs, l.all isMargin = false := by
  obtain ⟨c, hc, hb⟩ := List.all_eq_false.mp h
  have hmem : c ∈ ended (splitAt '\n' cs) := by
    rw [ended_splitAt]
    exact List.mem_append_left _ hc
  obtain ⟨l, hl, hcl⟩ := List.mem_flatMap.mp hmem
  refine ⟨l, hl, ?_⟩
  rw [Bool.eq_false_iff]
  intro hm
  rcases List.mem_append.mp hcl with hcl | hcl
  · exact hb (isBlank_of_isMargin (List.all_eq_true.mp hm c hcl))
  · rw [List.mem_singleton.mp hcl] at hb
    exact hb (by decide)

/-- The text of a program, line by line, without the blank lines around those of its source. -/
theorem Portable.exists_lines (h : Portable source) (hb : (chars source).all isBlank = false) :
    ∃ pre mid post, splitAt '\n' (chars source) = pre ++ (mid ++ post) ∧ (∀ l ∈ pre, l.all isMargin = true) ∧
      (∀ l ∈ post, l.all isMargin = true) ∧
      bodyText (chars source) = ended (mid.map (replaced (sharedMargin (splitAt '\n' (chars source)))) ++ [passLine]) := by
  obtain ⟨pre, mid, post, hlines, hpre, hpost, hne, hfirst, hlast⟩ := exists_between (exists_text_of_not_blank hb)
  exact ⟨pre, mid, post, hlines, hpre, hpost, bodyText_eq h.ends hlines hpre hpost hne hfirst hlast⟩

theorem Portable.mem_bodyText (h : Portable source) (hb : (chars source).all isBlank = false) {c : Char}
    (hc : c ∈ bodyText (chars source)) : c ∈ chars source ∨ c ∈ '\n' :: passLine := by
  obtain ⟨pre, mid, post, hlines, -, -, htext⟩ := h.exists_lines hb
  rw [htext] at hc
  refine (mem_bodyLine hc).imp_left ?_
  rintro ⟨l, hl, hcl⟩
  have hline : l ∈ splitAt '\n' (chars source) := by
    rw [hlines]
    exact List.mem_append_right _ (List.mem_append_left _ hl)
  exact mem_of_mem_splitAt hline hcl

theorem Portable.read (h : Portable source) (hb : (chars source).all isBlank = false) {ts : List Token}
    (hr : Token.read (4 * (written source).length + 8) {} (written source) = some ts) :
    ∃ b, enclosed ts = .indent :: (b ++ Grammar.blockEnd) ∧
      Token.read (4 * (bodyText (chars source)).length + 8) {} (bodyText (chars source)) =
        some (.indent :: (b ++ Grammar.passEnd)) := by
  obtain ⟨pre, mid, post, hlines, hpre, hpost, htext⟩ := h.exists_lines hb
  obtain ⟨m, hm⟩ : ∃ m, sharedMargin (splitAt '\n' (chars source)) = m := ⟨_, rfl⟩
  have hS : Aligned m ((starts source).filter (m.isPrefixOf ·)) := by
    refine ⟨?_, ?_, ?_⟩
    · intro a ha
      obtain ⟨p, -, hp⟩ := List.mem_filterMap.mp (List.mem_filter.mp ha).1
      rw [startOf?] at hp
      split at hp
      · cases hp
        exact all_marginOf _
      · cases hp
    · exact fun a ha => List.isPrefixOf_iff_prefix.mp (List.mem_filter.mp ha).2
    · exact fun a ha b hb => h.aligned a (List.mem_filter.mp ha).1 b (List.mem_filter.mp hb).1
  have hmid : ∀ l ∈ mid, IsLine m l := by
    intro l hl
    rw [← hm]
    refine h.isLine ?_
    rw [hlines]
    exact List.mem_append_right _ (List.mem_append_left _ hl)
  have hfirst : ∀ l, mid.find? (fun l => !isIdle (textOf l)) = some l → marginOf l = m := by
    intro l hl
    have hnone : pre.find? (fun l => !isIdle (textOf l)) = none := by
      rw [List.find?_eq_none]
      intro l hl
      rw [textOf_of_margin (hpre l hl)]
      decide
    rw [← hm]
    refine h.first l ?_
    rw [hlines, List.find?_append, hnone, List.find?_append, hl]
    rfl
  have hplaces : ∀ p ∈ places source, Settled m ((starts source).filter (m.isPrefixOf ·)) p := by
    intro p hp
    refine ⟨h.settled p hp, fun r hr hmr => List.mem_filter.mpr ⟨?_, List.isPrefixOf_iff_prefix.mpr hmr⟩⟩
    exact List.mem_filterMap.mpr ⟨p, hp, hr⟩
  rw [places, h.written_eq, hlines] at hplaces
  rw [h.written_eq, hlines] at hr
  obtain ⟨n, hr, htrail⟩ := read_pre rfl hpre hr
  obtain ⟨b, hb, hreads⟩ := reads_first hS hpost hmid hfirst hr fun p hp => hplaces p (htrail p hp)
  refine ⟨b, hb, ?_⟩
  rw [htext, hm]
  refine hreads _ ?_
  rw [cost]
  split <;> omega

theorem exists_of_written? {ss : List Stmt} (hw : written? source = some ss) :
    '\x00' ∉ written source ∧ ∃ ts, Token.read (4 * (written source).length + 8) {} (written source) = some ts ∧
      Grammar.body (enclosed ts) = some ss := by
  rw [written?] at hw
  split at hw
  · cases hw
  · next hz =>
    obtain ⟨ts, hr, hbody⟩ := Option.bind_eq_some_iff.mp hw
    exact ⟨by simpa using hz, ts, hr, hbody⟩

/-- The statements of a program are those of its source as it is written, and one that does nothing. -/
theorem Portable.statements (h : Portable source) (hb : (chars source).all isBlank = false) {ss : List Stmt}
    (hw : written? source = some ss) : statements? source = some (ss ++ [.pass]) := by
  obtain ⟨hz, ts, hr, hbody⟩ := exists_of_written? hw
  obtain ⟨b, henclosed, hread⟩ := h.read hb hr
  rw [henclosed] at hbody
  have hz' : ¬((bodyText (chars source)).contains '\x00' = true) := by
    rw [List.contains_iff_mem]
    intro hc
    rcases h.mem_bodyText hb hc with hc | hc
    · refine hz ?_
      rw [h.written_eq, ended_splitAt]
      exact List.mem_append_left _ hc
    · exact absurd hc (by decide)
  rw [statements?, if_neg hz', hread]
  exact Grammar.body_passEnd hbody

theorem Portable.written_blank (h : Portable source) (hb : (chars source).all isBlank = true) {ss : List Stmt}
    (hw : written? source = some ss) : ss = [] := by
  obtain ⟨-, ts, hr, hbody⟩ := exists_of_written? hw
  have hlines : ∀ l ∈ splitAt '\n' (chars source), l.all isMargin = true := by
    intro l hl
    refine h.blanks l hl (List.all_eq_true.mpr fun c hc => ?_)
    exact List.all_eq_true.mp hb c (mem_of_mem_splitAt hl hc)
  rw [h.written_eq] at hr
  have hnil : ts = [] := read_post rfl hlines hr
  rw [hnil] at hbody
  exact (Option.some.inj hbody).symm

end

/-- Compiling keeps what a script means: its program does what the statements do as they are written, and has
the same of them but for a last one that does nothing. -/
theorem compiled_as_written {source name : String} {params : List String} {ss : List Stmt}
    (hhead : isHead params name = true) (hw : written? source = some ss) (hp : Portable source) :
    (Program.ofSource source params name).1 = [] ∧
      (∀ args, (Program.ofSource source params name).2.call args =
        ({ name, params, body := ss } : Program).call args) ∧
      ((chars source).all isBlank = false → (Program.ofSource source params name).2.body = ss ++ [.pass]) := by
  cases hb : (chars source).all isBlank with
  | true =>
    rw [hp.written_blank hb hw, Program.ofSource, if_pos hb]
    exact ⟨rfl, Program.call_idle hhead, fun h => by cases h⟩
  | false =>
    have hparams : params.find? (fun p => !isParameter p) = none := by
      rw [List.find?_eq_none]
      intro p hp
      rw [isHead, Bool.and_eq_true, Bool.and_eq_true, Bool.and_eq_true, List.all_eq_true] at hhead
      simp [hhead.1.1.1 p hp]
    have hsource : Program.ofSource source params name = ([], { name, params, body := ss ++ [.pass] }) := by
      rw [Program.ofSource, if_neg (by rw [hb]; exact Bool.false_ne_true), hparams]
      dsimp only
      rw [if_pos hhead, hp.statements hb hw]
    rw [hsource]
    exact ⟨rfl, Program.call_pass, fun _ => rfl⟩

theorem compiled_as_written_branch :
    ∃ ss, ss = [.when (.name "a") [.give (some (.text "x  y"))] [],
        .give (some (.call (.name "max") [.int 1, .name "a"]))] ∧
      written? "\n  if a:\n      return 'x  y'\n\n  # or else\n  return max(1,\n      a)" = some ss ∧
      (Program.ofSource "\n  if a:\n      return 'x  y'\n\n  # or else\n  return max(1,\n      a)" ["a"] "script").1 = [] ∧
      (∀ args,
        (Program.ofSource "\n  if a:\n      return 'x  y'\n\n  # or else\n  return max(1,\n      a)" ["a"] "script").2.call
          args = ({ name := "script", params := ["a"], body := ss } : Program).call args) ∧
      (Program.ofSource "\n  if a:\n      return 'x  y'\n\n  # or else\n  return max(1,\n      a)" ["a"] "script").2.body =
        ss ++ [.pass] := by
  have hw : written? "\n  if a:\n      return 'x  y'\n\n  # or else\n  return max(1,\n      a)" =
      some [.when (.name "a") [.give (some (.text "x  y"))] [],
        .give (some (.call (.name "max") [.int 1, .name "a"]))] := rfl
  have hhead : isHead ["a"] "script" = true := rfl
  obtain ⟨hlog, hcall, hbody⟩ := compiled_as_written hhead hw (portable_of_isPortable rfl)
  exact ⟨_, rfl, hw, hlog, hcall, hbody rfl⟩

/-- A text between three quotation marks that goes on on another line has the margin of the program in it. -/
theorem literal_with_margin :
    isHead [] "script" = true ∧
      written? "return \x27\x27\x27a\n  b\x27\x27\x27" = some [.give (some (.text "a\n  b"))] ∧
      (Program.ofSource "return \x27\x27\x27a\n  b\x27\x27\x27" [] "script").2.call [] = .done (.text "a\n      b") ∧
      (Program.ofSource "return \x27\x27\x27a\n  b\x27\x27\x27" [] "script").2.call [] ≠
        ({ name := "script", params := [], body := [.give (some (.text "a\n  b"))] } : Program).call [] := by
  refine ⟨rfl, rfl, rfl, ?_⟩
  intro h
  have htexts : Act.done (Datum.text "a\n      b") = Act.done (Datum.text "a\n  b") := h
  exact absurd (Datum.text.inj (Act.done.inj htexts)) (by decide)

end LiveSvg.Script
