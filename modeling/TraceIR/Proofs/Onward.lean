import TraceIR.Proofs.ErrorPlaces

/-!
# Parsers read on

A parser ends at or after the place where it began and inside the text, and so does every parser
that is put together from others. An error also lies at or after that place, but maybe beyond the
text.

* `Outcome.Onward` says this of an outcome, together with: nothing outside the text is looked at.
  There is one lemma for each way to combine parsers and one for each parser.
* `Grammar.onward_run` is the induction over grammars.
-/

namespace TraceIR.Script

/-! ### Offsets of cursors -/

namespace Cursor.In

variable {c d : Cursor} {text : Bytes}

/-- A cursor in a text is determined by its offset. -/
theorem eq_of_pos (hc : c.In text) (hd : d.In text) (h : c.pos = d.pos) : c = d := by
  cases c
  cases d
  cases h
  exact congrArg _ (hc.rest.trans hd.rest.symm)

theorem pos_eq_of_rest (hc : c.In text) (h : c.rest = []) : c.pos = text.length := by
  rw [hc.rest] at h
  exact Nat.le_antisymm hc.le (List.drop_eq_nil_iff.mp h)

theorem pos_lt_of_rest (hc : c.In text) (h : ¬ c.rest.isEmpty = true) : c.pos < text.length := by
  refine Nat.lt_of_le_of_ne hc.le fun heq => h ?_
  rw [hc.rest, List.drop_eq_nil_of_le (Nat.le_of_eq heq.symm)]
  rfl

end Cursor.In

theorem Spaces.pos_le_skip (s : Spaces) (c : Cursor) : c.pos ≤ (s.skip c).pos :=
  Nat.le_add_right ..

/-! ### Onward outcomes -/

namespace Outcome

variable {α β : Type} {text : Bytes} {x : Outcome α} {start m : Nat}

/-- A result leaves a cursor in the text, at or after the start. An error lies at or after the
start, maybe beyond the text. Nothing outside the text is looked at. -/
def Onward (text : Bytes) (start : Nat) : Outcome α → Prop
  | .done _ next => next.In text ∧ start ≤ next.pos
  | .failed _ o => start ≤ o
  | .endless => True
  | .outside => False

theorem Onward.of_eq {y : Outcome α} (h : x.Onward text start) (hx : x = y) :
    y.Onward text start :=
  hx ▸ h

private theorem Onward.mono (h : x.Onward text m) (hle : start ≤ m) : x.Onward text start := by
  cases x with
  | done a next => exact ⟨h.1, Nat.le_trans hle h.2⟩
  | failed e o => exact Nat.le_trans hle h
  | endless => exact True.intro
  | outside => exact h

theorem Onward.map (h : x.Onward text start) (f : α → β) : (x.map f).Onward text start := by
  cases x with
  | done a next => exact h
  | failed e o => exact h
  | endless => exact True.intro
  | outside => exact h

theorem Onward.during (h : x.Onward text start) (s : Step) : (x.during s).Onward text start := by
  cases x with
  | done a next => exact h
  | failed e o => exact h
  | endless => exact True.intro
  | outside => exact h

/-- An error that counts as one at an earlier place. -/
theorem Onward.rebase (h : x.Onward text m) (hle : start ≤ m) :
    (x.rebase m start).Onward text start := by
  cases x with
  | done a next => exact ⟨h.1, Nat.le_trans hle h.2⟩
  | failed e o =>
    have ho : m ≤ o := h
    show start ≤ if o = m then start else o
    split
    · exact Nat.le_refl start
    · omega
  | endless => exact True.intro
  | outside => exact h

/-- What follows begins in the text, and not before the start. -/
private theorem Onward.bind {f : α → Cursor → Outcome β} (h : x.Onward text start)
    (hf : ∀ a c, c.In text → start ≤ c.pos → (f a c).Onward text start) :
    (x.bind f).Onward text start := by
  cases x with
  | done a next => exact hf a next h.1 h.2
  | failed e o => exact h
  | endless => exact True.intro
  | outside => exact h

private theorem onward_firstFailure (kinds : List ParserKind) {xs : List (ParserKind × Outcome α)}
    (h : ∀ p ∈ xs, p.2.Onward text start) : (firstFailure start kinds xs).Onward text start := by
  induction xs with
  | nil => exact Nat.le_refl start
  | cons p xs ih =>
    obtain ⟨hp, hxs⟩ := List.forall_mem_cons.mp h
    obtain ⟨k, y⟩ := p
    cases y with
    | failed e o =>
      -- an alternative that failed at the start did not get going, so the next one is asked
      rw [firstFailure]
      split
      · exact ih hxs
      · exact hp
    | done a next => exact ih hxs
    | endless => exact ih hxs
    | outside => exact ih hxs

/-- What did not fail is one of the alternatives. -/
theorem mem_of_firstSuccess? {xs : List (ParserKind × Outcome α)} (h : firstSuccess? xs = some x) :
    ∃ k, (k, x) ∈ xs := by
  induction xs with
  | nil => cases h
  | cons p xs ih =>
    obtain ⟨k, y⟩ := p
    cases y with
    | failed e o =>
      obtain ⟨k', hmem⟩ := ih h
      exact ⟨k', List.mem_cons_of_mem _ hmem⟩
    | _ =>
      cases h
      exact ⟨k, List.mem_cons_self⟩

private theorem onward_firstOf {xs : List (ParserKind × Outcome α)}
    (h : ∀ p ∈ xs, p.2.Onward text start) :
    (firstOf start xs).Onward text start := by
  rw [firstOf]
  cases hfound : firstSuccess? xs with
  | none => exact onward_firstFailure _ h
  | some y =>
    obtain ⟨k, hmem⟩ := mem_of_firstSuccess? hfound
    exact h _ hmem

private theorem onward_manyFrom (sep : Spaces) {item : Cursor → Outcome α}
    (hitem : ∀ c, c.In text → (item c).Onward text c.pos) (index : Nat) {c : Cursor}
    (hc : c.In text) : (manyFrom sep item index c).Onward text c.pos := by
  -- an item that begins after the blanks reads on from before them
  have hfirst : ∀ c, c.In text → (item (sep.skip c)).Onward text c.pos := fun c hc =>
    (hitem _ (hc.skip sep)).mono (sep.pos_le_skip c)
  fun_induction manyFrom sep item index c with
  | case1 index c hempty => exact ⟨hc, Nat.le_refl _⟩
  | case2 index c hempty first e hrun => exact ⟨hc, Nat.le_refl _⟩
  | case3 index c hempty first e o hrun hne => exact (hfirst c hc).of_eq hrun
  | case4 => exact True.intro
  | case5 index c hempty first hrun => exact (hfirst c hc).of_eq hrun
  | case6 index c hempty first a next hrun hlt ih =>
    have hitem := (hfirst c hc).of_eq hrun
    exact ((ih hitem.1).mono hitem.2).map _
  | case7 => exact True.intro

end Outcome

/-! ### Words, statements and scripts -/

namespace Token

open Outcome

variable {c : Cursor} {text : Bytes}

/-- A word of some bytes that are there. -/
private theorem onward_advance {α : Type} (hc : c.In text) {n : Nat} (hn : n ≤ c.rest.length)
    (a : α) :
    (Outcome.done a (c.advance n)).Onward text c.pos :=
  ⟨hc.advance hn, Nat.le_add_right ..⟩

theorem onward_number (hc : c.In text) : (number c).Onward text c.pos := by
  rw [number]
  split
  · exact Nat.le_refl _
  · next n fraction hn => exact onward_advance hc (numberLength?_le hn) _

theorem onward_integer (hc : c.In text) : (integer c).Onward text c.pos := by
  rw [integer]
  split
  · exact Nat.le_refl _
  · exact Nat.le_add_right ..
  · next n hn => exact onward_advance hc (numberLength?_le hn) _

theorem onward_fraction (hc : c.In text) : (fraction c).Onward text c.pos := by
  rw [fraction]
  split
  · exact Nat.le_refl _
  · next n _ hn => exact onward_advance hc (numberLength?_le hn) _

theorem onward_literal (hc : c.In text) : (literal c).Onward text c.pos := by
  rw [literal]
  split
  · next r hrest =>
    have hmark : 1 ≤ c.rest.length := by simp [hrest]
    exact (((onward_integer (hc.advance hmark)).map _).during _).mono (Nat.le_add_right ..)
  · exact Nat.le_refl _

theorem onward_ident (hc : c.In text) : (ident c).Onward text c.pos := by
  rw [ident]
  split
  · next x r hrest =>
    have hname : (identLength r).1 + 1 ≤ c.rest.length := by
      rw [hrest]
      exact Nat.succ_le_succ (identLength_le r)
    split
    · split
      · next n hn =>
        rw [hn] at hname
        exact onward_advance hc hname _
      · -- a bad character comes after the first letter
        exact Nat.le_add_right_of_le (Nat.le_add_right ..)
    · exact Nat.le_refl _
  · exact Nat.le_refl _

theorem onward_string (hc : c.In text) : (string c).Onward text c.pos := by
  rw [string]
  split
  · next r hrest =>
    split
    · next n hn =>
      refine onward_advance hc ?_ _
      rw [hrest]
      exact Nat.succ_le_succ (stringEnd_le hn)
    · exact Nat.le_add_right_of_le (Nat.le_add_right ..)
    · -- maybe beyond the text
      exact Nat.le_add_right_of_le (Nat.le_add_right ..)
  · exact Nat.le_refl _

theorem onward_fixed (b : Bytes) (hc : c.In text) : (fixed b c).Onward text c.pos := by
  rw [fixed]
  split
  · next h => exact onward_advance hc (List.isPrefixOf_iff_prefix.mp h).length_le _
  · exact Nat.le_refl _

end Token

section Statements

variable {c : Cursor} {text : Bytes}

theorem Arg.onward_parse (hc : c.In text) : (Arg.parse c).Onward text c.pos := by
  rw [Arg.parse]
  split
  · exact Nat.le_refl _
  · refine Outcome.onward_firstOf ?_
    simp only [List.forall_mem_cons]
    exact ⟨Token.onward_literal hc, Token.onward_number hc, Token.onward_string hc,
      (Token.onward_ident hc).map _, fun _ h => absurd h List.not_mem_nil⟩

namespace Statement

private theorem pos_le_of_resultName? {next : Cursor} {name : Lexeme} (hc : c.In text)
    (h : resultName? c = some (name, next)) : c.pos ≤ next.pos := by
  rw [resultName?] at h
  split at h
  · next name c₁ h₁ =>
    have hident := (Token.onward_ident hc).of_eq h₁
    split at h
    · next b c₂ h₂ =>
      cases h
      have hfixed := (Token.onward_fixed (Bytes.ascii "=") (hident.1.skip Spaces.inline)).of_eq h₂
      exact Nat.le_trans hident.2 (Nat.le_trans (Spaces.pos_le_skip ..) hfixed.2)
    · cases h
  · cases h

theorem onward_resultType (hc : c.In text) : (resultType c).Onward text c.pos := by
  rw [resultType]
  split
  · next r hrest =>
    have hpoint : 1 ≤ c.rest.length := by simp [hrest]
    exact (((Token.onward_ident (hc.advance hpoint)).map _).during _).mono (Nat.le_add_right ..)
  · exact ⟨hc, Nat.le_refl _⟩

private theorem pos_le_guardMark (c : Cursor) : c.pos ≤ (guardMark c).2.pos := by
  rw [guardMark]
  split
  · exact Nat.le_add_right ..
  · exact Nat.le_refl _

private theorem onward_parseFrom (pos : Nat) (name : Option Lexeme) (hc : c.In text) :
    (parseFrom pos name c).Onward text c.pos := by
  refine ((Token.onward_ident hc).during _).bind fun op c₁ h₁ hle₁ => ?_
  refine ((onward_resultType h₁).mono hle₁).bind fun ty c₂ h₂ hle₂ => ?_
  have hle₃ := Nat.le_trans hle₂ (pos_le_guardMark c₂)
  have hargs :=
    Outcome.onward_manyFrom Spaces.inline (fun _ => Arg.onward_parse) 0 (in_guardMark h₂)
  exact ((hargs.during _).mono hle₃).bind fun args c₄ h₄ hle₄ => ⟨h₄, hle₄⟩

theorem onward_parse (hc : c.In text) : (parse c).Onward text c.pos := by
  rw [parse]
  split
  · next name next hname =>
    -- what follows the equals sign begins even later
    refine (onward_parseFrom _ _ ((in_of_resultName? hc hname).skip _)).mono ?_
    exact Nat.le_trans (pos_le_of_resultName? hc hname) (Spaces.pos_le_skip ..)
  · exact (onward_parseFrom _ _ (hc.skip _)).mono (Spaces.pos_le_skip ..)

end Statement

namespace Program

theorem onward_statementsFrom (index : Nat) (hc : c.In text) :
    (statementsFrom index c).Onward text c.pos := by
  have hfirst : ∀ {c : Cursor} index, c.In text →
      ((Statement.parse (Spaces.all.skipComments c)).during (.statement index)).Onward text c.pos :=
    fun index hc =>
      ((Statement.onward_parse (hc.skipComments _)).during _).mono (Nat.le_add_right ..)
  fun_induction statementsFrom index c with
  | case1 index c c₁ hempty => exact ⟨hc.skipComments _, Nat.le_add_right ..⟩
  | case2 index c c₁ hempty e o hrun => exact (hfirst index hc).of_eq hrun
  | case3 => exact True.intro
  | case4 index c c₁ hempty hrun => exact (hfirst index hc).of_eq hrun
  | case5 index c c₁ hempty s after hrun next hline =>
    -- the error lies where the blanks after the statement end
    have hstatement := (hfirst index hc).of_eq hrun
    exact Nat.le_trans hstatement.2 (Nat.le_add_right ..)
  | case6 index c c₁ hempty s after hrun next hline hlt ih =>
    have hstatement := (hfirst index hc).of_eq hrun
    refine ((ih (hstatement.1.skipComments _)).mono ?_).map _
    exact Nat.le_trans hstatement.2 (Nat.le_add_right ..)
  | case7 => exact True.intro

private theorem onward_parse (hc : c.In text) : (parse c).Onward text c.pos :=
  (onward_statementsFrom 0 hc).bind fun _ _ h hle => ⟨h, hle⟩

end Program

end Statements

/-! ### Grammars -/

namespace Grammar

variable {c : Cursor} {text : Bytes}

/-- Reading nothing is reading on. -/
private theorem onward_orNothing {x : Outcome Node} (hc : c.In text) (h : x.Onward text c.pos) :
    (orNothing c x).Onward text c.pos := by
  cases x with
  | done a next =>
    rw [orNothing]
    split
    · exact ⟨hc, Nat.le_refl _⟩
    · exact h
  | failed e o =>
    rw [orNothing]
    split
    · exact ⟨hc, Nat.le_refl _⟩
    · exact h
  | endless => exact True.intro
  | outside => exact h

mutual

/-- **Every grammar** reads on, from every cursor in the text. -/
theorem onward_run (p : Grammar) {c : Cursor} (hc : c.In text) :
    (p.run .inside c).Onward text c.pos := by
  cases p with
  | none => exact ⟨hc, Nat.le_refl _⟩
  | num => exact (Token.onward_number hc).map _
  | int => exact (Token.onward_integer hc).map _
  | float => exact (Token.onward_fraction hc).map _
  | lit => exact (Token.onward_literal hc).map _
  | ident => exact (Token.onward_ident hc).map _
  | string => exact (Token.onward_string hc).map _
  | arg => exact (Arg.onward_parse hc).map _
  | stmt => exact (Statement.onward_parse hc).map _
  | program => exact (Program.onward_parse hc).map _
  | const b => exact (Token.onward_fixed b hc).map _
  | optional p => exact onward_orNothing hc (onward_run p hc)
  | context pre of post =>
    refine ((onward_run pre hc).during _).bind fun _ c₁ h₁ hle₁ => ?_
    -- an error where the middle one begins counts as one where the whole begins
    refine (((onward_run of h₁).during _).rebase hle₁).bind fun x c₂ h₂ hle₂ => ?_
    exact (((onward_run post h₂).during _).mono hle₂).bind fun _ c₃ h₃ hle₃ => ⟨h₃, hle₃⟩
  | allOf ps => exact (onward_runAll ps 0 hc).map _
  | anyOf ps => exact Outcome.onward_firstOf (onward_runEach ps hc)
  | many p sep => exact (Outcome.onward_manyFrom sep (fun _ => onward_run p) 0 hc).map _
  | spaced p sep =>
    exact ((onward_run p (hc.skip sep)).during _).rebase (sep.pos_le_skip c)

theorem onward_runAll (ps : List Grammar) (index : Nat) {c : Cursor} (hc : c.In text) :
    (runAll .inside ps index c).Onward text c.pos := by
  cases ps with
  | nil => exact ⟨hc, Nat.le_refl _⟩
  | cons p ps =>
    exact ((onward_run p hc).during _).bind fun _ _ h hle =>
      ((onward_runAll ps (index + 1) h).mono hle).map _

private theorem onward_runEach (ps : List Grammar) {c : Cursor} (hc : c.In text) :
    ∀ q ∈ runEach .inside ps c, q.2.Onward text c.pos := by
  cases ps with
  | nil => exact fun _ h => absurd h List.not_mem_nil
  | cons p ps => exact List.forall_mem_cons.mpr ⟨onward_run p hc, onward_runEach ps hc⟩

end

/-- At an offset of the text a grammar runs from the cursor there. -/
theorem parseAt_of_le (p : Grammar) {start : Nat} (h : start ≤ text.length) :
    p.parseAt text start = p.run .inside ⟨start, text.drop start⟩ := by
  rw [parseAt, if_neg (by omega), Int.toNat_natCast, Cursor.at?, if_pos h]

end Grammar

end TraceIR.Script
