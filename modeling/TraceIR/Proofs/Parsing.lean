import TraceIR.Script.Source

/-!
# Parsing comes to an end

A repetition would go on forever if an item took up nothing. No word and no statement does so.

* `Outcome.Within` — a result that leaves fewer than `n` bytes, or an error. It composes
  (`Within.bind`).
* One lemma for each parser of words ends in `within_arg`, and one for each part of a statement in
  `Statement.within_parse`.
* `parseFile_ne_endless` — every script is parsed to an end.
-/

namespace TraceIR.Script

/-! ### Outcomes that leave less -/

namespace Outcome

variable {α β : Type}

/-- The outcome is an error, or a result with fewer than `n` bytes after it. -/
def Within (n : Nat) : Outcome α → Prop
  | .done _ next => next.rest.length < n
  | .failed .. => True
  | .endless => False
  | .outside => False

variable {x : Outcome α} {m n : Nat}

private theorem Within.mono (h : x.Within m) (hmn : m ≤ n) : x.Within n := by
  cases x with
  | done a next => exact Nat.lt_of_lt_of_le h hmn
  | failed e o => exact True.intro
  | endless => exact h
  | outside => exact h

theorem Within.map (h : x.Within n) (f : α → β) : (x.map f).Within n := by
  cases x with
  | done a next => exact h
  | failed e o => exact True.intro
  | endless => exact h
  | outside => exact h

theorem Within.during (h : x.Within n) (s : Step) : (x.during s).Within n := by
  cases x with
  | done a next => exact h
  | failed e o => exact True.intro
  | endless => exact h
  | outside => exact h

/-- What follows has only what the first one left. -/
theorem Within.bind {f : α → Cursor → Outcome β} (h : x.Within m)
    (hf : ∀ a c, c.rest.length < m → (f a c).Within n) : (x.bind f).Within n := by
  cases x with
  | done a next => exact hf a next h
  | failed e o => exact True.intro
  | endless => exact h.elim
  | outside => exact h.elim

theorem within_firstFailure (start : Nat) (kinds : List ParserKind)
    (xs : List (ParserKind × Outcome α)) : (firstFailure start kinds xs).Within n := by
  induction xs with
  | nil => exact True.intro
  | cons x xs ih =>
    obtain ⟨k, x⟩ := x
    cases x with
    | failed e o =>
      rw [firstFailure]
      split
      · exact ih
      · exact True.intro
    | done a next => exact ih
    | endless => exact ih
    | outside => exact ih

private theorem within_of_firstSuccess? {xs : List (ParserKind × Outcome α)}
    (h : ∀ p ∈ xs, p.2.Within n) (hx : firstSuccess? xs = some x) : x.Within n := by
  induction xs with
  | nil => cases hx
  | cons p xs ih =>
    obtain ⟨hp, hxs⟩ := List.forall_mem_cons.mp h
    obtain ⟨k, y⟩ := p
    cases y with
    | failed e o => exact ih hxs hx
    | done a next =>
      cases hx
      exact hp
    | endless => exact hp.elim
    | outside => exact hp.elim

/-- A choice does what one of its alternatives does. -/
private theorem within_firstOf (start : Nat) {xs : List (ParserKind × Outcome α)}
    (h : ∀ p ∈ xs, p.2.Within n) : (firstOf start xs).Within n := by
  rw [firstOf]
  cases hfound : firstSuccess? xs with
  | none => exact within_firstFailure ..
  | some y => exact within_of_firstSuccess? h hfound

end Outcome

/-! ### Cursors -/

theorem Cursor.length_advance_lt {c : Cursor} {n : Nat} (hn : 0 < n) (hc : c.rest ≠ []) :
    (c.advance n).rest.length < c.rest.length := by
  have hpos := List.length_pos_iff.mpr hc
  simp only [advance, List.length_drop]
  omega

private theorem Spaces.length_skip_le (s : Spaces) (c : Cursor) :
    (s.skip c).rest.length ≤ c.rest.length :=
  Cursor.length_advance_le ..

/-- Repeating a parser that takes up something comes to an end. -/
private theorem Outcome.within_manyFrom {α : Type} (sep : Spaces) {item : Cursor → Outcome α}
    (hitem : ∀ c, (item c).Within c.rest.length) (index : Nat) (c : Cursor) :
    (manyFrom sep item index c).Within (c.rest.length + 1) := by
  fun_induction manyFrom sep item index c with
  | case1 index c hempty => exact Nat.lt_succ_self _
  | case2 index c hempty first e hrun => exact Nat.lt_succ_self _
  | case3 index c hempty first e o hrun hne => exact True.intro
  | case4 index c hempty first hrun =>
    have hfirst := hitem first
    rw [hrun] at hfirst
    exact hfirst.elim
  | case5 index c hempty first hrun =>
    have hfirst := hitem first
    rw [hrun] at hfirst
    exact hfirst.elim
  | case6 index c hempty first a next hrun hlt ih =>
    exact (ih.mono (by omega)).map _
  | case7 index c hempty first a next hrun hge =>
    -- the item took up something, so this does not happen
    have hfirst := hitem first
    rw [hrun] at hfirst
    have hskip : first.rest.length ≤ c.rest.length := sep.length_skip_le c
    have hnext : next.rest.length < first.rest.length := hfirst
    omega

/-! ### Words -/

namespace Token

variable {b : Bytes} {c : Cursor}

/-- A number has at least one byte. -/
theorem pos_of_numberLength? {n : Nat} {fraction : Bool}
    (h : numberLength? b = some (n, fraction)) : 0 < n ∧ b ≠ [] := by
  have hnil : numberLength? [] = none := rfl
  refine ⟨?_, fun hb => ?_⟩
  · unfold numberLength? at h
    dsimp only at h
    split at h
    · split at h
      · cases h
      · cases h
        omega
    · split at h
      · cases h
      · next hn =>
        cases h
        simp only [Bool.or_eq_true, decide_eq_true_eq, not_or] at hn
        omega
  · rw [hb, hnil] at h
    cases h

theorem within_number (c : Cursor) : (number c).Within c.rest.length := by
  rw [number]
  split
  · exact True.intro
  · next n fraction hn =>
    obtain ⟨hpos, hne⟩ := pos_of_numberLength? hn
    exact Cursor.length_advance_lt hpos hne

theorem within_integer (c : Cursor) : (integer c).Within c.rest.length := by
  rw [integer]
  split
  · exact True.intro
  · exact True.intro
  · next n hn =>
    obtain ⟨hpos, hne⟩ := pos_of_numberLength? hn
    exact Cursor.length_advance_lt hpos hne

theorem within_literal (c : Cursor) : (literal c).Within c.rest.length := by
  rw [literal]
  split
  · exact (((within_integer _).mono (Cursor.length_advance_le c 1)).map _).during _
  · exact True.intro

theorem within_ident (c : Cursor) : (ident c).Within c.rest.length := by
  rw [ident]
  split
  · next x r hrest =>
    split
    · split
      · exact Cursor.length_advance_lt (Nat.succ_pos _) (by rw [hrest]; exact List.cons_ne_nil _ _)
      · exact True.intro
    · exact True.intro
  · exact True.intro

theorem within_string (c : Cursor) : (string c).Within c.rest.length := by
  rw [string]
  split
  · next r hrest =>
    split
    · exact Cursor.length_advance_lt (Nat.succ_pos _) (by rw [hrest]; exact List.cons_ne_nil _ _)
    · exact True.intro
    · exact True.intro
  · exact True.intro

end Token

theorem within_arg (c : Cursor) : (Arg.parse c).Within c.rest.length := by
  rw [Arg.parse]
  split
  · exact True.intro
  · refine Outcome.within_firstOf _ ?_
    simp only [List.forall_mem_cons]
    exact ⟨Token.within_literal c, Token.within_number c, Token.within_string c,
      (Token.within_ident c).map _, fun _ h => absurd h List.not_mem_nil⟩

/-! ### Statements -/

namespace Statement

private theorem within_resultType (c : Cursor) : (resultType c).Within (c.rest.length + 1) := by
  rw [resultType]
  split
  · refine ((((Token.within_ident _).mono ?_).map _).during _)
    exact Nat.le_succ_of_le (Cursor.length_advance_le c 1)
  · exact Nat.lt_succ_self _

private theorem length_guardMark_le (c : Cursor) : (guardMark c).2.rest.length ≤ c.rest.length := by
  rw [guardMark]
  split
  · exact Cursor.length_advance_le c 1
  · exact Nat.le_refl _

private theorem within_parseFrom (pos : Nat) (name : Option Lexeme) (c : Cursor) :
    (parseFrom pos name c).Within c.rest.length := by
  -- the opcode takes up something, and nothing after it gives it back
  refine ((Token.within_ident c).during _).bind fun op c₁ h₁ => ?_
  refine (within_resultType c₁).bind fun ty c₂ h₂ => ?_
  have h₃ := length_guardMark_le c₂
  generalize guardMark c₂ = mark at h₃ ⊢
  obtain ⟨guard, c₃⟩ := mark
  change c₃.rest.length ≤ c₂.rest.length at h₃
  have hargs := (Outcome.within_manyFrom Spaces.inline within_arg 0 c₃).during
  refine (hargs _).bind fun args c₄ h₄ => ?_
  show c₄.rest.length < c.rest.length
  omega

private theorem length_resultName? {c next : Cursor} {name : Lexeme}
    (h : resultName? c = some (name, next)) : next.rest.length ≤ c.rest.length := by
  rw [resultName?] at h
  split at h
  · next name c₁ h₁ =>
    have hident := Token.within_ident c
    rw [h₁] at hident
    split at h
    · next text c₂ h₂ =>
      cases h
      rw [Token.fixed] at h₂
      split at h₂
      · cases h₂
        exact Nat.le_trans (Cursor.length_advance_le ..)
          (Nat.le_trans (Spaces.length_skip_le ..) (Nat.le_of_lt hident))
      · cases h₂
    · cases h
  · cases h

theorem within_parse (c : Cursor) : (parse c).Within c.rest.length := by
  rw [parse]
  split
  · next name next hname =>
    refine (within_parseFrom ..).mono ?_
    exact Nat.le_trans (Spaces.length_skip_le ..) (length_resultName? hname)
  · exact (within_parseFrom ..).mono (Spaces.length_skip_le ..)

end Statement

/-! ### Scripts -/

private theorem Program.within_statementsFrom (index : Nat) (c : Cursor) :
    (statementsFrom index c).Within (c.rest.length + 1) := by
  fun_induction statementsFrom index c with
  | case1 index c c₁ hempty => exact Nat.lt_succ_of_le (Cursor.length_advance_le ..)
  | case2 index c c₁ hempty e o hrun => exact True.intro
  | case3 index c c₁ hempty hrun =>
    have hfirst := (Statement.within_parse c₁).during (.statement index)
    rw [hrun] at hfirst
    exact hfirst.elim
  | case4 index c c₁ hempty hrun =>
    have hfirst := (Statement.within_parse c₁).during (.statement index)
    rw [hrun] at hfirst
    exact hfirst.elim
  | case5 index c c₁ hempty s after hrun next hline => exact True.intro
  | case6 index c c₁ hempty s after hrun next hline hlt ih =>
    have hskip : c₁.rest.length ≤ c.rest.length := Cursor.length_advance_le ..
    exact (ih.mono (by omega)).map _
  | case7 index c c₁ hempty s after hrun next hline hge =>
    -- the statement took up something, so this does not happen
    have hfirst := (Statement.within_parse c₁).during (.statement index)
    rw [hrun] at hfirst
    have hskip : next.rest.length ≤ after.rest.length := Cursor.length_advance_le ..
    exact absurd (Nat.lt_of_le_of_lt hskip hfirst) hge

theorem Program.within_parse (c : Cursor) : (parse c).Within (c.rest.length + 1) :=
  (within_statementsFrom 0 c).bind fun _ _ h => h

/-- **Every script** is parsed to an end. -/
theorem parseFile_ne_endless (name text : Bytes) : parseFile name text ≠ .endless := by
  have hparse := Program.within_parse (.start (Source.text [⟨name, text⟩]))
  rw [parseFile, Source.parseWith]
  split
  · dsimp only
    split
    · exact fun h => by cases h
    · exact fun h => by cases h
  · exact fun h => by cases h
  · next hrun =>
    rw [hrun] at hparse
    exact hparse.elim
  · next hrun =>
    rw [hrun] at hparse
    exact hparse.elim

end TraceIR.Script
