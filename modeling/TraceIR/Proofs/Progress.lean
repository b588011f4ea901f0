import TraceIR.Proofs.Onward

/-!
# Repetitions that go on and repetitions that never end

A repetition applies its parser again and again, each time from where the last item ended, until the
text ends or the parser does not get going. Nothing in it asks whether an item took up anything.
This file says what follows from that.

* `Outcome.rounds` lists where the rounds of a repetition begin. An accepted round either ends after
  the place where it began or it stalls: it ends just there (`Outcome.Stalls`).
* Without a stalling round there are no more rounds than bytes (`Outcome.length_rounds_le`). A
  stalling round is repeated forever (`Outcome.length_rounds_of_stalls`), and besides an item that
  never ends this is the only way not to end (`Outcome.manyFrom_eq_endless_iff`).
* `Grammar.moves` holds of grammars that take up something wherever there is text left, and
  `Grammar.finite` of those in which all repeated grammars do so. They always come to an end.
* `Grammar.many_rounds` puts this together, and `Grammar.many_optional_never_ends` is a repetition
  that does not end.
-/

namespace TraceIR.Script

/-! ### Rounds -/

namespace Outcome

variable {α β : Type}

private theorem map_eq_endless_iff {x : Outcome α} {f : α → β} :
    x.map f = .endless ↔ x = .endless := by
  cases x <;> simp [map]

/-- The cursor after an accepted item, where the next round begins. -/
def nextRound? (sep : Spaces) (item : Cursor → Outcome α) (c : Cursor) : Option Cursor :=
  match item (sep.skip c) with
  | .done _ next => some next
  | _ => none

/-- Where the first rounds of a repetition begin, `n` at most. -/
def rounds (sep : Spaces) (item : Cursor → Outcome α) : (n : Nat) → Cursor → List Cursor
  | 0, _ => []
  | n + 1, c =>
    if c.rest.isEmpty then [] else c :: (nextRound? sep item c).elim [] (rounds sep item n)

/-- A round from the cursor on accepts an item and ends where it began. -/
def Stalls (sep : Spaces) (item : Cursor → Outcome α) (c : Cursor) : Prop :=
  ∃ a next, item (sep.skip c) = .done a next ∧ next.pos = c.pos

section Rounds

variable {sep : Spaces} {item : Cursor → Outcome α} {text : Bytes} {c d : Cursor} {n : Nat}

private theorem nextRound?_of_done {a : α} {next : Cursor} (h : item (sep.skip c) = .done a next) :
    nextRound? sep item c = some next := by
  rw [nextRound?, h]

private theorem exists_of_nextRound? {next : Cursor} (h : nextRound? sep item c = some next) :
    ∃ a, item (sep.skip c) = .done a next := by
  rw [nextRound?] at h
  split at h
  · next a next' hrun =>
    cases h
    exact ⟨a, hrun⟩
  · cases h

/-- A round is the first one, or it comes after an accepted item. -/
private theorem mem_rounds_succ :
    d ∈ rounds sep item (n + 1) c ↔
      ¬ c.rest.isEmpty = true ∧
        (d = c ∨ ∃ next, nextRound? sep item c = some next ∧ d ∈ rounds sep item n next) := by
  rw [rounds]
  split
  · next hempty => simp [hempty]
  · next hempty =>
    cases hnext : nextRound? sep item c with
    | none => simp [hempty]
    | some next => simp [hempty]

/-- Something is true of a round: of the first one, or of one after it. -/
private theorem exists_mem_rounds_iff {P : Cursor → Prop} :
    (∃ n, ∃ d ∈ rounds sep item n c, P d) ↔
      ¬ c.rest.isEmpty = true ∧ (P c ∨ ∃ next, nextRound? sep item c = some next ∧
        ∃ n, ∃ d ∈ rounds sep item n next, P d) := by
  constructor
  · rintro ⟨_ | n, d, hd, hP⟩
    · cases hd
    · obtain ⟨hempty, rfl | ⟨next, hnext, hd⟩⟩ := mem_rounds_succ.mp hd
      · exact ⟨hempty, .inl hP⟩
      · exact ⟨hempty, .inr ⟨next, hnext, n, d, hd, hP⟩⟩
  · rintro ⟨hempty, hP | ⟨next, hnext, n, d, hd, hP⟩⟩
    · exact ⟨1, c, mem_rounds_succ.mpr ⟨hempty, .inl rfl⟩, hP⟩
    · exact ⟨n + 1, d, mem_rounds_succ.mpr ⟨hempty, .inr ⟨next, hnext, hd⟩⟩, hP⟩

variable (hitem : ∀ c, c.In text → (item c).Onward text c.pos)

include hitem

/-- An accepted item leaves a cursor in the text, not before its round. -/
private theorem in_of_nextRound? {next : Cursor} (hc : c.In text)
    (h : nextRound? sep item c = some next) :
    next.In text ∧ c.pos ≤ next.pos := by
  obtain ⟨a, hrun⟩ := exists_of_nextRound? h
  have honward := (hitem _ (hc.skip sep)).of_eq hrun
  exact ⟨honward.1, Nat.le_trans (sep.pos_le_skip c) honward.2⟩

/-- Every round begins in the text, and before its end. -/
private theorem in_of_mem_rounds (hc : c.In text) (h : d ∈ rounds sep item n c) :
    d.In text ∧ ¬ d.rest.isEmpty = true := by
  induction n generalizing c with
  | zero => cases h
  | succ n ih =>
    obtain ⟨hempty, rfl | ⟨next, hnext, hd⟩⟩ := mem_rounds_succ.mp h
    · exact ⟨hc, hempty⟩
    · exact ih (in_of_nextRound? hitem hc hnext).1 hd

/-- A stalling round ends with the very cursor that it began with. -/
private theorem nextRound?_of_stalls (hc : c.In text) (h : Stalls sep item c) :
    nextRound? sep item c = some c := by
  obtain ⟨a, next, hrun, hpos⟩ := h
  -- the offsets are the same, and in one text the cursors are then too
  have hnext := nextRound?_of_done hrun
  rw [hnext, (in_of_nextRound? hitem hc hnext).1.eq_of_pos hc hpos]

/-- **An accepted round** ends later than it began, or with its own cursor. -/
theorem lt_or_eq_of_nextRound? {next : Cursor} (hc : c.In text)
    (h : nextRound? sep item c = some next) : c.pos < next.pos ∨ next = c := by
  obtain ⟨hin, hle⟩ := in_of_nextRound? hitem hc h
  rcases Nat.lt_or_eq_of_le hle with hlt | heq
  · exact .inl hlt
  · exact .inr (hin.eq_of_pos hc heq.symm)

/-- **Without a stalling round** there are no more rounds than bytes. -/
theorem length_rounds_le (hc : c.In text)
    (h : ∀ n, ∀ d ∈ rounds sep item n c, ¬ Stalls sep item d) (n : Nat) :
    (rounds sep item n c).length ≤ text.length - c.pos := by
  induction n generalizing c with
  | zero => exact Nat.zero_le _
  | succ n ih =>
    rw [rounds]
    split
    · exact Nat.zero_le _
    · next hempty =>
      have hlt := hc.pos_lt_of_rest hempty
      cases hnext : nextRound? sep item c with
      | none =>
        show 1 ≤ _
        omega
      | some next =>
        -- the rounds after this one are those of a repetition that begins later
        obtain ⟨a, hrun⟩ := exists_of_nextRound? hnext
        have hfirst : c ∈ rounds sep item 1 c := mem_rounds_succ.mpr ⟨hempty, .inl rfl⟩
        have hpos := (lt_or_eq_of_nextRound? hitem hc hnext).resolve_right fun heq =>
          h 1 c hfirst ⟨a, next, hrun, congrArg _ heq⟩
        have hrest := ih (in_of_nextRound? hitem hc hnext).1 fun m d hd =>
          h (m + 1) d (mem_rounds_succ.mpr ⟨hempty, .inr ⟨next, hnext, hd⟩⟩)
        show (rounds sep item n next).length + 1 ≤ _
        omega

/-- **A stalling round** is repeated forever. -/
theorem length_rounds_of_stalls (hc : c.In text) {m : Nat} (hd : d ∈ rounds sep item m c)
    (h : Stalls sep item d) (n : Nat) : (rounds sep item n c).length = n := by
  induction n generalizing c m with
  | zero => rfl
  | succ n ih =>
    cases m with
    | zero => cases hd
    | succ m =>
      obtain ⟨hempty, hlater⟩ := mem_rounds_succ.mp hd
      -- the stalling round comes again, or it is still to come
      obtain ⟨next, m', hnext, hd'⟩ : ∃ next m', nextRound? sep item c = some next ∧
          d ∈ rounds sep item m' next := by
        rcases hlater with rfl | ⟨next, hnext, hd⟩
        · exact ⟨d, m + 1, nextRound?_of_stalls hitem hc h, hd⟩
        · exact ⟨next, m, hnext, hd⟩
      rw [rounds, if_neg hempty, hnext]
      exact congrArg (· + 1) (ih (in_of_nextRound? hitem hc hnext).1 hd')

/-- **When a repetition does not end**: a round stalls, or an item does not end. -/
theorem manyFrom_eq_endless_iff (index : Nat) (hc : c.In text) :
    manyFrom sep item index c = .endless ↔
      ∃ n, ∃ d ∈ rounds sep item n c, Stalls sep item d ∨ item (sep.skip d) = .endless := by
  -- a round without a result is the last one
  have hlast : ∀ {c : Cursor}, (∀ a next, item (sep.skip c) ≠ .done a next) →
      item (sep.skip c) ≠ .endless →
      ¬ ∃ n, ∃ d ∈ rounds sep item n c, Stalls sep item d ∨ item (sep.skip d) = .endless := by
    intro c hdone hend hround
    obtain ⟨-, (⟨a, next, hrun, -⟩ | hrun) | ⟨next, hnext, -⟩⟩ := exists_mem_rounds_iff.mp hround
    · exact hdone a next hrun
    · exact hend hrun
    · obtain ⟨a, hrun⟩ := exists_of_nextRound? hnext
      exact hdone a next hrun
  fun_induction manyFrom sep item index c with
  | case1 index c hempty =>
    refine iff_of_false (fun h => by cases h) fun hround => ?_
    exact (exists_mem_rounds_iff.mp hround).1 hempty
  | case2 index c hempty first e hrun =>
    refine iff_of_false (fun h => by cases h) (hlast (fun a next h => ?_) fun h => ?_)
    · cases hrun.symm.trans h
    · cases hrun.symm.trans h
  | case3 index c hempty first e o hrun hne =>
    refine iff_of_false (fun h => by cases h) (hlast (fun a next h => ?_) fun h => ?_)
    · cases hrun.symm.trans h
    · cases hrun.symm.trans h
  | case4 index c hempty first hrun =>
    exact iff_of_true rfl (exists_mem_rounds_iff.mpr ⟨hempty, .inl (.inr hrun)⟩)
  | case5 index c hempty first hrun =>
    refine iff_of_false (fun h => by cases h) (hlast (fun a next h => ?_) fun h => ?_)
    · cases hrun.symm.trans h
    · cases hrun.symm.trans h
  | case6 index c hempty first a next hrun hlt ih =>
    have hnext : nextRound? sep item c = some next := nextRound?_of_done hrun
    have hin := (in_of_nextRound? hitem hc hnext).1
    refine map_eq_endless_iff.trans ((ih hin).trans ?_)
    rw [exists_mem_rounds_iff (c := c), hnext]
    constructor
    · exact fun hround => ⟨hempty, .inr ⟨next, rfl, hround⟩⟩
    · rintro ⟨-, (⟨a', next', hrun', hpos⟩ | hend) | ⟨next', hnext', hround⟩⟩
      · -- the item left less than there was, so it did not stall
        cases hrun.symm.trans hrun'
        have hbegin := hc.pos_add_length
        have hend := hin.pos_add_length
        omega
      · cases hrun.symm.trans hend
      · cases hnext'
        exact hround
  | case7 index c hempty first a next hrun hge =>
    -- the item left no less than there was, so it ended where its round began
    have hnext : nextRound? sep item c = some next := nextRound?_of_done hrun
    obtain ⟨hin, hle⟩ := in_of_nextRound? hitem hc hnext
    have hbegin := hc.pos_add_length
    have hend := hin.pos_add_length
    refine iff_of_true rfl (exists_mem_rounds_iff.mpr ⟨hempty, .inl (.inl ⟨a, next, hrun, ?_⟩)⟩)
    omega

end Rounds

end Outcome

/-! ### Grammars that move -/

namespace Outcome

variable {α : Type} {x : Outcome α} {text : Bytes} {c next : Cursor}

private theorem rebase_eq_done_iff {here there : Nat} {a : α} :
    x.rebase here there = .done a next ↔ x = .done a next := by
  cases x <;> simp [rebase]

/-- What leaves less ends later. -/
private theorem Within.pos_lt (hc : c.In text) (h : x.Within c.rest.length)
    (honward : x.Onward text c.pos) {a : α} (hx : x = .done a next) : c.pos < next.pos := by
  rw [hx] at h honward
  have hless : next.rest.length < c.rest.length := h
  have hbegin := hc.pos_add_length
  have hend := honward.1.pos_add_length
  omega

end Outcome

private theorem Token.within_fraction (c : Cursor) : (Token.fraction c).Within c.rest.length := by
  rw [Token.fraction]
  split
  · exact True.intro
  · next n _ hn =>
    obtain ⟨hpos, hne⟩ := Token.pos_of_numberLength? hn
    exact Cursor.length_advance_lt hpos hne

/-- The statements of a script go on to the end of the text. -/
private theorem Program.ends_statementsFrom (index : Nat) (c : Cursor) :
    (statementsFrom index c).Ensures fun _ next => next.rest = [] := by
  fun_induction statementsFrom index c with
  | case1 index c c₁ hempty => exact List.isEmpty_iff.mp hempty
  | case2 => exact True.intro
  | case3 => exact True.intro
  | case4 => exact True.intro
  | case5 => exact True.intro
  | case6 index c c₁ hempty s after hrun next hline hlt ih => exact ih.map id
  | case7 => exact True.intro

namespace Grammar

mutual

/-- The grammar takes up something wherever there is text left. -/
def moves : Grammar → Bool
  | .none => false
  | .num | .int | .float | .lit | .ident | .string | .arg | .stmt | .program => true
  | .const b => !b.isEmpty
  | .optional _ => false
  | .context pre of post => pre.moves || of.moves || post.moves
  | .allOf ps => someMoves ps
  | .anyOf ps => allMove ps
  | .many .. => false
  | .spaced p _ => p.moves

/-- One of the grammars moves. -/
def someMoves : List Grammar → Bool
  | [] => false
  | p :: ps => p.moves || someMoves ps

/-- All of the grammars move. -/
def allMove : List Grammar → Bool
  | [] => true
  | p :: ps => p.moves && allMove ps

end

section Moves

variable {text : Bytes}

/-- A part of a sequence that ends later than the sequence began, if it does so where it begins with
text left. -/
private theorem pos_lt_of_part {c d e : Cursor} (hc : c.In text) (hd : d.In text)
    (hle : c.pos ≤ d.pos) (hde : d.pos ≤ e.pos) (hne : ¬ c.rest.isEmpty = true)
    (h : ¬ d.rest.isEmpty = true → d.pos < e.pos) : c.pos < e.pos := by
  rcases Nat.lt_or_eq_of_le hle with hlt | heq
  · exact Nat.lt_of_lt_of_le hlt hde
  · rw [← hc.eq_of_pos hd heq] at h
    exact h hne

mutual

/-- **A grammar that moves** ends later than it began. -/
theorem pos_lt_of_moves (p : Grammar) (h : p.moves = true) {c next : Cursor} (hc : c.In text)
    (hne : ¬ c.rest.isEmpty = true) {x : Node} (hrun : p.run .inside c = .done x next) :
    c.pos < next.pos := by
  cases p with
  | none => cases h
  | num => exact ((Token.within_number c).map _).pos_lt hc ((Token.onward_number hc).map _) hrun
  | int => exact ((Token.within_integer c).map _).pos_lt hc ((Token.onward_integer hc).map _) hrun
  | float =>
    exact ((Token.within_fraction c).map _).pos_lt hc ((Token.onward_fraction hc).map _) hrun
  | lit => exact ((Token.within_literal c).map _).pos_lt hc ((Token.onward_literal hc).map _) hrun
  | ident => exact ((Token.within_ident c).map _).pos_lt hc ((Token.onward_ident hc).map _) hrun
  | string => exact ((Token.within_string c).map _).pos_lt hc ((Token.onward_string hc).map _) hrun
  | arg => exact ((within_arg c).map _).pos_lt hc ((Arg.onward_parse hc).map _) hrun
  | stmt =>
    exact ((Statement.within_parse c).map _).pos_lt hc ((Statement.onward_parse hc).map _) hrun
  | program =>
    -- it goes on to the end of the text, which is not here
    obtain ⟨q, hq, -⟩ := Outcome.map_eq_done_iff.mp hrun
    obtain ⟨ss, c₁, hss, hdone⟩ := Outcome.bind_eq_done_iff.mp hq
    cases hdone
    have honward := (Program.onward_statementsFrom 0 hc).of_eq hss
    rw [honward.1.pos_eq_of_rest ((Program.ends_statementsFrom 0 c).of_eq hss)]
    exact hc.pos_lt_of_rest hne
  | const b =>
    obtain ⟨b', hb', -⟩ := Outcome.map_eq_done_iff.mp hrun
    rw [Token.fixed] at hb'
    split at hb'
    · cases hb'
      have hlength : 0 < b.length := List.length_pos_iff.mpr (by simpa [moves] using h)
      exact Nat.lt_add_of_pos_right hlength
    · cases hb'
  | optional p => cases h
  | context pre of post =>
    -- the three parts, each from where the one before it ended
    obtain ⟨x₁, c₁, h₁, hrun⟩ := Outcome.bind_eq_done_iff.mp hrun
    obtain ⟨x₂, c₂, h₂, hrun⟩ := Outcome.bind_eq_done_iff.mp hrun
    obtain ⟨x₃, c₃, h₃, hrun⟩ := Outcome.bind_eq_done_iff.mp hrun
    cases hrun
    rw [Outcome.during_eq_done_iff] at h₁ h₃
    rw [Outcome.rebase_eq_done_iff, Outcome.during_eq_done_iff] at h₂
    have ho₁ := (pre.onward_run hc).of_eq h₁
    have ho₂ := (of.onward_run ho₁.1).of_eq h₂
    have ho₃ := (post.onward_run ho₂.1).of_eq h₃
    have hle₂ := Nat.le_trans ho₁.2 ho₂.2
    -- one part moves, and the others do not go back
    simp only [moves, Bool.or_eq_true] at h
    rcases h with (h | h) | h
    · have hlt := pos_lt_of_moves pre h hc hne h₁
      exact Nat.lt_of_lt_of_le hlt (Nat.le_trans ho₂.2 ho₃.2)
    · have hlt := pos_lt_of_part hc ho₁.1 ho₁.2 ho₂.2 hne fun hne₁ =>
        pos_lt_of_moves of h ho₁.1 hne₁ h₂
      exact Nat.lt_of_lt_of_le hlt ho₃.2
    · exact pos_lt_of_part hc ho₂.1 hle₂ ho₃.2 hne fun hne₂ =>
        pos_lt_of_moves post h ho₂.1 hne₂ h₃
  | allOf ps =>
    obtain ⟨xs, hxs, -⟩ := Outcome.map_eq_done_iff.mp hrun
    exact pos_lt_of_someMoves ps h 0 hc hne hxs
  | anyOf ps =>
    obtain ⟨k, hmem⟩ := Outcome.exists_of_firstOf hrun
    exact pos_lt_of_allMove ps h hc hne _ hmem x next rfl
  | many p sep => cases h
  | spaced p sep =>
    have hrun := Outcome.during_eq_done_iff.mp (Outcome.rebase_eq_done_iff.mp hrun)
    have honward := (p.onward_run (hc.skip sep)).of_eq hrun
    exact pos_lt_of_part hc (hc.skip sep) (sep.pos_le_skip c) honward.2 hne fun hfirst =>
      pos_lt_of_moves p h (hc.skip sep) hfirst hrun

private theorem pos_lt_of_someMoves (ps : List Grammar) (h : someMoves ps = true) (index : Nat)
    {c next : Cursor} (hc : c.In text) (hne : ¬ c.rest.isEmpty = true) {xs : List Node}
    (hrun : runAll .inside ps index c = .done xs next) : c.pos < next.pos := by
  cases ps with
  | nil => cases h
  | cons p ps =>
    obtain ⟨x, c₁, h₁, hrun⟩ := Outcome.bind_eq_done_iff.mp hrun
    obtain ⟨xs', h₂, -⟩ := Outcome.map_eq_done_iff.mp hrun
    rw [Outcome.during_eq_done_iff] at h₁
    have ho₁ := (p.onward_run hc).of_eq h₁
    have ho₂ := (onward_runAll ps (index + 1) ho₁.1).of_eq h₂
    rw [someMoves, Bool.or_eq_true] at h
    rcases h with h | h
    · exact Nat.lt_of_lt_of_le (pos_lt_of_moves p h hc hne h₁) ho₂.2
    · exact pos_lt_of_part hc ho₁.1 ho₁.2 ho₂.2 hne fun hne₁ =>
        pos_lt_of_someMoves ps h (index + 1) ho₁.1 hne₁ h₂

private theorem pos_lt_of_allMove (ps : List Grammar) (h : allMove ps = true) {c : Cursor}
    (hc : c.In text) (hne : ¬ c.rest.isEmpty = true) :
    ∀ q ∈ runEach .inside ps c, ∀ x next, q.2 = .done x next → c.pos < next.pos := by
  cases ps with
  | nil => exact fun _ h => absurd h List.not_mem_nil
  | cons p ps =>
    rw [allMove, Bool.and_eq_true] at h
    exact List.forall_mem_cons.mpr ⟨fun x next hrun => pos_lt_of_moves p h.1 hc hne hrun,
      pos_lt_of_allMove ps h.2 hc hne⟩

end

/-- A repetition of a grammar that moves does not stall. -/
private theorem not_stalls_of_moves {p : Grammar} (h : p.moves = true) (sep : Spaces) {c : Cursor}
    (hc : c.In text) (hne : ¬ c.rest.isEmpty = true) :
    ¬ Outcome.Stalls sep (p.run .inside) c := by
  rintro ⟨x, next, hrun, hpos⟩
  have honward := (p.onward_run (hc.skip sep)).of_eq hrun
  have hlt := pos_lt_of_part hc (hc.skip sep) (sep.pos_le_skip c) honward.2 hne fun hfirst =>
    pos_lt_of_moves p h (hc.skip sep) hfirst hrun
  omega

end Moves

end Grammar

/-! ### Grammars that come to an end -/

namespace Outcome

variable {α β : Type} {x : Outcome α} {text : Bytes}

private theorem Within.ne_endless {n : Nat} (h : x.Within n) : x ≠ .endless := by
  rintro rfl
  exact h

private theorem map_ne_endless (h : x ≠ .endless) (f : α → β) : x.map f ≠ .endless :=
  mt map_eq_endless_iff.mp h

private theorem during_ne_endless (h : x ≠ .endless) (s : Step) : x.during s ≠ .endless := by
  cases x with
  | endless => exact absurd rfl h
  | _ => exact fun h => by cases h

private theorem rebase_ne_endless (h : x ≠ .endless) (here there : Nat) :
    x.rebase here there ≠ .endless := by
  cases x with
  | endless => exact absurd rfl h
  | _ => exact fun h => by cases h

private theorem bind_ne_endless {f : α → Cursor → Outcome β} {start : Nat}
    (hx : x.Onward text start) (h : x ≠ .endless)
    (hf : ∀ a c, c.In text → start ≤ c.pos → f a c ≠ .endless) :
    x.bind f ≠ .endless := by
  cases x with
  | done a next => exact hf a next hx.1 hx.2
  | endless => exact absurd rfl h
  | _ => exact fun h => by cases h

private theorem firstOf_ne_endless {start : Nat} {xs : List (ParserKind × Outcome α)}
    (h : ∀ p ∈ xs, p.2 ≠ .endless) : firstOf start xs ≠ .endless := by
  rw [firstOf]
  cases hfound : firstSuccess? xs with
  | none => exact (within_firstFailure (n := 0) ..).ne_endless
  | some y =>
    obtain ⟨k, hmem⟩ := mem_of_firstSuccess? hfound
    exact h _ hmem

end Outcome

namespace Grammar

mutual

/-- All grammars that are repeated move. -/
def finite : Grammar → Bool
  | .optional p => p.finite
  | .context pre of post => pre.finite && of.finite && post.finite
  | .allOf ps => allFinite ps
  | .anyOf ps => allFinite ps
  | .many p _ => p.moves && p.finite
  | .spaced p _ => p.finite
  | _ => true

/-- All of the grammars are finite. -/
def allFinite : List Grammar → Bool
  | [] => true
  | p :: ps => p.finite && allFinite ps

end

section Finite

open Outcome

variable {text : Bytes}

private theorem orNothing_ne_endless {x : Outcome Node} (h : x ≠ .endless) (c : Cursor) :
    orNothing c x ≠ .endless := by
  cases x with
  | endless => exact absurd rfl h
  | outside => exact fun h => by cases h
  | _ =>
    rw [orNothing]
    split
    · exact fun h => by cases h
    · exact fun h => by cases h

mutual

/-- **A finite grammar** comes to an end. -/
theorem run_ne_endless (p : Grammar) (h : p.finite = true) {c : Cursor} (hc : c.In text) :
    p.run .inside c ≠ .endless := by
  cases p with
  | none => exact fun h => by cases h
  | num => exact map_ne_endless (Token.within_number c).ne_endless _
  | int => exact map_ne_endless (Token.within_integer c).ne_endless _
  | float => exact map_ne_endless (Token.within_fraction c).ne_endless _
  | lit => exact map_ne_endless (Token.within_literal c).ne_endless _
  | ident => exact map_ne_endless (Token.within_ident c).ne_endless _
  | string => exact map_ne_endless (Token.within_string c).ne_endless _
  | arg => exact map_ne_endless (within_arg c).ne_endless _
  | stmt => exact map_ne_endless (Statement.within_parse c).ne_endless _
  | program => exact map_ne_endless (Program.within_parse c).ne_endless _
  | const b =>
    refine map_ne_endless ?_ _
    rw [Token.fixed]
    split
    · exact fun h => by cases h
    · exact fun h => by cases h
  | optional p => exact orNothing_ne_endless (run_ne_endless p h hc) c
  | context pre of post =>
    simp only [finite, Bool.and_eq_true] at h
    refine bind_ne_endless ((pre.onward_run hc).during _)
      (during_ne_endless (run_ne_endless pre h.1.1 hc) _) fun _ c₁ h₁ hle => ?_
    refine bind_ne_endless (((of.onward_run h₁).during _).rebase hle)
      (rebase_ne_endless (during_ne_endless (run_ne_endless of h.1.2 h₁) _) _ _) fun x c₂ h₂ _ => ?_
    exact bind_ne_endless ((post.onward_run h₂).during _)
      (during_ne_endless (run_ne_endless post h.2 h₂) _) fun _ _ _ _ h => by cases h
  | allOf ps => exact map_ne_endless (runAll_ne_endless ps h 0 hc) _
  | anyOf ps => exact firstOf_ne_endless (runEach_ne_endless ps h hc)
  | many p sep =>
    simp only [finite, Bool.and_eq_true] at h
    -- no round stalls, since `p` moves, and no item runs on forever, since `p` is finite
    refine map_ne_endless (fun hend => ?_) _
    have hitem : ∀ c, c.In text → (p.run .inside c).Onward text c.pos := fun _ => p.onward_run
    obtain ⟨n, d, hd, hround⟩ := (manyFrom_eq_endless_iff hitem 0 hc).mp hend
    obtain ⟨hin, hne⟩ := in_of_mem_rounds hitem hc hd
    rcases hround with hstall | hround
    · exact not_stalls_of_moves h.1 sep hin hne hstall
    · exact run_ne_endless p h.2 (hin.skip sep) hround
  | spaced p sep =>
    exact rebase_ne_endless (during_ne_endless (run_ne_endless p h (hc.skip sep)) _) _ _

private theorem runAll_ne_endless (ps : List Grammar) (h : allFinite ps = true) (index : Nat)
    {c : Cursor} (hc : c.In text) : runAll .inside ps index c ≠ .endless := by
  cases ps with
  | nil => exact fun h => by cases h
  | cons p ps =>
    rw [allFinite, Bool.and_eq_true] at h
    exact bind_ne_endless ((p.onward_run hc).during _)
      (during_ne_endless (run_ne_endless p h.1 hc) _) fun _ c₁ h₁ _ =>
        map_ne_endless (runAll_ne_endless ps h.2 (index + 1) h₁) _

private theorem runEach_ne_endless (ps : List Grammar) (h : allFinite ps = true) {c : Cursor}
    (hc : c.In text) : ∀ q ∈ runEach .inside ps c, q.2 ≠ .endless := by
  cases ps with
  | nil => exact fun _ h => absurd h List.not_mem_nil
  | cons p ps =>
    rw [allFinite, Bool.and_eq_true] at h
    exact List.forall_mem_cons.mpr ⟨run_ne_endless p h.1 hc, runEach_ne_endless ps h.2 hc⟩

end

end Finite

/-! ### The law of repetitions -/

/-- Where the first rounds begin if `p` is repeated from an offset of a text on, `n` at most. -/
def rounds (p : Grammar) (sep : Spaces) (text : Bytes) (start n : Nat) : List Cursor :=
  Outcome.rounds sep (p.run .inside) n ⟨start, text.drop start⟩

/-- **Progress of repetitions.** Let `p` be repeated from an offset of a text on. Then

* an accepted round ends later than it began, or with the very cursor with which it began;
* if no round stalls, there are no more rounds than bytes after the start;
* if one does, there is no last round;
* the repetition does not end exactly if a round stalls or an item does not end;
* no round stalls if `p` moves, and if besides all grammars that are repeated inside `p` move, then
  the repetition ends. -/
theorem many_rounds (p : Grammar) (sep : Spaces) (text : Bytes) {start : Nat}
    (h : start ≤ text.length) :
    (∀ n, ∀ d ∈ p.rounds sep text start n, ∀ x next,
        p.run .inside (sep.skip d) = .done x next → d.pos < next.pos ∨ next = d) ∧
      ((∀ n, ∀ d ∈ p.rounds sep text start n, ¬ Outcome.Stalls sep (p.run .inside) d) →
        ∀ n, (p.rounds sep text start n).length ≤ text.length - start) ∧
      ((∃ n, ∃ d ∈ p.rounds sep text start n, Outcome.Stalls sep (p.run .inside) d) →
        ∀ n, (p.rounds sep text start n).length = n) ∧
      ((many p sep).parseAt text start = .endless ↔
        ∃ n, ∃ d ∈ p.rounds sep text start n,
          Outcome.Stalls sep (p.run .inside) d ∨ p.run .inside (sep.skip d) = .endless) ∧
      (p.moves = true →
        ∀ n, ∀ d ∈ p.rounds sep text start n, ¬ Outcome.Stalls sep (p.run .inside) d) ∧
      ((many p sep).finite = true → (many p sep).parseAt text start ≠ .endless) := by
  have hc : (⟨start, text.drop start⟩ : Cursor).In text := ⟨h, rfl⟩
  have hitem : ∀ c, c.In text → (p.run .inside c).Onward text c.pos := fun _ => p.onward_run
  rw [(many p sep).parseAt_of_le h]
  refine ⟨fun n d hd x next hrun => ?_, Outcome.length_rounds_le hitem hc, ?_, ?_,
    fun hmoves n d hd => ?_, fun hfinite => run_ne_endless _ hfinite hc⟩
  · have hin := (Outcome.in_of_mem_rounds hitem hc hd).1
    exact Outcome.lt_or_eq_of_nextRound? hitem hin (Outcome.nextRound?_of_done hrun)
  · rintro ⟨m, d, hd, hstall⟩ n
    exact Outcome.length_rounds_of_stalls hitem hc hd hstall n
  · exact Outcome.map_eq_endless_iff.trans (Outcome.manyFrom_eq_endless_iff hitem 0 hc)
  · obtain ⟨hin, hne⟩ := Outcome.in_of_mem_rounds hitem hc hd
    exact not_stalls_of_moves hmoves sep hin hne

/-- Words with any number of marks after them, from inside a text on. -/
theorem many_rounds_of_words :
    3 ≤ (Bytes.ascii "x = kabs!! #1").length ∧
      (many (context none arg (many (const (Bytes.ascii "!")) Spaces.inline))
        Spaces.inline).parseAt (Bytes.ascii "x = kabs!! #1") (3 : Nat) ≠ .endless ∧
      ∀ n, ((context none arg (many (const (Bytes.ascii "!")) Spaces.inline)).rounds Spaces.inline
        (Bytes.ascii "x = kabs!! #1") 3 n).length ≤ 10 := by
  have hstart : 3 ≤ (Bytes.ascii "x = kabs!! #1").length := by decide
  obtain ⟨-, hbound, -, -, hmoves, hfinite⟩ :=
    many_rounds (context none arg (many (const (Bytes.ascii "!")) Spaces.inline)) Spaces.inline
      (Bytes.ascii "x = kabs!! #1") hstart
  exact ⟨hstart, hfinite rfl, hbound (hmoves rfl)⟩

/-- **A repetition that does not end.** Before a byte that begins no argument, an argument that may
be missing is missing, again and again. -/
theorem many_optional_never_ends :
    (many (optional arg) ⟨0x100000000⟩).parseAt (Bytes.ascii "?") 0 = .endless ∧
      (optional arg).run .inside ⟨0, Bytes.ascii "?"⟩ = .done .none ⟨0, Bytes.ascii "?"⟩ ∧
      ∀ n, ((optional arg).rounds ⟨0x100000000⟩ (Bytes.ascii "?") 0 n).length = n := by
  have hc : (⟨0, Bytes.ascii "?"⟩ : Cursor).In (Bytes.ascii "?") := ⟨Nat.zero_le _, rfl⟩
  have hitem : ∀ c, c.In (Bytes.ascii "?") →
      ((optional arg).run .inside c).Onward (Bytes.ascii "?") c.pos := fun _ => onward_run _
  have hstall : Outcome.Stalls ⟨0x100000000⟩ ((optional arg).run .inside) ⟨0, Bytes.ascii "?"⟩ :=
    ⟨.none, ⟨0, Bytes.ascii "?"⟩, rfl, rfl⟩
  have hfirst : ⟨0, Bytes.ascii "?"⟩ ∈ Outcome.rounds ⟨0x100000000⟩ ((optional arg).run .inside) 1
      ⟨0, Bytes.ascii "?"⟩ := Outcome.mem_rounds_succ.mpr ⟨by decide, .inl rfl⟩
  have hendless : Outcome.manyFrom ⟨0x100000000⟩ ((optional arg).run .inside) 0
      ⟨0, Bytes.ascii "?"⟩ = .endless :=
    (Outcome.manyFrom_eq_endless_iff hitem 0 hc).mpr ⟨1, _, hfirst, .inl hstall⟩
  exact ⟨Outcome.map_eq_endless_iff.mpr hendless, rfl,
    Outcome.length_rounds_of_stalls hitem hc hfirst hstall⟩

end Grammar

end TraceIR.Script
