import Mathlib.Data.List.Forall2
import TraceIR.Proofs.Coverage
import TraceIR.Proofs.Layout

/-!
# Scripts put together

A parser looks forward only, and no word goes on over the end of a line. So a text can be moved to
another offset, and more lines can be put behind it, without a change to what is read.

* `Cursor.moved` — the same text at a later offset, with more lines behind it.
* `Outcome.Carried` — the outcome of a parser there: a success is the same success, and an error the
  error moved along if no more lines were put there. One lemma for each parser ends in
  `Statement.carried_parse`.
* `Program.ensures_statementsFrom_append` — the statements of a script with more lines behind it.
* `Program.carried_lines` — what is read behind a script is what is read alone, moved along.
* `parseFile_append`, `Program.parse_lines` — a script and then another text.
-/

namespace TraceIR.Script

/-! ### Moving a text -/

/-- The text at a later offset, with something behind it. -/
def Cursor.moved (k : Nat) (t : Bytes) (c : Cursor) : Cursor :=
  ⟨c.pos + k, c.rest ++ t⟩

def Lexeme.moved (k : Nat) (l : Lexeme) : Lexeme :=
  ⟨l.pos + k, l.text⟩

def Arg.moved (k : Nat) : Arg → Arg
  | .int l => .int (l.moved k)
  | .float l => .float (l.moved k)
  | .lit pos l => .lit (pos + k) (l.moved k)
  | .string l => .string (l.moved k)
  | .ident l => .ident (l.moved k)

def Statement.moved (k : Nat) (s : Statement) : Statement where
  pos := s.pos + k
  stop := s.stop + k
  name := s.name.map (Lexeme.moved k)
  op := s.op.moved k
  ty := s.ty.map (Lexeme.moved k)
  guard := s.guard
  args := s.args.map (Arg.moved k)

private theorem Statement.moved_zero (s : Statement) : s.moved 0 = s := by
  have hlexeme : Lexeme.moved 0 = id := rfl
  have harg : Arg.moved 0 = id := by
    funext a
    cases a <;> rfl
  simp only [moved, hlexeme, harg, Option.map_id, List.map_id, id, Nat.add_zero]

private theorem EndsLine.endsWord {t : Bytes} (h : EndsLine t) : EndsWord t := by
  intro c hc
  rcases h with rfl | ⟨r, rfl⟩
  · cases hc
  · cases hc
    exact .inr (.inl (.inr rfl))

namespace Cursor

variable {c : Cursor} {n : Nat}

private theorem moved_advance (k : Nat) (t : Bytes) (h : n ≤ c.rest.length) :
    (c.moved k t).advance n = (c.advance n).moved k t := by
  rw [moved, moved, advance, advance, Cursor.mk.injEq]
  exact ⟨Nat.add_right_comm .., List.drop_append_of_le_length h⟩

private theorem take_moved (k : Nat) (t : Bytes) (h : n ≤ c.rest.length) :
    Token.take (c.moved k t) n = (Token.take c n).moved k := by
  rw [Token.take, Token.take, moved, Lexeme.moved, Lexeme.mk.injEq]
  exact ⟨rfl, List.take_append_of_le_length h⟩

/-- The end of a text that stands behind a line. -/
private theorem moved_end (a b : Bytes) :
    moved (a.length + 1) [] ⟨b.length, []⟩ = ⟨(a ++ 0x0a :: b).length, []⟩ := by
  rw [moved, List.append_nil, List.length_append, List.length_cons]
  exact congrArg (mk · []) (Nat.add_left_comm ..)

end Cursor

/-! ### Outcomes in another place -/

namespace Outcome

variable {α β γ δ : Type}

/-- The second outcome is the first one in another place. Errors count only at some offsets. -/
def Carried (k : Nat) (t : Bytes) (f : α → β) (P : Nat → Prop) : Outcome α → Outcome β → Prop
  | .done a c, y => y = .done (f a) (c.moved k t)
  | .failed _ o, y => P o → ∃ e, y = .failed e (o + k)
  | .endless, y => y = .endless
  | .outside, y => y = .outside

namespace Carried

variable {k : Nat} {t : Bytes} {f : α → β} {P Q : Nat → Prop} {x : Outcome α} {y : Outcome β}

private theorem of_done {a : α} {c : Cursor} (h : Carried k t f P x y) (hx : x = .done a c) :
    y = .done (f a) (c.moved k t) := by
  rw [hx] at h
  exact h

private theorem of_failed {e : SyntaxError} {o : Nat} (h : Carried k t f P x y)
    (hx : x = .failed e o) (ho : P o) : ∃ e', y = .failed e' (o + k) := by
  rw [hx] at h
  exact h ho

private theorem of_endless (h : Carried k t f P x y) (hx : x = .endless) : y = .endless := by
  rw [hx] at h
  exact h

private theorem of_outside (h : Carried k t f P x y) (hx : x = .outside) : y = .outside := by
  rw [hx] at h
  exact h

private theorem mono (h : Carried k t f P x y) (hPQ : ∀ o, Q o → P o) : Carried k t f Q x y := by
  cases x with
  | done a c => exact h
  | failed e o => exact fun hQ => h (hPQ o hQ)
  | endless => exact h
  | outside => exact h

private theorem map {g : α → γ} {g' : β → δ} {f' : γ → δ} (h : Carried k t f P x y)
    (hg : ∀ a, g' (f a) = f' (g a)) : Carried k t f' P (x.map g) (y.map g') := by
  cases x with
  | done a c =>
    rw [h.of_done rfl]
    show Outcome.done (g' (f a)) _ = _
    rw [hg a]
  | failed e o =>
    intro ho
    obtain ⟨e', rfl⟩ := h.of_failed rfl ho
    exact ⟨e', rfl⟩
  | endless =>
    rw [h.of_endless rfl]
    rfl
  | outside =>
    rw [h.of_outside rfl]
    rfl

private theorem during (h : Carried k t f P x y) (s s' : Step) :
    Carried k t f P (x.during s) (y.during s') := by
  cases x with
  | done a c =>
    rw [h.of_done rfl]
    rfl
  | failed e o =>
    intro ho
    obtain ⟨e', rfl⟩ := h.of_failed rfl ho
    exact ⟨_, rfl⟩
  | endless =>
    rw [h.of_endless rfl]
    rfl
  | outside =>
    rw [h.of_outside rfl]
    rfl

private theorem bind {g : α → Cursor → Outcome γ} {g' : β → Cursor → Outcome δ} {f' : γ → δ}
    (h : Carried k t f P x y)
    (hg : ∀ {a c}, x = .done a c → Carried k t f' P (g a c) (g' (f a) (c.moved k t))) :
    Carried k t f' P (x.bind g) (y.bind g') := by
  cases x with
  | done a c =>
    rw [h.of_done rfl]
    exact hg rfl
  | failed e o =>
    intro ho
    obtain ⟨e', rfl⟩ := h.of_failed rfl ho
    exact ⟨e', rfl⟩
  | endless =>
    rw [h.of_endless rfl]
    rfl
  | outside =>
    rw [h.of_outside rfl]
    rfl

end Carried

/-- The alternatives of a choice, each in another place. -/
abbrev CarriedAll (k : Nat) (t : Bytes) (f : α → β) :
    List (ParserKind × Outcome α) → List (ParserKind × Outcome β) → Prop :=
  List.Forall₂ fun p q => Carried k t f (fun _ => True) p.2 q.2

variable {k : Nat} {t : Bytes} {f : α → β} {xs : List (ParserKind × Outcome α)}
  {ys : List (ParserKind × Outcome β)}

private theorem CarriedAll.firstFailure (h : CarriedAll k t f xs ys) (start : Nat)
    (kinds kinds' : List ParserKind) (hxs : firstSuccess? xs = none) :
    firstSuccess? ys = none ∧ Carried k t f (fun _ => True) (firstFailure start kinds xs)
      (firstFailure (start + k) kinds' ys) := by
  induction h with
  | nil => exact ⟨rfl, fun _ => ⟨_, rfl⟩⟩
  | @cons p q xs ys hp _ ih =>
    obtain ⟨kind, x⟩ := p
    obtain ⟨kind', y⟩ := q
    cases x with
    | failed e o =>
      obtain ⟨e', hy⟩ := hp.of_failed rfl True.intro
      change y = _ at hy
      subst hy
      obtain ⟨hnone, hrest⟩ := ih hxs
      refine ⟨hnone, ?_⟩
      -- an error at the start stays one at the start
      rw [Outcome.firstFailure, Outcome.firstFailure]
      by_cases ho : o = start
      · rw [if_pos ho, if_pos (by rw [ho])]
        exact hrest
      · rw [if_neg ho, if_neg fun heq => ho (Nat.add_right_cancel heq)]
        exact fun _ => ⟨_, rfl⟩
    | done a c => cases hxs
    | endless => cases hxs
    | outside => cases hxs

private theorem CarriedAll.firstSuccess {x : Outcome α} (h : CarriedAll k t f xs ys)
    (hxs : firstSuccess? xs = some x) (z : Outcome β) :
    Carried k t f (fun _ => True) x ((firstSuccess? ys).getD z) := by
  induction h with
  | nil => cases hxs
  | @cons p q xs ys hp _ ih =>
    obtain ⟨kind, z⟩ := p
    obtain ⟨kind', y⟩ := q
    cases z with
    | failed e o =>
      obtain ⟨e', hy⟩ := hp.of_failed rfl True.intro
      change y = _ at hy
      subst hy
      exact ih hxs
    | done a c =>
      cases hxs
      have hy := hp.of_done rfl
      change y = _ at hy
      subst hy
      rfl
    | endless =>
      cases hxs
      have hy : y = .endless := hp
      subst hy
      rfl
    | outside =>
      cases hxs
      have hy : y = .outside := hp
      subst hy
      rfl

/-- A choice is carried with its alternatives. -/
private theorem CarriedAll.firstOf (h : CarriedAll k t f xs ys) (start : Nat) :
    Carried k t f (fun _ => True) (firstOf start xs) (firstOf (start + k) ys) := by
  rw [Outcome.firstOf, Outcome.firstOf]
  cases hxs : firstSuccess? xs with
  | none =>
    obtain ⟨hys, hfailure⟩ := h.firstFailure start (xs.map (·.1)) (ys.map (·.1)) hxs
    rw [hys]
    exact hfailure
  | some x =>
    exact h.firstSuccess hxs _

end Outcome

/-! ### Words -/

namespace Token

variable {k : Nat} {t : Bytes}

/-- The word of so many bytes, and what follows it. -/
private theorem done_moved {c : Cursor} {n : Nat} (h : n ≤ c.rest.length) {α : Type}
    (f : Lexeme → α) :
    Outcome.done (f (take (c.moved k t) n)) ((c.moved k t).advance n) =
      .done (f ((take c n).moved k)) ((c.advance n).moved k t) := by
  rw [Cursor.take_moved k t h, Cursor.moved_advance k t h]

private theorem carried_ident (ht : EndsLine t) (k : Nat) (c : Cursor) :
    Outcome.Carried k t (Lexeme.moved k) (fun _ => True) (ident c) (ident (c.moved k t)) := by
  obtain ⟨pos, b⟩ := c
  cases b with
  | nil =>
    -- no name begins with a line feed
    rcases ht with rfl | ⟨r, rfl⟩
    · exact fun _ => ⟨_, rfl⟩
    · exact fun _ => ⟨_, rfl⟩
  | cons x r =>
    have hlength := identLength_append ht.endsWord.endsName r
    rw [ident, ident]
    simp only [Cursor.moved, List.cons_append, hlength]
    split
    · split
      · next n hn =>
        have hle := identLength_le r
        rw [hn] at hle
        exact done_moved (c := ⟨pos, x :: r⟩) (Nat.succ_le_succ hle) id
      · next n hn => exact fun _ => ⟨.badCharacter, congrArg _ (by omega)⟩
    · exact fun _ => ⟨_, rfl⟩

private theorem carried_number (ht : EndsLine t) (k : Nat) (c : Cursor) :
    Outcome.Carried k t (Arg.moved k) (fun _ => True) (number c) (number (c.moved k t)) := by
  have hlength := numberLength?_append ht.endsWord c.rest
  rw [number, number, Cursor.moved, hlength]
  split
  · exact fun _ => ⟨_, rfl⟩
  · next n fraction hn =>
    cases fraction
    · exact done_moved (numberLength?_le hn) Arg.int
    · exact done_moved (numberLength?_le hn) Arg.float

private theorem carried_integer (ht : EndsLine t) (k : Nat) (c : Cursor) :
    Outcome.Carried k t (Lexeme.moved k) (fun _ => True) (integer c) (integer (c.moved k t)) := by
  have hlength := numberLength?_append ht.endsWord c.rest
  rw [integer, integer, Cursor.moved, hlength]
  split
  · exact fun _ => ⟨_, rfl⟩
  · exact fun _ => ⟨_, by rw [Nat.add_right_comm]⟩
  · next n hn => exact done_moved (numberLength?_le hn) id

private theorem carried_literal (ht : EndsLine t) (k : Nat) (c : Cursor) :
    Outcome.Carried k t (Arg.moved k) (fun _ => True) (literal c) (literal (c.moved k t)) := by
  obtain ⟨pos, b⟩ := c
  cases b with
  | nil =>
    rcases ht with rfl | ⟨r, rfl⟩
    · exact fun _ => ⟨_, rfl⟩
    · exact fun _ => ⟨_, rfl⟩
  | cons x r =>
    by_cases hx : x = 0x23
    · subst hx
      have hinteger := carried_integer ht k (Cursor.advance ⟨pos, 0x23 :: r⟩ 1)
      rw [← Cursor.moved_advance k t (Nat.succ_le_succ (Nat.zero_le _))] at hinteger
      have hlit : Outcome.Carried k t (Arg.moved k) (fun _ => True)
          ((integer (Cursor.advance ⟨pos, 0x23 :: r⟩ 1)).map (Arg.lit pos))
          ((integer ((Cursor.moved k t ⟨pos, 0x23 :: r⟩).advance 1)).map (Arg.lit (pos + k))) :=
        hinteger.map fun _ => rfl
      exact hlit.during .lit .lit
    · rw [literal_of_ne hx, Cursor.moved, List.cons_append, literal_of_ne hx]
      exact fun _ => ⟨_, rfl⟩

/-- A string is carried if it is closed, and it does not begin somewhere else. -/
private theorem carried_string (ht : EndsLine t) (k : Nat) (c : Cursor) :
    Outcome.Carried k t (Arg.moved k) (fun o => t = [] ∨ o = c.pos) (string c)
      (string (c.moved k t)) := by
  obtain ⟨pos, b⟩ := c
  cases b with
  | nil =>
    rcases ht with rfl | ⟨r, rfl⟩
    · exact fun _ => ⟨_, rfl⟩
    · exact fun _ => ⟨_, rfl⟩
  | cons x r =>
    by_cases hx : x = 0x22
    · subst hx
      rw [string, string]
      simp only [Cursor.moved, List.cons_append]
      cases hend : stringEnd r with
      | closed n =>
        rw [stringEnd_append hend]
        exact done_moved (c := ⟨pos, 0x22 :: r⟩) (Nat.succ_le_succ (stringEnd_le hend)) Arg.string
      -- a string that is left open goes on into what is put behind it, so nothing must be there
      | newline n =>
        rintro (rfl | ho)
        · rw [List.append_nil, hend]
          refine ⟨.newlineInString, ?_⟩
          dsimp only
          congr 1
          omega
        · omega
      | unterminated n =>
        rintro (rfl | ho)
        · rw [List.append_nil, hend]
          refine ⟨.unterminatedString, ?_⟩
          dsimp only
          congr 1
          omega
        · omega
    · rw [string_of_ne hx, Cursor.moved, List.cons_append, string_of_ne hx]
      exact fun _ => ⟨_, rfl⟩

end Token

open Outcome

/-- A place of a line stays what it is. -/
private theorem place_moved {t : Bytes} (ht : EndsLine t) (k : Nat) (c : Cursor) :
    (c.moved k t).atLineEnd = c.atLineEnd ∧ (c.moved k t).atComment = c.atComment := by
  obtain ⟨pos, b⟩ := c
  rcases ht with rfl | ⟨r, rfl⟩
  · simp [Cursor.moved, Cursor.atLineEnd, Cursor.atComment]
  · rcases b with _ | ⟨x, _ | ⟨y, b⟩⟩
    · exact ⟨rfl, rfl⟩
    · -- a slash at the end of the text finds no second one behind it
      refine ⟨rfl, ?_⟩
      simp [Cursor.moved, Cursor.atComment]
    · exact ⟨rfl, rfl⟩

/-- Where a quote stands, nothing but a string gets going. -/
private theorem carried_quote {k : Nat} {t : Bytes} {pos : Nat} {x y : Outcome Arg}
    (e₁ e₂ e₄ : SyntaxError) (h : Carried k t (Arg.moved k) (fun o => t = [] ∨ o = pos) x y) :
    Carried k t (Arg.moved k) (fun o => t = [] ∨ o = pos)
      (firstOf pos [(.lit, .failed e₁ pos), (.num, .failed e₂ pos), (.string, x),
        (.ident, .failed e₄ pos)])
      (firstOf (pos + k) [(.lit, .failed e₁ (pos + k)), (.num, .failed e₂ (pos + k)), (.string, y),
        (.ident, .failed e₄ (pos + k))]) := by
  cases x with
  | done a c =>
    rw [h.of_done rfl]
    rfl
  | failed e o =>
    simp only [firstOf, firstSuccess?, Option.getD_none, firstFailure, if_true, List.map_cons,
      List.map_nil]
    by_cases ho : o = pos
    · subst ho
      obtain ⟨e', rfl⟩ := h.of_failed rfl (.inr rfl)
      simp only [firstSuccess?, Option.getD_none, firstFailure, if_true]
      exact fun _ => ⟨_, rfl⟩
    · rw [if_neg ho]
      intro hP
      obtain ⟨e', rfl⟩ := h.of_failed rfl hP
      have hne : ¬ o + k = pos + k := fun heq => ho (Nat.add_right_cancel heq)
      simp only [firstSuccess?, Option.getD_none, firstFailure, if_true, if_neg hne]
      exact ⟨_, rfl⟩
  | endless =>
    rw [h.of_endless rfl]
    rfl
  | outside =>
    rw [h.of_outside rfl]
    rfl

/-- **An argument** in another place. -/
theorem Arg.carried_parse {t : Bytes} (ht : EndsLine t) (k : Nat) (c : Cursor) :
    Carried k t (Arg.moved k) (fun o => t = [] ∨ o = c.pos) (Arg.parse c)
      (Arg.parse (c.moved k t)) := by
  obtain ⟨hend, hcomment⟩ := place_moved ht k c
  rw [Arg.parse, Arg.parse, hend, hcomment]
  split
  · exact fun _ => ⟨_, rfl⟩
  · next hplace =>
    obtain ⟨pos, b⟩ := c
    cases b with
    | nil => exact absurd rfl hplace
    | cons x r =>
      by_cases hx : x = 0x22
      · subst hx
        have hquote := carried_quote (.expected .lit) (.expected .num) (.expected .ident)
          (Token.carried_string ht k ⟨pos, 0x22 :: r⟩)
        have hnumber (p : Nat) (r : Bytes) :
            Token.number ⟨p, 0x22 :: r⟩ = .failed (.expected .num) p :=
          Token.number_of_foreign rfl rfl (by decide) p
        rw [hnumber, Cursor.moved, List.cons_append, hnumber]
        exact hquote
      · -- without strings all alternatives are carried, whatever they say
        have hstring : Carried k t (Arg.moved k) (fun _ => True) (Token.string ⟨pos, x :: r⟩)
            (Token.string (Cursor.moved k t ⟨pos, x :: r⟩)) := by
          rw [Token.string_of_ne hx, Cursor.moved, List.cons_append, Token.string_of_ne hx]
          exact fun _ => ⟨_, rfl⟩
        have hident : Carried k t (Arg.moved k) (fun _ => True)
            ((Token.ident ⟨pos, x :: r⟩).map Arg.ident)
            ((Token.ident (Cursor.moved k t ⟨pos, x :: r⟩)).map Arg.ident) :=
          (Token.carried_ident ht k _).map fun _ => rfl
        have hall : CarriedAll k t (Arg.moved k)
            [(.lit, Token.literal ⟨pos, x :: r⟩), (.num, Token.number ⟨pos, x :: r⟩),
              (.string, Token.string ⟨pos, x :: r⟩), (.ident, (Token.ident ⟨pos, x :: r⟩).map .ident)]
            [(.lit, Token.literal (Cursor.moved k t ⟨pos, x :: r⟩)),
              (.num, Token.number (Cursor.moved k t ⟨pos, x :: r⟩)),
              (.string, Token.string (Cursor.moved k t ⟨pos, x :: r⟩)),
              (.ident, (Token.ident (Cursor.moved k t ⟨pos, x :: r⟩)).map .ident)] :=
          .cons (Token.carried_literal ht k _) (.cons (Token.carried_number ht k _)
            (.cons hstring (.cons hident .nil)))
        exact (hall.firstOf pos).mono fun _ _ => True.intro

private theorem Spaces.skip_moved {t : Bytes} (ht : EndsLine t) (k : Nat) (c : Cursor) :
    inline.skip (c.moved k t) = (inline.skip c).moved k t := by
  have hstop : ∀ x ∈ t.head?, inline.has x = false := by
    rcases ht with rfl | ⟨r, rfl⟩
    · simp
    · intro x hx
      cases hx
      rfl
  have htake := takeWhile_append_of_head hstop c.rest
  rw [skip, skip, Cursor.moved, htake]
  exact Cursor.moved_advance k t (List.takeWhile_prefix _).length_le

/-- **Arguments** in another place. They end in front of what is put behind them. -/
theorem carried_args {t : Bytes} (ht : EndsLine t) (k index : Nat) (c : Cursor) :
    Carried k t (List.map (Arg.moved k)) (fun _ => t = [])
      (manyFrom Spaces.inline Arg.parse index c)
      (manyFrom Spaces.inline Arg.parse index (c.moved k t)) := by
  have hmoved {c : Cursor} (h : ¬ c.rest.isEmpty = true) : ¬ (c.moved k t).rest.isEmpty = true := by
    rw [List.isEmpty_iff] at h ⊢
    exact fun hnil => h (List.append_eq_nil_iff.mp hnil).1
  have hitem (c : Cursor) : Carried k t (Arg.moved k) (fun o => t = [] ∨ o = (Spaces.inline.skip c).pos)
      (Arg.parse (Spaces.inline.skip c)) (Arg.parse (Spaces.inline.skip (c.moved k t))) := by
    rw [Spaces.skip_moved ht]
    exact Arg.carried_parse ht k _
  have hpos (c : Cursor) : (Spaces.inline.skip (c.moved k t)).pos = (Spaces.inline.skip c).pos + k := by
    rw [Spaces.skip_moved ht]
    rfl
  have hlength (c : Cursor) : (c.moved k t).rest.length = c.rest.length + t.length :=
    List.length_append
  fun_induction manyFrom Spaces.inline Arg.parse index c with
  | case1 index c hempty =>
    -- where the arguments ended with the text, a line ends now
    have hcloses : Closes t := by
      rcases ht with rfl | ⟨r, rfl⟩
      · exact ⟨[], [], rfl, List.forall_mem_nil _, .inl rfl⟩
      · exact ⟨[], 0x0a :: r, rfl, List.forall_mem_nil _, .inr (.inl ⟨0x0a, r, rfl, .inr rfl⟩)⟩
    have hnone := hcloses.manyFrom_args index (c.pos + k)
    obtain ⟨pos, b⟩ := c
    obtain rfl : b = [] := List.isEmpty_iff.mp hempty
    exact hnone
  -- an error at the start of an argument ends the row, and it is at the start in both places
  | case2 index c hempty first e hrun =>
    obtain ⟨e', hrun'⟩ := (hitem c).of_failed hrun (.inr rfl)
    rw [manyFrom.eq_def _ _ _ (c.moved k t), if_neg (hmoved hempty)]
    simp only [hrun', hpos]
    exact if_pos rfl
  | case3 index c hempty first e o hrun hne =>
    intro hnil
    obtain ⟨e', hrun'⟩ := (hitem c).of_failed hrun (.inl hnil)
    rw [manyFrom.eq_def _ _ _ (c.moved k t), if_neg (hmoved hempty)]
    simp only [hrun', hpos]
    exact ⟨_, if_neg fun heq => hne (Nat.add_right_cancel heq)⟩
  | case4 index c hempty first hrun =>
    have hrun' := (hitem c).of_endless hrun
    rw [manyFrom.eq_def _ _ _ (c.moved k t), if_neg (hmoved hempty)]
    simp only [hrun']
    rfl
  | case5 index c hempty first hrun =>
    have hrun' := (hitem c).of_outside hrun
    rw [manyFrom.eq_def _ _ _ (c.moved k t), if_neg (hmoved hempty)]
    simp only [hrun']
    rfl
  -- both texts are longer by the same, so the test for progress comes out alike
  | case6 index c hempty first a after hrun hlt ih =>
    have hrun' := (hitem c).of_done hrun
    rw [manyFrom.eq_def _ _ _ (c.moved k t), if_neg (hmoved hempty)]
    simp only [hrun', hlength, Nat.add_lt_add_iff_right, if_pos hlt]
    exact ih.map fun _ => rfl
  | case7 index c hempty first a after hrun hlt =>
    have hrun' := (hitem c).of_done hrun
    rw [manyFrom.eq_def _ _ _ (c.moved k t), if_neg (hmoved hempty)]
    simp only [hrun', hlength, Nat.add_lt_add_iff_right, if_neg hlt]
    rfl

namespace Statement

/-- The mark behind the name of a result. -/
private theorem carried_mark {t : Bytes} (ht : EndsLine t) (k : Nat) (c : Cursor) :
    Carried k t id (fun _ => True) (Token.fixed (Bytes.ascii "=") c)
      (Token.fixed (Bytes.ascii "=") (c.moved k t)) := by
  obtain ⟨pos, b⟩ := c
  cases b with
  | nil => rcases ht with rfl | ⟨r, rfl⟩ <;> exact fun _ => ⟨_, rfl⟩
  | cons x r =>
    have hsame : (Bytes.ascii "=").isPrefixOf (x :: r ++ t) = (Bytes.ascii "=").isPrefixOf (x :: r) :=
      rfl
    rw [Token.fixed, Token.fixed, Cursor.moved, hsame]
    split
    · exact congrArg _ (Cursor.moved_advance k t (Nat.succ_le_succ (Nat.zero_le _)))
    · exact fun _ => ⟨_, rfl⟩

private theorem resultName?_moved {t : Bytes} (ht : EndsLine t) (k : Nat) (c : Cursor) :
    resultName? (c.moved k t) =
      (resultName? c).map fun p => (p.1.moved k, p.2.moved k t) := by
  have hident := Token.carried_ident ht k c
  rw [resultName?, resultName?]
  cases hrun : Token.ident c with
  | done name c₁ =>
    rw [hident.of_done hrun]
    have hmark := carried_mark ht k (Spaces.inline.skip c₁)
    rw [← Spaces.skip_moved ht] at hmark
    dsimp only
    cases hrun : Token.fixed (Bytes.ascii "=") (Spaces.inline.skip c₁) with
    | done text c₂ =>
      rw [hmark.of_done hrun]
      rfl
    | failed e o =>
      obtain ⟨e', hrun'⟩ := hmark.of_failed hrun True.intro
      rw [hrun']
      rfl
    | endless =>
      rw [hmark.of_endless hrun]
      rfl
    | outside =>
      rw [hmark.of_outside hrun]
      rfl
  | failed e o =>
    obtain ⟨e', hrun'⟩ := hident.of_failed hrun True.intro
    rw [hrun']
    rfl
  | endless =>
    rw [hident.of_endless hrun]
    rfl
  | outside =>
    rw [hident.of_outside hrun]
    rfl

private theorem carried_resultType {t : Bytes} (ht : EndsLine t) (k : Nat) (c : Cursor) :
    Carried k t (Option.map (Lexeme.moved k)) (fun _ => True) (resultType c)
      (resultType (c.moved k t)) := by
  obtain ⟨pos, b⟩ := c
  cases b with
  | nil => rcases ht with rfl | ⟨r, rfl⟩ <;> rfl
  | cons x r =>
    by_cases hx : x = 0x2e
    · subst hx
      have hident := Token.carried_ident ht k (Cursor.advance ⟨pos, 0x2e :: r⟩ 1)
      rw [← Cursor.moved_advance k t (Nat.succ_le_succ (Nat.zero_le _))] at hident
      have hsome : Carried k t (Option.map (Lexeme.moved k)) (fun _ => True)
          ((Token.ident (Cursor.advance ⟨pos, 0x2e :: r⟩ 1)).map some)
          ((Token.ident ((Cursor.moved k t ⟨pos, 0x2e :: r⟩).advance 1)).map some) :=
        hident.map fun _ => rfl
      exact hsome.during .type .type
    · have hnone (p : Nat) (b : Bytes) : resultType ⟨p, x :: b⟩ = .done none ⟨p, x :: b⟩ := by
        rw [resultType]
        split
        · next heq => exact absurd (List.cons.inj heq).1 hx
        · rfl
      rw [hnone, Cursor.moved, List.cons_append, hnone]
      rfl

private theorem guardMark_moved {t : Bytes} (ht : EndsLine t) (k : Nat) (c : Cursor) :
    guardMark (c.moved k t) = ((guardMark c).1, (guardMark c).2.moved k t) := by
  obtain ⟨pos, b⟩ := c
  cases b with
  | nil => rcases ht with rfl | ⟨r, rfl⟩ <;> rfl
  | cons x r =>
    by_cases hx : x = 0x21
    · subst hx
      have hadvance := Cursor.moved_advance (c := ⟨pos, 0x21 :: r⟩) k t
        (Nat.succ_le_succ (Nat.zero_le r.length))
      exact congrArg (Prod.mk true) hadvance
    · have hnone (p : Nat) (b : Bytes) : guardMark ⟨p, x :: b⟩ = (false, ⟨p, x :: b⟩) := by
        rw [guardMark]
        split
        · next heq => exact absurd (List.cons.inj heq).1 hx
        · rfl
      rw [hnone, Cursor.moved, List.cons_append, hnone]

private theorem carried_parseFrom {t : Bytes} (ht : EndsLine t) (k pos : Nat) (name : Option Lexeme)
    (c : Cursor) :
    Carried k t (Statement.moved k) (fun _ => t = []) (parseFrom pos name c)
      (parseFrom (pos + k) (name.map (Lexeme.moved k)) (c.moved k t)) := by
  have hop := ((Token.carried_ident ht k c).during .op .op).mono (Q := fun _ => t = [])
    fun _ _ => True.intro
  refine hop.bind fun {op c₁} _ => ?_
  refine ((carried_resultType ht k c₁).mono fun _ _ => True.intro).bind fun {ty c₂} _ => ?_
  rw [guardMark_moved ht]
  refine ((carried_args ht k 0 _).during .args .args).bind fun {args c₃} _ => ?_
  rfl

/-- **A statement** in another place. -/
theorem carried_parse {t : Bytes} (ht : EndsLine t) (k : Nat) (c : Cursor) :
    Carried k t (Statement.moved k) (fun _ => t = []) (parse c) (parse (c.moved k t)) := by
  rw [parse, parse, resultName?_moved ht]
  cases resultName? c with
  | none =>
    have hfrom := carried_parseFrom ht k c.pos none (Spaces.inline.skip c)
    rw [← Spaces.skip_moved ht] at hfrom
    exact hfrom
  | some p =>
    have hfrom := carried_parseFrom ht k c.pos (some p.1) (Spaces.inline.skip p.2)
    rw [← Spaces.skip_moved ht] at hfrom
    exact hfrom

end Statement

/-! ### Comments -/

namespace Spaces

variable {s : Spaces} {t : Bytes}

/-- A second slash is not found in what is put behind. -/
private theorem head?_append (ht : EndsLine t) (r : Bytes) :
    ((r ++ t).head? == some 0x2f) = (r.head? == some 0x2f) := by
  cases r with
  | nil => rcases ht with rfl | ⟨r, rfl⟩ <;> rfl
  | cons x r => rfl

/-- Only a scan that comes to the end of a text goes on into what is put behind it. -/
private theorem commentLength_append (ht : EndsLine t) (inside : Bool) (b : Bytes) :
    s.commentLength inside (b ++ t) = s.commentLength inside b +
      if s.commentLength inside b = b.length then s.commentLength false t else 0 := by
  induction b generalizing inside with
  | nil =>
    rw [List.nil_append, commentLength, List.length_nil, if_pos rfl, Nat.zero_add]
    rcases ht with rfl | ⟨r, rfl⟩
    · rfl
    · exact commentLength_break inside r
  | cons x r ih =>
    rw [List.cons_append, commentLength, commentLength, head?_append ht]
    -- a byte that is passed is passed in both texts
    have hpass (inside : Bool) : s.commentLength inside (r ++ t) + 1 = s.commentLength inside r + 1 +
        if s.commentLength inside r + 1 = (x :: r).length then s.commentLength false t else 0 := by
      rw [ih inside, List.length_cons]
      simp only [Nat.add_right_cancel_iff]
      exact Nat.add_right_comm ..
    split
    · exact hpass true
    · split
      · exact hpass false
      · split
        · exact hpass true
        · rw [if_neg (by rw [List.length_cons]; exact (Nat.succ_ne_zero _).symm)]

private theorem skipComments_inline_moved (ht : EndsLine t) (k : Nat) (c : Cursor) :
    inline.skipComments (c.moved k t) = (inline.skipComments c).moved k t := by
  have hstop : inline.commentLength false t = 0 := by
    rcases ht with rfl | ⟨r, rfl⟩ <;> rfl
  have hlength : inline.commentLength false (c.moved k t).rest = inline.commentLength false c.rest := by
    rw [Cursor.moved, commentLength_append ht, hstop, ite_self, Nat.add_zero]
  rw [skipComments, skipComments, hlength]
  exact Cursor.moved_advance k t (commentLength_le ..)

/-- A margin in front of something ends there. -/
private theorem skipComments_moved (ht : EndsLine t) (k : Nat) {c : Cursor}
    (h : (all.skipComments c).rest ≠ []) :
    all.skipComments (c.moved k t) = (all.skipComments c).moved k t := by
  have hne : all.commentLength false c.rest ≠ c.rest.length := by
    intro heq
    rw [skipComments, heq, Cursor.advance, List.drop_length] at h
    exact h rfl
  have hlength : all.commentLength false (c.moved k t).rest = all.commentLength false c.rest := by
    rw [Cursor.moved, commentLength_append ht, if_neg hne, Nat.add_zero]
  rw [skipComments, skipComments, hlength]
  exact Cursor.moved_advance k t (commentLength_le ..)

/-- A margin with nothing behind it goes on. -/
private theorem skipComments_moved_of_nil (ht : EndsLine t) (k : Nat) {c : Cursor}
    (h : (all.skipComments c).rest = []) :
    all.skipComments (c.moved k t) = all.skipComments ((all.skipComments c).moved k t) := by
  have hall : all.commentLength false c.rest = c.rest.length :=
    Nat.le_antisymm (commentLength_le ..) (List.drop_eq_nil_iff.mp h)
  have hlength : all.commentLength false (c.moved k t).rest =
      c.rest.length + all.commentLength false t := by
    rw [Cursor.moved, commentLength_append ht, if_pos hall, hall]
  have hrest : ((all.skipComments c).moved k t).rest = t := by
    rw [Cursor.moved, h, List.nil_append]
  rw [skipComments, hlength, skipComments.eq_def all ((all.skipComments c).moved k t), hrest]
  simp only [Cursor.advance, skipComments, Cursor.moved, hall, List.drop_length, List.nil_append,
    Cursor.mk.injEq]
  refine ⟨by omega, ?_⟩
  rw [← List.drop_drop, List.drop_left]

/-- With nothing put behind it a text is only moved. -/
private theorem skipComments_moved_nil (s : Spaces) (k : Nat) (c : Cursor) :
    s.skipComments (c.moved k []) = (s.skipComments c).moved k [] := by
  have hrest : (c.moved k []).rest = c.rest := List.append_nil _
  rw [skipComments, skipComments, hrest]
  exact Cursor.moved_advance k [] (commentLength_le ..)

end Spaces

/-! ### Statements -/

private theorem Cursor.Passes.end_eq {c d : Cursor} {b : Bytes} (h : c.Passes b d) :
    d.pos + d.rest.length = c.pos + c.rest.length := by
  rw [h.pos, h.rest, List.length_append, Nat.add_assoc]

private theorem Statement.exists_passes_of_parse {c next : Cursor} {s : Statement}
    (h : parse c = .done s next) : ∃ b, c.Passes b next := by
  rw [parse] at h
  split at h
  · next name c₁ hname =>
    obtain ⟨-, -, -, hbody⟩ := crosses_of_parseFrom h
    obtain ⟨b, hb, -⟩ := ((crosses_of_resultName? hname).trans (Cursor.crosses_skip c₁)).trans hbody
    exact ⟨b, hb⟩
  · obtain ⟨-, -, -, hbody⟩ := crosses_of_parseFrom h
    obtain ⟨b, hb, -⟩ := (Cursor.crosses_skip c).trans hbody
    exact ⟨b, hb⟩

namespace Program

/-- **A script is read to its end.** -/
theorem ensures_statementsFrom_end (index : Nat) (c : Cursor) :
    (statementsFrom index c).Ensures fun _ last => last = ⟨c.pos + c.rest.length, []⟩ := by
  -- passing a piece of text does not change where the text ends
  fun_induction statementsFrom index c with
  | case1 index c c₁ hempty =>
    have hend := (Spaces.all.passes_skipComments c).end_eq
    have hnil : c₁.rest = [] := List.isEmpty_iff.mp hempty
    rw [show Spaces.all.skipComments c = c₁ from rfl, hnil, List.length_nil, Nat.add_zero] at hend
    rw [← hend, ← hnil]
    rfl
  | case6 index c c₁ hempty s after hrun next hline hlt ih =>
    refine ih.map fun {ss last} hlast => ?_
    rw [Outcome.during_eq_done_iff] at hrun
    obtain ⟨b, hb⟩ := Statement.exists_passes_of_parse hrun
    have hend := (((Spaces.all.passes_skipComments c).trans hb).trans
      (Spaces.inline.passes_skipComments after)).end_eq
    rw [hlast]
    exact congrArg (Cursor.mk · []) hend
  | _ => exact True.intro

/-- One statement, and what follows it. -/
private theorem statementsFrom_of_parse (index : Nat) {c after : Cursor} {s : Statement}
    (hne : (Spaces.all.skipComments c).rest ≠ [])
    (hrun : Statement.parse (Spaces.all.skipComments c) = .done s after)
    (hline : (Spaces.inline.skipComments after).atLineEnd = true)
    (hlt : (Spaces.inline.skipComments after).rest.length <
      (Spaces.all.skipComments c).rest.length) :
    statementsFrom index c =
      (statementsFrom (index + 1) (Spaces.inline.skipComments after)).map (s :: ·) := by
  have hempty : (Spaces.all.skipComments c).rest.isEmpty = false := by simpa using hne
  rw [statementsFrom]
  simp only [hempty, Bool.false_eq_true, if_false, hrun, Outcome.during, hline, Bool.not_true, hlt,
    dite_true]

/-- **More lines** behind a script are read after it. -/
theorem ensures_statementsFrom_append {t : Bytes} (ht : EndsLine t) (k d index : Nat) (c : Cursor) :
    (statementsFrom index c).Ensures fun ss last => statementsFrom (index + d) (c.moved k t) =
      (statementsFrom (index + d + ss.length) (last.moved k t)).map
        (ss.map (Statement.moved k) ++ ·) := by
  fun_induction statementsFrom index c with
  | case1 index c c₁ hempty =>
    have hnil : c₁.rest = [] := List.isEmpty_iff.mp hempty
    have hskip := Spaces.skipComments_moved_of_nil ht k hnil
    have hmap (x : Outcome (List Statement)) : x = x.map ([] ++ ·) := by cases x <;> rfl
    exact (statementsFrom_congr hskip _).trans (hmap _)
  | case6 index c c₁ hempty s after hrun next hline hlt ih =>
    refine ih.map fun {ss last} hrest => ?_
    rw [Outcome.during_eq_done_iff] at hrun
    have hne : c₁.rest ≠ [] := fun h => hempty (by rw [h]; rfl)
    have hskip := Spaces.skipComments_moved ht k hne
    have hnext := Spaces.skipComments_inline_moved ht k after
    have hlength (c : Cursor) : (c.moved k t).rest.length = c.rest.length + t.length :=
      List.length_append
    -- the first statement ends in front of a line end, so it is read as before
    have hstep : statementsFrom (index + d) (c.moved k t) =
        (statementsFrom (index + d + 1) (next.moved k t)).map (s.moved k :: ·) := by
      rw [show next.moved k t = Spaces.inline.skipComments (after.moved k t) from hnext.symm]
      apply statementsFrom_of_parse
      · rw [hskip]
        exact fun h => hne (List.append_eq_nil_iff.mp h).1
      · rw [hskip]
        exact (Statement.carried_parse ht k c₁).of_done hrun
      · rw [hnext, (place_moved ht k _).1]
        simpa using hline
      · rw [hskip, hnext, hlength, hlength]
        exact Nat.add_lt_add_right hlt _
    have hcount : index + 1 + d + ss.length = index + d + (s :: ss).length := by
      rw [List.length_cons]
      omega
    rw [hstep, Nat.add_right_comm, hrest, hcount]
    cases statementsFrom (index + d + (s :: ss).length) (last.moved k t) <;> rfl
  | _ => exact True.intro

/-- One round of the loop: a statement, the end of its line, and the rest. -/
private theorem statementsFrom_eq_bind (index : Nat) (c : Cursor) :
    statementsFrom index c =
      let first := Spaces.all.skipComments c
      if first.rest.isEmpty then .done [] first
      else ((Statement.parse first).during (.statement index)).bind fun s after =>
        let next := Spaces.inline.skipComments after
        if !next.atLineEnd then .failed .endOfLineExpected next.pos
        else if next.rest.length < first.rest.length then
          (statementsFrom (index + 1) next).map (s :: ·)
        else .endless := by
  rw [statementsFrom]
  dsimp only
  split
  · rfl
  · cases (Statement.parse (Spaces.all.skipComments c)).during (.statement index) <;> rfl

/-- **A text alone**, read at another offset and after other statements. -/
theorem carried_statementsFrom (k d index : Nat) (c : Cursor) :
    Carried k [] (List.map (Statement.moved k)) (fun _ => True) (statementsFrom index c)
      (statementsFrom (index + d) (c.moved k [])) := by
  have hrest (c : Cursor) : (c.moved k []).rest = c.rest := List.append_nil _
  -- the loop goes on with less text only
  induction hn : c.rest.length using Nat.strong_induction_on generalizing index c with
  | _ n ih =>
    rw [statementsFrom_eq_bind, statementsFrom_eq_bind, Spaces.skipComments_moved_nil]
    dsimp only
    rw [hrest]
    split
    · rfl
    · have hparse := Statement.carried_parse (.inl rfl) k (Spaces.all.skipComments c)
      refine ((hparse.mono fun _ _ => rfl).during _ _).bind fun {s after} _ => ?_
      rw [Spaces.skipComments_moved_nil, (place_moved (.inl rfl) k _).1, hrest]
      split
      · exact fun _ => ⟨_, rfl⟩
      · split
        · next hlt =>
          have hless := Nat.lt_of_lt_of_le hlt (Cursor.length_advance_le c _)
          have hnext := ih _ (hn ▸ hless) (index + 1) (Spaces.inline.skipComments after) rfl
          rw [Nat.add_right_comm] at hnext
          exact hnext.map fun _ => rfl
        · rfl

/-- **Behind a script** a text is read as it is read alone, further on and after the statements of
the script. -/
theorem carried_lines {a : Bytes} {ss : List Statement} {last : Cursor}
    (ha : statementsFrom 0 (.start a) = .done ss last) (b : Bytes) :
    Carried (a.length + 1) [] (ss ++ List.map (Statement.moved (a.length + 1)) ·) (fun _ => True)
      (statementsFrom 0 (.start b)) (statementsFrom 0 (.start (a ++ 0x0a :: b))) := by
  obtain rfl : last = ⟨a.length, []⟩ :=
    ((ensures_statementsFrom_end 0 (.start a)).of_eq ha).trans (by simp [Cursor.start])
  have hfirst := (ensures_statementsFrom_append (t := 0x0a :: b) (.inr ⟨b, rfl⟩) 0 0 0
    (.start a)).of_eq ha
  -- the line feed between them is a margin of the second text
  have hskip : Spaces.all.skipComments (Cursor.moved 0 (0x0a :: b) ⟨a.length, []⟩) =
      Spaces.all.skipComments ((Cursor.start b).moved (a.length + 1) []) := by
    have hmargin := Spaces.skipComments_margin (.space (.inr (.inr rfl)) .nil : Margin [0x0a])
      a.length b
    rw [Cursor.moved, Cursor.start, Cursor.moved, List.append_nil, Nat.zero_add]
    exact hmargin
  have hzero : Statement.moved 0 = id := funext Statement.moved_zero
  rw [statementsFrom_congr hskip, hzero, List.map_id] at hfirst
  have hwhole : statementsFrom 0 (.start (a ++ 0x0a :: b)) =
      (statementsFrom (0 + ss.length) ((Cursor.start b).moved (a.length + 1) [])).map (ss ++ ·) :=
    hfirst
  rw [hwhole]
  have hmap (x : Outcome (List Statement)) : x = x.map id := by cases x <;> rfl
  rw [hmap (statementsFrom 0 (.start b))]
  exact (carried_statementsFrom (a.length + 1) ss.length 0 (.start b)).map fun _ => rfl

/-- A text is a script if its statements are read to the end. -/
private theorem parse_eq_done_iff {text : Bytes} {p : Program} {last : Cursor} :
    parse (.start text) = .done p last ↔ p.pos = 0 ∧ p.stop = text.length ∧
      last = ⟨text.length, []⟩ ∧ statementsFrom 0 (.start text) = .done p.statements last := by
  have hend := ensures_statementsFrom_end 0 (.start text)
  rw [parse]
  cases hrun : statementsFrom 0 (.start text) with
  | done ss next =>
    obtain rfl : next = ⟨text.length, []⟩ := (hend.of_eq hrun).trans (by simp [Cursor.start])
    constructor
    · rintro ⟨⟩
      exact ⟨rfl, rfl, rfl, rfl⟩
    · rintro ⟨hpos, hstop, -, hss⟩
      cases hss
      cases p
      cases hpos
      cases hstop
      rfl
  | failed e o => simp [Outcome.bind]
  | endless => simp [Outcome.bind]
  | outside => simp [Outcome.bind]

private theorem parse_eq_failed_iff {c : Cursor} {e : SyntaxError} {o : Nat} :
    parse c = .failed e o ↔ statementsFrom 0 c = .failed e o := by
  rw [parse]
  cases statementsFrom 0 c <;> simp [Outcome.bind]

/-- **A script and then another text.** If the text is a script, then so are both together, with the
statements of the first and those of the second further on. If it is none, then its error is the
error of both together, further on. -/
theorem parse_lines {a : Bytes} {p : Program} {last : Cursor}
    (ha : parse (.start a) = .done p last) (b : Bytes) :
    (∀ q last', parse (.start b) = .done q last' →
      parse (.start (a ++ 0x0a :: b)) =
        .done ⟨0, (a ++ 0x0a :: b).length,
            p.statements ++ q.statements.map (Statement.moved (a.length + 1))⟩
          ⟨(a ++ 0x0a :: b).length, []⟩) ∧
    ∀ e o, parse (.start b) = .failed e o →
      ∃ e', parse (.start (a ++ 0x0a :: b)) = .failed e' (o + (a.length + 1)) := by
  obtain ⟨-, -, -, hss⟩ := parse_eq_done_iff.mp ha
  have hlines := carried_lines hss b
  constructor
  · intro q last' hb
    obtain ⟨-, -, rfl, hqs⟩ := parse_eq_done_iff.mp hb
    have hboth := hlines.of_done hqs
    rw [Cursor.moved_end] at hboth
    exact parse_eq_done_iff.mpr ⟨rfl, rfl, rfl, hboth⟩
  · intro e o hb
    obtain ⟨e', hboth⟩ := hlines.of_failed (parse_eq_failed_iff.mp hb) True.intro
    exact ⟨e', parse_eq_failed_iff.mpr hboth⟩

/-- A script that ends in a number without its exponent, and behind it once a digit, which is no
script, and once a script with a comment. -/
theorem parse_lines_of_openExponent :
    ∃ p last, parse (.start (Bytes.ascii "x = ADD 2e+")) = .done p last ∧
      (∃ e o, parse (.start (Bytes.ascii "3")) = .failed e o ∧
        ∃ e', parse (.start (Bytes.ascii "x = ADD 2e+\n3")) = .failed e' (o + 12)) ∧
      ∃ q last', parse (.start (Bytes.ascii "ADD x // y")) = .done q last' ∧
        parse (.start (Bytes.ascii "x = ADD 2e+\nADD x // y")) =
          .done ⟨0, 22, p.statements ++ q.statements.map (Statement.moved 12)⟩ ⟨22, []⟩ := by
  have hp : parse (.start (Bytes.ascii "x = ADD 2e+")) = .done
      ⟨0, 11, [⟨0, 11, some ⟨0, Bytes.ascii "x"⟩, ⟨4, Bytes.ascii "ADD"⟩, none, false,
        [.float ⟨8, Bytes.ascii "2e+"⟩]⟩]⟩ ⟨11, []⟩ := by decide +kernel
  have he : parse (.start (Bytes.ascii "3")) = .failed
      (.inside (.statement 0) (.inside .op (.expected .ident))) 0 := by decide +kernel
  have hq : parse (.start (Bytes.ascii "ADD x // y")) = .done
      ⟨0, 10, [⟨0, 5, none, ⟨0, Bytes.ascii "ADD"⟩, none, false,
        [.ident ⟨4, Bytes.ascii "x"⟩]⟩]⟩ ⟨10, []⟩ := by decide +kernel
  exact ⟨_, _, hp, ⟨_, _, he, (parse_lines hp _).2 _ _ he⟩, _, _, hq, (parse_lines hp _).1 _ _ hq⟩

end Program

/-- A file is a script if its statements are read to the end. -/
theorem parseFile_eq_tree_iff {name text : Bytes} {p : Program} :
    parseFile name text = .tree p ↔ p.pos = 0 ∧ p.stop = text.length ∧
      Program.statementsFrom 0 (.start text) = .done p.statements ⟨text.length, []⟩ := by
  have htext : Source.text [⟨name, text⟩] = text := by simp [Source.text]
  have htree : parseFile name text = .tree p ↔
      Program.parse (.start text) = .done p ⟨text.length, []⟩ := by
    rw [parseFile, Source.parseWith, htext]
    cases hrun : Program.parse (.start text) with
    | done q next =>
      -- nothing is left behind a script, so no text is read in part only
      obtain ⟨-, -, rfl, -⟩ := Program.parse_eq_done_iff.mp hrun
      have hnil : (Spaces.all.skip ⟨text.length, []⟩).rest = [] := rfl
      simp [hnil]
    | failed e o => simp
    | endless => simp
    | outside => simp
  rw [htree, Program.parse_eq_done_iff]
  simp

/-- **One script after another** is a script. Its statements are those of the first one, and then
those of the second one further on. -/
theorem parseFile_append {name a b : Bytes} {p q : Program} (hp : parseFile name a = .tree p)
    (hq : parseFile name b = .tree q) :
    ∃ r, parseFile name (a ++ 0x0a :: b) = .tree r ∧
      r.statements = p.statements ++ q.statements.map (Statement.moved (a.length + 1)) := by
  obtain ⟨-, -, hp⟩ := parseFile_eq_tree_iff.mp hp
  obtain ⟨-, -, hq⟩ := parseFile_eq_tree_iff.mp hq
  have hboth := (Program.carried_lines hp b).of_done hq
  refine ⟨⟨0, _, _⟩, parseFile_eq_tree_iff.mpr ⟨rfl, rfl, ?_⟩, rfl⟩
  rw [hboth, Cursor.moved_end]

end TraceIR.Script
