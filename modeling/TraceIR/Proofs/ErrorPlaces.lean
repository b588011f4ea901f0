import TraceIR.Proofs.Coverage
import TraceIR.Proofs.Delimiters
import TraceIR.Proofs.Placement

/-!
# The places of syntax errors

An error arises at an offset inside some word and is handed on through choices, repetitions,
statements and scripts. None of them moves it, so it is enough to know where the words fail. All of
them fail inside the text or at its end, with one exception: a backslash in a string takes the next
byte with it, whatever it is, and at the very end of the text there is none. Such an error lies one
byte beyond the text, where no file is.

* `Token.stringEnd_eq_unterminated`: how far the search for a closing quote gets. It counts a byte
  too many exactly if the text ends with an odd number of backslashes.
* `Outcome.Placed`: a result leaves a cursor in the text, and an error has its offset there unless
  it overruns the text. One lemma for each way to combine parsers and one for each parser end in
  `Program.placed_parse`.
* `parseFile_wrong_place`: which errors are reported at a position of the text.
-/

namespace TraceIR.Script

/-! ### Open strings -/

/-- The number of backslashes at the end of a text. -/
def backslashesAtEnd (b : Bytes) : Nat :=
  (b.reverse.takeWhile (· == 0x5c)).length

private theorem backslashesAtEnd_le (b : Bytes) : backslashesAtEnd b ≤ b.length := by
  have hle := (List.takeWhile_prefix (· == 0x5c) (l := b.reverse)).length_le
  rwa [List.length_reverse] at hle

/-- A byte in front counts only if it is a backslash and nothing else follows it. -/
private theorem backslashesAtEnd_cons (x : UInt8) (b : Bytes) :
    backslashesAtEnd (x :: b) =
      backslashesAtEnd b + if backslashesAtEnd b = b.length ∧ x = 0x5c then 1 else 0 := by
  rw [backslashesAtEnd, List.reverse_cons, List.takeWhile_append, List.length_reverse]
  -- from the end, the byte in front is the last to be seen, and only if `b` did not stop the count
  change List.length (if backslashesAtEnd b = b.length then _ else _) = _
  by_cases hall : backslashesAtEnd b = b.length
  · rw [if_pos hall, List.length_append, List.length_reverse, hall]
    by_cases hx : x = 0x5c
    · rw [if_pos ⟨rfl, hx⟩, hx]
      rfl
    · rw [if_neg fun h => hx h.2, List.takeWhile_cons_of_neg (by simpa using hx)]
      rfl
  · rw [if_neg hall, if_neg fun h => hall h.1]
    rfl

/-- What stands before another byte than a backslash does not matter. -/
private theorem backslashesAtEnd_append {x : UInt8} (hx : x ≠ 0x5c) (p b : Bytes) :
    backslashesAtEnd (p ++ x :: b) = backslashesAtEnd b := by
  have hstop : ∀ c ∈ (x :: p.reverse).head?, (c == 0x5c) = false := by
    intro c hc
    cases hc
    exact beq_false_of_ne hx
  rw [backslashesAtEnd, List.reverse_append, List.reverse_cons, List.append_assoc,
    List.singleton_append, takeWhile_append_of_head hstop]
  rfl

namespace Token

private theorem StringEnd.shift_eq_unterminated_iff {x : StringEnd} {k n : Nat} :
    x.shift k = .unterminated n ↔ ∃ m, x = .unterminated m ∧ m + k = n := by
  cases x <;> simp [shift]

private theorem StringEnd.shift_eq_newline_iff {x : StringEnd} {k n : Nat} :
    x.shift k = .newline n ↔ ∃ m, x = .newline m ∧ m + k = n := by
  cases x <;> simp [shift]

/-- The search for a closing quote stops at the end of the text, or one byte beyond it if the last
backslash has nothing to take with it. -/
theorem stringEnd_eq_unterminated {b : Bytes} {n : Nat} (h : stringEnd b = .unterminated n) :
    n = b.length + backslashesAtEnd b % 2 := by
  fun_induction stringEnd b generalizing n with
  | case1 =>
    cases h
    rfl
  | case2 =>
    -- a backslash alone takes two bytes all the same
    cases h
    rfl
  | case3 x r ih =>
    obtain ⟨m, hrest, rfl⟩ := StringEnd.shift_eq_unterminated_iff.mp h
    have hm := ih hrest
    -- the two bytes count both or not at all
    have hle := backslashesAtEnd_le r
    have hparity : backslashesAtEnd (0x5c :: x :: r) % 2 = backslashesAtEnd r % 2 := by
      rw [backslashesAtEnd_cons, backslashesAtEnd_cons, List.length_cons]
      by_cases hboth : backslashesAtEnd r = r.length ∧ x = 0x5c
      · rw [if_pos hboth, if_pos ⟨by rw [hboth.1], rfl⟩]
        omega
      · rw [if_neg hboth, if_neg (by omega)]
        rfl
    rw [hm, hparity, List.length_cons, List.length_cons]
    omega
  | case4 r => cases h
  | case5 r => cases h
  | case6 x r hlast hpair _ _ ih =>
    obtain ⟨m, hrest, rfl⟩ := StringEnd.shift_eq_unterminated_iff.mp h
    have hx : x ≠ 0x5c := by
      intro hx
      cases r with
      | nil => exact hlast hx rfl
      | cons y r => exact hpair y r hx rfl
    rw [ih hrest, backslashesAtEnd_cons, if_neg fun hboth => hx hboth.2, List.length_cons]
    omega

private theorem stringEnd_newline_lt {b : Bytes} {n : Nat} (h : stringEnd b = .newline n) :
    n < b.length := by
  fun_induction stringEnd b generalizing n with
  | case1 => cases h
  | case2 => cases h
  | case3 x r ih =>
    obtain ⟨m, hrest, rfl⟩ := StringEnd.shift_eq_newline_iff.mp h
    exact Nat.succ_lt_succ (Nat.succ_lt_succ (ih hrest))
  | case4 r =>
    cases h
    exact Nat.succ_pos _
  | case5 r => cases h
  | case6 x r _ _ _ _ ih =>
    obtain ⟨m, hrest, rfl⟩ := StringEnd.shift_eq_newline_iff.mp h
    exact Nat.succ_lt_succ (ih hrest)

end Token

/-! ### Placed outcomes -/

/-- The error inside all steps. -/
def SyntaxError.root : SyntaxError → SyntaxError
  | .inside _ e => e.root
  | e => e

/-- The error lies beyond the text: a string is open at its end, and the last backslash has nothing
to take with it. -/
def SyntaxError.Overruns (e : SyntaxError) (text : Bytes) : Prop :=
  e.root = .unterminatedString ∧ backslashesAtEnd text % 2 = 1

namespace Cursor.In

variable {c : Cursor} {text : Bytes}

theorem advance (h : c.In text) {n : Nat} (hn : n ≤ c.rest.length) : (c.advance n).In text :=
  ((passes_advance hn).of_in h).1

theorem skip (h : c.In text) (s : Spaces) : (s.skip c).In text :=
  ((s.passes_skip c).of_in h).1

theorem skipComments (h : c.In text) (s : Spaces) : (s.skipComments c).In text :=
  ((s.passes_skipComments c).of_in h).1

theorem pos_add_length (h : c.In text) : c.pos + c.rest.length = text.length := by
  rw [h.rest, List.length_drop]
  exact Nat.add_sub_cancel' h.le

private theorem eq_take_append (h : c.In text) : text = text.take c.pos ++ c.rest := by
  rw [h.rest, List.take_append_drop]

end Cursor.In

namespace Outcome

variable {α β : Type} {text : Bytes} {x : Outcome α}

/-- A result leaves a cursor in the text. An error lies in the text or at its end, except that one
that overruns the text lies one byte beyond it. -/
def Placed (text : Bytes) : Outcome α → Prop
  | .done _ next => next.In text
  | .failed e o => o ≤ text.length ∧ ¬ e.Overruns text ∨ o = text.length + 1 ∧ e.Overruns text
  | .endless | .outside => True

/-- Only an open string can overrun the text. -/
private theorem placed_failed {e : SyntaxError} {o : Nat} (he : e.root ≠ .unterminatedString)
    (ho : o ≤ text.length) : (Outcome.failed e o : Outcome α).Placed text :=
  .inl ⟨ho, fun h => he h.1⟩

private theorem Placed.map (h : x.Placed text) (f : α → β) : (x.map f).Placed text := by
  cases x with
  | done a next => exact h
  | failed e o => exact h
  | endless => exact True.intro
  | outside => exact True.intro

/-- A step around an error does not change its root. -/
private theorem Placed.during (h : x.Placed text) (s : Step) : (x.during s).Placed text := by
  cases x with
  | done a next => exact h
  | failed e o => exact h
  | endless => exact True.intro
  | outside => exact True.intro

private theorem Placed.bind {f : α → Cursor → Outcome β} (h : x.Placed text)
    (hf : ∀ a c, c.In text → (f a c).Placed text) : (x.bind f).Placed text := by
  cases x with
  | done a next => exact hf a next h
  | failed e o => exact h
  | endless => exact True.intro
  | outside => exact True.intro

private theorem placed_firstFailure {start : Nat} (hstart : start ≤ text.length)
    (kinds : List ParserKind) {xs : List (ParserKind × Outcome α)} (h : ∀ p ∈ xs, p.2.Placed text) :
    (firstFailure start kinds xs).Placed text := by
  induction xs with
  | nil => exact placed_failed (fun h => by cases h) hstart
  | cons p xs ih =>
    obtain ⟨hp, hxs⟩ := List.forall_mem_cons.mp h
    obtain ⟨k, y⟩ := p
    cases y with
    | failed e o =>
      rw [firstFailure]
      split
      · -- an alternative that did not get going says nothing
        exact ih hxs
      · exact hp
    | done a next => exact ih hxs
    | endless => exact ih hxs
    | outside => exact ih hxs

private theorem placed_of_firstSuccess? {xs : List (ParserKind × Outcome α)}
    (h : ∀ p ∈ xs, p.2.Placed text) (hx : firstSuccess? xs = some x) : x.Placed text := by
  induction xs with
  | nil => cases hx
  | cons p xs ih =>
    obtain ⟨hp, hxs⟩ := List.forall_mem_cons.mp h
    obtain ⟨k, y⟩ := p
    cases y with
    | failed e o => exact ih hxs hx
    | done a next =>
      cases hx
      exact hp
    | endless =>
      cases hx
      exact True.intro
    | outside =>
      cases hx
      exact True.intro

/-- A choice fails where one of its alternatives does, or where it begins. -/
private theorem placed_firstOf {start : Nat} (hstart : start ≤ text.length)
    {xs : List (ParserKind × Outcome α)} (h : ∀ p ∈ xs, p.2.Placed text) :
    (firstOf start xs).Placed text := by
  rw [firstOf]
  cases hfound : firstSuccess? xs with
  | none => exact placed_firstFailure hstart _ h
  | some y => exact placed_of_firstSuccess? h hfound

/-- A repetition fails where one of its items does. -/
private theorem placed_manyFrom (sep : Spaces) {item : Cursor → Outcome α}
    (hitem : ∀ c, c.In text → (item c).Placed text) (index : Nat) {c : Cursor} (hc : c.In text) :
    (manyFrom sep item index c).Placed text := by
  fun_induction manyFrom sep item index c with
  | case1 index c hempty => exact hc
  | case2 index c hempty first e hrun =>
    -- an item that did not get going ends the list before the blanks
    exact hc
  | case3 index c hempty first e o hrun hne =>
    have hfirst := hitem first (hc.skip sep)
    rw [hrun] at hfirst
    exact hfirst
  | case4 => exact True.intro
  | case5 => exact True.intro
  | case6 index c hempty first a next hrun hlt ih =>
    have hfirst := hitem first (hc.skip sep)
    rw [hrun] at hfirst
    exact (ih hfirst).map _
  | case7 => exact True.intro

end Outcome

/-! ### Words -/

namespace Token

open Outcome

variable {c : Cursor} {text : Bytes}

private theorem placed_number (hc : c.In text) : (number c).Placed text := by
  rw [number]
  split
  · exact placed_failed (fun h => by cases h) hc.le
  · next n fraction hn => exact hc.advance (numberLength?_le hn)

private theorem placed_integer (hc : c.In text) : (integer c).Placed text := by
  rw [integer]
  split
  · exact placed_failed (fun h => by cases h) hc.le
  · next n hn =>
    have hle := (hc.advance (numberLength?_le hn)).le
    exact placed_failed (fun h => by cases h) hle
  · next n hn => exact hc.advance (numberLength?_le hn)

private theorem placed_literal (hc : c.In text) : (literal c).Placed text := by
  rw [literal]
  split
  · next r hrest =>
    have hmark : 1 ≤ c.rest.length := by simp [hrest]
    exact ((placed_integer (hc.advance hmark)).map _).during _
  · exact placed_failed (fun h => by cases h) hc.le

private theorem placed_ident (hc : c.In text) : (ident c).Placed text := by
  rw [ident]
  split
  · next x r hrest =>
    have hname : (identLength r).1 + 1 ≤ c.rest.length := by
      rw [hrest]
      exact Nat.succ_le_succ (identLength_le r)
    split
    · split
      · next n hn =>
        rw [hn] at hname
        exact hc.advance hname
      · next n hn =>
        rw [hn] at hname
        exact placed_failed (fun h => by cases h) (hc.advance hname).le
    · exact placed_failed (fun h => by cases h) hc.le
  · exact placed_failed (fun h => by cases h) hc.le

private theorem placed_string (hc : c.In text) : (string c).Placed text := by
  rw [string]
  split
  · next r hrest =>
    have hlength : c.pos + (r.length + 1) = text.length := by
      rw [← hc.pos_add_length, hrest, List.length_cons]
    split
    · next n hn =>
      refine hc.advance ?_
      rw [hrest]
      exact Nat.succ_le_succ (stringEnd_le hn)
    · next n hn =>
      have hlt := stringEnd_newline_lt hn
      exact placed_failed (fun h => by cases h) (by omega)
    · next n hn =>
      -- the quote cuts off what stands before it, so the text ends as the string does
      have hsame : backslashesAtEnd text = backslashesAtEnd r := by
        rw [hc.eq_take_append, hrest]
        exact backslashesAtEnd_append (by decide) _ _
      have hn' := stringEnd_eq_unterminated hn
      rw [← hsame] at hn'
      obtain heven | hodd := Nat.mod_two_eq_zero_or_one (backslashesAtEnd text)
      · refine .inl ⟨by omega, fun h => ?_⟩
        have hodd := h.2
        omega
      · exact .inr ⟨by omega, rfl, hodd⟩
  · exact placed_failed (fun h => by cases h) hc.le

private theorem placed_fixed (b : Bytes) (hc : c.In text) : (fixed b c).Placed text := by
  rw [fixed]
  split
  · next h => exact hc.advance (List.isPrefixOf_iff_prefix.mp h).length_le
  · exact placed_failed (fun h => by cases h) hc.le

end Token

/-! ### Statements and scripts -/

open Outcome

variable {c : Cursor} {text : Bytes}

theorem Arg.placed_parse (hc : c.In text) : (Arg.parse c).Placed text := by
  rw [Arg.parse]
  split
  · exact placed_failed (fun h => by cases h) hc.le
  · refine placed_firstOf hc.le ?_
    simp only [List.forall_mem_cons]
    exact ⟨Token.placed_literal hc, Token.placed_number hc, Token.placed_string hc,
      (Token.placed_ident hc).map _, fun _ h => absurd h List.not_mem_nil⟩

namespace Statement

theorem in_of_resultName? {next : Cursor} {name : Lexeme} (hc : c.In text)
    (h : resultName? c = some (name, next)) : next.In text := by
  rw [resultName?] at h
  split at h
  · next name c₁ h₁ =>
    have hident := Token.placed_ident hc
    rw [h₁] at hident
    split at h
    · next b c₂ h₂ =>
      cases h
      have hfixed := Token.placed_fixed (Bytes.ascii "=") (Cursor.In.skip hident Spaces.inline)
      rw [h₂] at hfixed
      exact hfixed
    · cases h
  · cases h

private theorem placed_resultType (hc : c.In text) : (resultType c).Placed text := by
  rw [resultType]
  split
  · next r hrest =>
    have hpoint : 1 ≤ c.rest.length := by simp [hrest]
    exact ((Token.placed_ident (hc.advance hpoint)).map _).during _
  · exact hc

theorem in_guardMark (hc : c.In text) : (guardMark c).2.In text := by
  rw [guardMark]
  split
  · next r hrest => exact hc.advance (by simp [hrest])
  · exact hc

private theorem placed_parseFrom (pos : Nat) (name : Option Lexeme) (hc : c.In text) :
    (parseFrom pos name c).Placed text := by
  refine ((Token.placed_ident hc).during _).bind fun op c₁ h₁ => ?_
  refine (placed_resultType h₁).bind fun ty c₂ h₂ => ?_
  have h₃ := in_guardMark h₂
  have hargs := placed_manyFrom Spaces.inline (fun _ => Arg.placed_parse) 0 h₃
  exact (hargs.during _).bind fun args c₄ h₄ => h₄

theorem placed_parse (hc : c.In text) : (parse c).Placed text := by
  rw [parse]
  split
  · next name next hname => exact placed_parseFrom _ _ ((in_of_resultName? hc hname).skip _)
  · exact placed_parseFrom _ _ (hc.skip _)

end Statement

namespace Program

private theorem placed_statementsFrom (index : Nat) (hc : c.In text) :
    (statementsFrom index c).Placed text := by
  fun_induction statementsFrom index c with
  | case1 index c c₁ hempty => exact hc.skipComments _
  | case2 index c c₁ hempty e o hrun =>
    have hfirst := (Statement.placed_parse (hc.skipComments Spaces.all)).during (.statement index)
    rw [hrun] at hfirst
    exact hfirst
  | case3 => exact True.intro
  | case4 => exact True.intro
  | case5 index c c₁ hempty s after hrun next hline =>
    have hfirst := (Statement.placed_parse (hc.skipComments Spaces.all)).during (.statement index)
    rw [hrun] at hfirst
    -- the statement ended, but its line did not
    exact placed_failed (fun h => by cases h) (Cursor.In.skipComments hfirst Spaces.inline).le
  | case6 index c c₁ hempty s after hrun next hline hlt ih =>
    have hfirst := (Statement.placed_parse (hc.skipComments Spaces.all)).during (.statement index)
    rw [hrun] at hfirst
    exact (ih (Cursor.In.skipComments hfirst Spaces.inline)).map _
  | case7 => exact True.intro

theorem placed_parse (hc : c.In text) : (parse c).Placed text :=
  (placed_statementsFrom 0 hc).bind fun _ _ h => h

end Program

/-! ### Files -/

namespace Source

variable {name : Bytes} {o : Nat}

private theorem locate_single (h : o ≤ text.length) :
    locate [⟨name, text⟩] o = ⟨name, Position.ofOffset text o⟩ := by
  have hplace := locate_append_cons (s := []) (f := ⟨name, text⟩) h (.inr rfl) []
  have hbase : (Source.text []).length + o = o := Nat.zero_add o
  rw [List.nil_append, hbase] at hplace
  exact hplace

private theorem locate_single_beyond (h : text.length < o) :
    locate [⟨name, text⟩] o = ⟨[], ⟨0, 0⟩⟩ := by
  have hbeyond : ¬ (((0 : Nat) : Int) ≤ o ∧ (o : Int) ≤ (0 : Nat) + text.length) := by omega
  rw [locate, locateFrom, if_neg hbeyond]
  rfl

end Source

/-- The root of the error is an open string that overruns the text. -/
def SourceError.Overruns (e : SourceError) (text : Bytes) : Prop :=
  ∃ s, e = .syntactic s ∧ s.Overruns text

/-- An error is reported at the place of its offset. -/
private theorem exists_offset_of_parseFile {name : Bytes} {place : Place} {e : SourceError}
    (h : parseFile name text = .wrong place e) :
    ∃ o : Nat, place = Source.locate [⟨name, text⟩] o ∧
      (o ≤ text.length ∧ ¬ e.Overruns text ∨ o = text.length + 1 ∧ e.Overruns text) := by
  have hstart : (Cursor.start text).In text := ⟨Nat.zero_le _, rfl⟩
  have hplaced := Program.placed_parse hstart
  have htext : Source.text [⟨name, text⟩] = text := List.append_nil text
  rw [parseFile, Source.parseWith, htext] at h
  split at h
  · next p next hrun =>
    rw [hrun] at hplaced
    dsimp only at h
    split at h
    · cases h
    · -- the grammar ended early, and its cursor is still in the text
      cases h
      have hle := (Cursor.In.skip hplaced Spaces.all).le
      refine ⟨_, rfl, .inl ⟨hle, ?_⟩⟩
      rintro ⟨s, hs, -⟩
      cases hs
  · next e o hrun =>
    rw [hrun] at hplaced
    cases h
    -- a syntax error overruns the text as the error of the source that it is
    refine ⟨o, rfl, hplaced.imp ?_ ?_⟩
    · rintro ⟨ho, hnot⟩
      refine ⟨ho, ?_⟩
      rintro ⟨s, hs, hover⟩
      cases hs
      exact hnot hover
    · rintro ⟨ho, hover⟩
      exact ⟨ho, e, rfl, hover⟩
  · cases h
  · cases h

/-- Where syntax errors are reported. An error carries the name of its file and the position of an
offset in the text, its end included, exactly if it is not an open string in a text that ends with
an odd number of backslashes. In that case it carries no name and no position. -/
theorem parseFile_wrong_place {name text : Bytes} {place : Place} {e : SourceError}
    (h : parseFile name text = .wrong place e) :
    ((∃ o ≤ text.length, place = ⟨name, Position.ofOffset text o⟩) ↔ ¬ e.Overruns text) ∧
      (e.Overruns text → place = ⟨[], ⟨0, 0⟩⟩) := by
  obtain ⟨o, hplace, ⟨ho, hnot⟩ | ⟨ho, hover⟩⟩ := exists_offset_of_parseFile h
  · rw [Source.locate_single ho] at hplace
    exact ⟨iff_of_true ⟨o, ho, hplace⟩ hnot, fun hover => absurd hover hnot⟩
  · rw [Source.locate_single_beyond (by omega)] at hplace
    refine ⟨iff_of_false ?_ (not_not_intro hover), fun _ => hplace⟩
    -- lines are counted from one
    rintro ⟨o', -, hreal⟩
    have hline := Position.one_le_line_ofOffset text o'
    rw [hplace, Place.mk.injEq] at hreal
    rw [← hreal.2] at hline
    exact absurd hline (by decide)

/-- A string that is open at the end of the text, behind an escaped backslash. -/
def openString : Bytes :=
  Bytes.ascii "s = kgc \"\\\\"

theorem wrong_place_of_openString :
    ∃ place e, parseFile (Bytes.ascii "u.tjs") openString = .wrong place e ∧
      ∃ o ≤ openString.length, place = ⟨Bytes.ascii "u.tjs", Position.ofOffset openString o⟩ := by
  have hrun : parseFile (Bytes.ascii "u.tjs") openString = .wrong ⟨Bytes.ascii "u.tjs", ⟨1, 12⟩⟩
      (.syntactic (.inside (.statement 0) (.inside .args (.inside (.item 0)
        (.inside (.alternative .string) .unterminatedString))))) := by
    decide +kernel
  refine ⟨_, _, hrun, (parseFile_wrong_place hrun).1.2 ?_⟩
  rintro ⟨s, -, -, hodd⟩
  exact absurd hodd (by decide)

/-- A string that is open behind a backslash which nothing follows. -/
def openEscape : Bytes :=
  Bytes.ascii "s = kgc \"\\"

theorem no_place_of_openEscape :
    ∃ place e, parseFile (Bytes.ascii "u.tjs") openEscape = .wrong place e ∧
      place.name ≠ Bytes.ascii "u.tjs" ∧
      ∀ o, place.position ≠ Position.ofOffset openEscape o := by
  have hrun : parseFile (Bytes.ascii "u.tjs") openEscape = .wrong ⟨[], ⟨0, 0⟩⟩
      (.syntactic (.inside (.statement 0) (.inside .args (.inside (.item 0)
        (.inside (.alternative .string) .unterminatedString))))) := by
    decide +kernel
  refine ⟨_, _, hrun, by decide, fun o heq => ?_⟩
  have hline := Position.one_le_line_ofOffset openEscape o
  rw [← heq] at hline
  exact absurd hline (by decide)

end TraceIR.Script
