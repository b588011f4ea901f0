import TraceIR.Proofs.Offsets
import TraceIR.Proofs.Onward

/-!
# Parsers stay inside the text

A parser hands the offset at which it ends to the next one, which looks at the text from there
without a further check. Here are the parsers once more, on a text and an offset. What they look at
they look up, and where there is nothing, the outcome is `outside`.

* `Offset.run` runs a grammar from an offset of a text. Between its parts it hands on offsets only.
* For each parser there is a lemma: in the text it does what the parser on cursors does. The
  induction over grammars is `Offset.run_eq`.
* `Grammar.stays_inside` is what follows for a grammar: it looks at nothing outside the text, and
  where it ends.
-/

namespace TraceIR.Script.Offset

open Outcome

/-! ### Parsers -/

/-- Go on with what was looked up. -/
def look {α β : Type} (x : Option α) (f : α → Outcome β) : Outcome β :=
  match x with
  | none => .outside
  | some a => f a

section Parsers

variable (text : Bytes)

/-- The cursor at an offset. -/
def cursor (i : Nat) : Cursor :=
  ⟨i, text.drop i⟩

/-- A result from the text between two offsets. -/
def word {α : Type} (f : Lexeme → α) (i j : Nat) : Outcome α :=
  look (between? text i j) fun b => .done (f ⟨i, b⟩) (cursor text j)

/-- A number of either kind. -/
def number (i : Nat) : Outcome Arg :=
  look (numberEnd? text i) fun
    | none => .failed (.expected .num) i
    | some (j, fraction) => word text (if fraction then .float else .int) i j

/-- An integer. -/
def integer (i : Nat) : Outcome Lexeme :=
  look (numberEnd? text i) fun
    | none => .failed (.expected .int) i
    | some (j, true) => .failed .intGotFloat j
    | some (j, false) => word text id i j

/-- A number, taken as a fraction. -/
def fraction (i : Nat) : Outcome Arg :=
  look (numberEnd? text i) fun
    | none => .failed (.expected .float) i
    | some (j, _) => word text .float i j

/-- An integer after `#`. -/
def literal (i : Nat) : Outcome Arg :=
  if i = text.length then .failed (.expected .lit) i
  else look (byte? text i) fun x =>
    if x = 0x23 then ((integer text (i + 1)).map (Arg.lit i)).during .lit
    else .failed (.expected .lit) i

/-- A name. -/
def ident (i : Nat) : Outcome Lexeme :=
  if i = text.length then .failed (.expected .ident) i
  else look (byte? text i) fun x =>
    if Token.isLetter x then
      look (nameEnd text (i + 1)) fun
        | (j, false) => word text id i j
        | (j, true) => .failed .badCharacter j
    else .failed (.expected .ident) i

/-- A string with its quotes. -/
def string (i : Nat) : Outcome Arg :=
  if i = text.length then .failed (.expected .string) i
  else look (byte? text i) fun x =>
    if x = 0x22 then
      look (stringEnd text (i + 1)) fun
        | .closed j => word text .string i j
        | .newline j => .failed .newlineInString j
        | .unterminated j => .failed .unterminatedString j
    else .failed (.expected .string) i

/-- A fixed text. -/
def fixed (b : Bytes) (i : Nat) : Outcome Bytes :=
  look (from? text i) fun rest =>
    if b.isPrefixOf rest then word text Lexeme.text i (i + b.length)
    else .failed (.textExpected b) i

/-- An argument. -/
def arg (i : Nat) : Outcome Arg :=
  look (atLineEnd text i) fun lineEnd =>
  if lineEnd then .failed (.expected .arg) i
  else look (atComment text i) fun comment =>
    if comment then .failed (.expected .arg) i
    else firstOf i
      [(.lit, literal text i), (.num, number text i), (.string, string text i),
        (.ident, (ident text i).map Arg.ident)]

/-- Repeat a parser after passing blanks. -/
def manyFrom {α : Type} (sep : Spaces) (item : Nat → Outcome α) (index : Nat) (i : Nat) :
    Outcome (List α) :=
  if i < text.length then
    match skip text sep i with
    | none => .outside
    | some first =>
      match item first with
      | .failed e o =>
        if o = first then .done [] (cursor text i) else .failed (.inside (.item index) e) o
      | .endless => .endless
      | .outside => .outside
      | .done a next =>
        if i < next.pos then (manyFrom sep item (index + 1) next.pos).map (a :: ·) else .endless
  else .done [] (cursor text i)
termination_by text.length - i

/-- The type after the opcode, if a point announces one. -/
def resultType (i : Nat) : Outcome (Option Lexeme) :=
  if i < text.length then
    look (byte? text i) fun x =>
      if x = 0x2e then ((ident text (i + 1)).map some).during .type else .done none (cursor text i)
  else .done none (cursor text i)

/-- The guard mark, if it is there, and the offset after it. -/
def guardMark (i : Nat) : Option (Bool × Nat) :=
  if i < text.length then do
    let x ← byte? text i
    return if x = 0x21 then (true, i + 1) else (false, i)
  else some (false, i)

/-- Everything from the opcode on, after blanks. -/
def statementFrom (pos : Nat) (name : Option Lexeme) (i : Nat) : Outcome Statement :=
  look (skip text .inline i) fun i =>
  ((ident text i).during .op).bind fun op c =>
  (resultType text c.pos).bind fun ty c =>
  look (guardMark text c.pos) fun (guard, i) =>
  ((manyFrom text .inline (arg text) 0 i).during .args).bind fun args c =>
  .done { pos, stop := c.pos, name, op, ty, guard, args } c

/-- A statement. -/
def statement (i : Nat) : Outcome Statement :=
  match ident text i with
  | .outside => .outside
  | .done name c =>
    look (skip text .inline c.pos) fun j =>
    match fixed text (Bytes.ascii "=") j with
    | .outside => .outside
    | .done _ c => statementFrom text i (some name) c.pos
    | _ => statementFrom text i none i
  | _ => statementFrom text i none i

/-- The statements from here on. -/
def statementsFrom (index : Nat) (start : Nat) : Outcome (List Statement) :=
  match skipComments text .all start with
  | none => .outside
  | some i =>
    if i = text.length then .done [] (cursor text i)
    else
      match (statement text i).during (.statement index) with
      | .failed e o => .failed e o
      | .endless => .endless
      | .outside => .outside
      | .done s next =>
        match skipComments text .inline next.pos with
        | none => .outside
        | some j =>
          match atLineEnd text j with
          | none => .outside
          | some false => .failed .endOfLineExpected j
          | some true =>
            if start < j ∧ start < text.length then
              (statementsFrom (index + 1) j).map (s :: ·)
            else .endless
termination_by text.length - start

/-- A script. -/
def program (i : Nat) : Outcome Program :=
  (statementsFrom text 0 i).bind fun statements next =>
    .done { pos := i, stop := next.pos, statements } next

mutual

/-- What a grammar does from an offset on. -/
def run : Grammar → Nat → Outcome Node
  | .none, i => .done .none (cursor text i)
  | .num, i => (number text i).map .word
  | .int, i => (integer text i).map fun l => .word (.int l)
  | .float, i => (fraction text i).map .word
  | .lit, i => (literal text i).map .word
  | .ident, i => (ident text i).map fun l => .word (.ident l)
  | .string, i => (string text i).map .word
  | .arg, i => (arg text i).map .word
  | .stmt, i => (statement text i).map .statement
  | .program, i => (program text i).map .program
  | .const b, i => (fixed text b i).map .const
  | .optional p, i => Grammar.orNothing (cursor text i) (run p i)
  | .context pre of post, i =>
    ((run pre i).during .before).bind fun _ c₁ =>
    (((run of c₁.pos).during .within).rebase c₁.pos i).bind fun x c₂ =>
    ((run post c₂.pos).during .after).bind fun _ c₃ => .done x c₃
  | .allOf ps, i => (runAll ps 0 i).map .list
  | .anyOf ps, i => firstOf i (runEach ps i)
  | .many p sep, i => (manyFrom text sep (run p) 0 i).map .list
  | .spaced p sep, i =>
    look (skip text sep i) fun first =>
      ((run p first).during (.alternative p.kind)).rebase first i

/-- One grammar after another, given how many came before. -/
def runAll : List Grammar → Nat → Nat → Outcome (List Node)
  | [], _, i => .done [] (cursor text i)
  | p :: ps, index, i =>
    ((run p i).during (.member p.kind index)).bind fun x c =>
    (runAll ps (index + 1) c.pos).map (x :: ·)

/-- Several grammars at one place. -/
def runEach : List Grammar → Nat → List (ParserKind × Outcome Node)
  | [], _ => []
  | p :: ps, i => (p.kind, run p i) :: runEach ps i

end

end Parsers

/-! ### Words -/

section Words

variable {α : Type} {text : Bytes} {c : Cursor}

private theorem cursor_pos (hc : c.In text) : cursor text c.pos = c := by
  rw [cursor, ← hc.rest]

private theorem cursor_add (hc : c.In text) (n : Nat) : cursor text (c.pos + n) = c.advance n := by
  rw [cursor, Cursor.advance, hc.rest, List.drop_drop]

private theorem word_eq (f : Lexeme → α) (hc : c.In text) {n : Nat} (hn : n ≤ c.rest.length) :
    word text f c.pos (c.pos + n) = .done (f (Token.take c n)) (c.advance n) := by
  rw [hc.rest] at hn
  rw [word, between?_of_le hn hc.le, look, cursor_add hc, Token.take, hc.rest]

theorem number_eq (hc : c.In text) : number text c.pos = Token.number c := by
  rw [number, Token.number, numberEnd?_eq, ← hc.rest]
  cases h : Token.numberLength? c.rest with
  | none => rfl
  | some p =>
    obtain ⟨n, fraction⟩ := p
    refine (word_eq _ hc (Token.numberLength?_le h)).trans ?_
    cases fraction <;> rfl

private theorem integer_eq (hc : c.In text) : integer text c.pos = Token.integer c := by
  rw [integer, Token.integer, numberEnd?_eq, ← hc.rest]
  cases h : Token.numberLength? c.rest with
  | none => rfl
  | some p =>
    obtain ⟨n, fraction⟩ := p
    cases fraction with
    | true => rfl
    | false => exact word_eq _ hc (Token.numberLength?_le h)

private theorem fraction_eq (hc : c.In text) : fraction text c.pos = Token.fraction c := by
  rw [fraction, Token.fraction, numberEnd?_eq, ← hc.rest]
  cases h : Token.numberLength? c.rest with
  | none => rfl
  | some p => exact word_eq _ hc (Token.numberLength?_le h)

/-- What there is to see at a cursor. -/
private theorem byte?_of_rest (hc : c.In text) {x : UInt8} {r : Bytes} (h : c.rest = x :: r) :
    c.pos ≠ text.length ∧ byte? text c.pos = some x ∧ text.drop (c.pos + 1) = r := by
  rw [hc.rest] at h
  obtain ⟨hlt, hx, hr⟩ := byte?_of_drop h
  exact ⟨Nat.ne_of_lt hlt, hx, hr⟩

/-- Where a byte does not come first, the text ends or another one comes first. -/
private theorem end_or_other (hc : c.In text) {x : UInt8} (h : ∀ r, c.rest ≠ x :: r) :
    c.pos = text.length ∨ c.pos ≠ text.length ∧ ∃ y, byte? text c.pos = some y ∧ y ≠ x := by
  cases hrest : c.rest with
  | nil => exact .inl (hc.pos_eq_of_rest hrest)
  | cons y r =>
    obtain ⟨hne, hy, -⟩ := byte?_of_rest hc hrest
    refine .inr ⟨hne, y, hy, ?_⟩
    rintro rfl
    exact h r hrest

private theorem literal_eq (hc : c.In text) : literal text c.pos = Token.literal c := by
  rw [Token.literal]
  split
  · next r hrest =>
    obtain ⟨hne, hx, -⟩ := byte?_of_rest hc hrest
    have hmark : (c.advance 1).In text := hc.advance (by simp [hrest])
    rw [literal, if_neg hne, hx, look, if_pos rfl, ← integer_eq hmark]
    rfl
  · next hnot =>
    rcases end_or_other hc hnot with hend | ⟨hne, x, hx, hother⟩
    · rw [literal, if_pos hend]
    · rw [literal, if_neg hne, hx, look, if_neg hother]

private theorem ident_eq (hc : c.In text) : ident text c.pos = Token.ident c := by
  rw [ident, Token.ident]
  cases hrest : c.rest with
  | nil => rw [if_pos (hc.pos_eq_of_rest hrest)]
  | cons x r =>
    obtain ⟨hne, hx, hr⟩ := byte?_of_rest hc hrest
    rw [if_neg hne, hx, look]
    have hname : (Token.identLength r).1 + 1 ≤ c.rest.length := by
      rw [hrest]
      exact Nat.succ_le_succ (Token.identLength_le r)
    dsimp only
    split
    · rw [nameEnd_eq hr]
      generalize Token.identLength r = p at hname
      obtain ⟨n, bad⟩ := p
      have hstop : c.pos + 1 + n = c.pos + (n + 1) := by omega
      dsimp only [look]
      rw [hstop]
      cases bad with
      | false => exact word_eq id hc hname
      | true => rfl
    · rfl

private theorem string_eq (hc : c.In text) : string text c.pos = Token.string c := by
  rw [Token.string]
  split
  · next r hrest =>
    obtain ⟨hne, hx, hr⟩ := byte?_of_rest hc hrest
    have hclosed : ∀ n, n + (c.pos + 1) = c.pos + (n + 1) := by omega
    have hopen : ∀ n, n + (c.pos + 1) = c.pos + n + 1 := by omega
    rw [string, if_neg hne, hx, look, if_pos rfl, stringEnd_eq hr]
    dsimp only [look]
    cases hend : Token.stringEnd r with
    | closed n =>
      dsimp only [Token.StringEnd.shift]
      rw [hclosed]
      refine word_eq _ hc ?_
      rw [hrest]
      exact Nat.succ_le_succ (Token.stringEnd_le hend)
    | newline n =>
      dsimp only [Token.StringEnd.shift]
      rw [hopen]
    | unterminated n =>
      dsimp only [Token.StringEnd.shift]
      rw [hopen]
  · next hnot =>
    rcases end_or_other hc hnot with hend | ⟨hne, x, hx, hother⟩
    · rw [string, if_pos hend]
    · rw [string, if_neg hne, hx, look, if_neg hother]

private theorem fixed_eq (b : Bytes) (hc : c.In text) : fixed text b c.pos = Token.fixed b c := by
  rw [fixed, Token.fixed, from?_of_le hc.le, look, ← hc.rest]
  by_cases h : b.isPrefixOf c.rest = true
  · have hprefix := List.isPrefixOf_iff_prefix.mp h
    rw [if_pos h, if_pos h, word_eq _ hc hprefix.length_le, Token.take,
      ← List.prefix_iff_eq_take.mp hprefix]
  · rw [if_neg h, if_neg h]

end Words

/-! ### Statements and scripts -/

section Statements

variable {α β : Type} {text : Bytes} {c : Cursor}

private theorem skip_eq (s : Spaces) (hc : c.In text) :
    skip text s c.pos = some (s.skip c).pos := by
  rw [skip, passWhile_eq _ hc.rest.symm]
  rfl

private theorem skipComments_pos (s : Spaces) (hc : c.In text) :
    skipComments text s c.pos = some (s.skipComments c).pos := by
  rw [skipComments_eq s hc.le, ← hc.rest]
  rfl

private theorem atLineEnd_eq (hc : c.In text) : atLineEnd text c.pos = some c.atLineEnd := by
  rw [atLineEnd, Cursor.atLineEnd]
  cases hrest : c.rest with
  | nil => rw [if_pos (hc.pos_eq_of_rest hrest)]
  | cons x r =>
    obtain ⟨hne, hx, -⟩ := byte?_of_rest hc hrest
    rw [if_neg hne, hx]
    rfl

private theorem atComment_eq (hc : c.In text) : atComment text c.pos = some c.atComment := by
  rw [atComment_of_le hc.le, ← hc.rest, Cursor.atComment, Option.some.injEq, Bool.eq_iff_iff,
    List.isPrefixOf_iff_prefix, List.prefix_iff_eq_take, beq_iff_eq, eq_comm]
  rfl

theorem arg_eq (hc : c.In text) : arg text c.pos = Arg.parse c := by
  rw [arg, Arg.parse, atLineEnd_eq hc, atComment_eq hc, literal_eq hc, number_eq hc, string_eq hc,
    ident_eq hc]
  dsimp only [look]
  cases c.atLineEnd <;> cases c.atComment <;> rfl

/-- One round of a repetition, where there is text left. -/
private theorem manyFrom_of_rest (sep : Spaces) (item : Nat → Outcome α) (index : Nat)
    (hc : c.In text) (hne : ¬ c.rest.isEmpty = true) :
    manyFrom text sep item index c.pos =
      match item (sep.skip c).pos with
      | .failed e o =>
        if o = (sep.skip c).pos then .done [] c else .failed (.inside (.item index) e) o
      | .endless => .endless
      | .outside => .outside
      | .done a next =>
        if c.pos < next.pos then (manyFrom text sep item (index + 1) next.pos).map (a :: ·)
        else .endless := by
  rw [manyFrom, if_pos (hc.pos_lt_of_rest hne), skip_eq sep hc, cursor_pos hc]

private theorem manyFrom_eq (sep : Spaces) {item : Cursor → Outcome α} {item' : Nat → Outcome α}
    (hsame : ∀ c, c.In text → item' c.pos = item c)
    (hitem : ∀ c, c.In text → (item c).Onward text c.pos) (index : Nat) (hc : c.In text) :
    manyFrom text sep item' index c.pos = Outcome.manyFrom sep item index c := by
  -- an item begins after the blanks, inside the text
  have hskip : ∀ c, c.In text → item' (sep.skip c).pos = item (sep.skip c) := fun c hc =>
    hsame _ (hc.skip sep)
  fun_induction Outcome.manyFrom sep item index c with
  | case1 index c hempty =>
    have hend : ¬ c.pos < text.length := by
      rw [hc.pos_eq_of_rest (List.isEmpty_iff.mp hempty)]
      exact Nat.lt_irrefl _
    rw [manyFrom, if_neg hend, cursor_pos hc]
  | case2 index c hempty first e hrun =>
    rw [manyFrom_of_rest sep item' index hc hempty, hskip c hc, hrun]
    exact if_pos rfl
  | case3 index c hempty first e o hrun hne =>
    rw [manyFrom_of_rest sep item' index hc hempty, hskip c hc, hrun]
    exact if_neg hne
  | case4 index c hempty first hrun =>
    rw [manyFrom_of_rest sep item' index hc hempty, hskip c hc, hrun]
  | case5 index c hempty first hrun =>
    rw [manyFrom_of_rest sep item' index hc hempty, hskip c hc, hrun]
  | case6 index c hempty first a next hrun hlt ih =>
    -- one side compares offsets, the other what is left
    have hnext := (hitem first (hc.skip sep)).of_eq hrun
    have hend := hnext.1.pos_add_length
    have hbegin := hc.pos_add_length
    rw [manyFrom_of_rest sep item' index hc hempty, hskip c hc, hrun]
    dsimp only
    rw [if_pos (by omega), ih hnext.1]
  | case7 index c hempty first a next hrun hge =>
    have hnext := (hitem first (hc.skip sep)).of_eq hrun
    have hend := hnext.1.pos_add_length
    have hbegin := hc.pos_add_length
    rw [manyFrom_of_rest sep item' index hc hempty, hskip c hc, hrun]
    dsimp only
    rw [if_neg (by omega)]

private theorem resultType_eq (hc : c.In text) :
    resultType text c.pos = Statement.resultType c := by
  rw [Statement.resultType]
  split
  · next r hrest =>
    obtain ⟨hne, hx, -⟩ := byte?_of_rest hc hrest
    have hpoint : (c.advance 1).In text := hc.advance (by simp [hrest])
    rw [resultType, if_pos (Nat.lt_of_le_of_ne hc.le hne), hx, look, if_pos rfl, ← ident_eq hpoint]
    rfl
  · next hnot =>
    rw [resultType, cursor_pos hc]
    rcases end_or_other hc hnot with hend | ⟨hne, x, hx, hother⟩
    · rw [hend, if_neg (Nat.lt_irrefl _)]
    · rw [if_pos (Nat.lt_of_le_of_ne hc.le hne), hx, look, if_neg hother]

private theorem guardMark_eq (hc : c.In text) :
    guardMark text c.pos = some ((Statement.guardMark c).1, (Statement.guardMark c).2.pos) := by
  rw [Statement.guardMark]
  split
  · next r hrest =>
    obtain ⟨hne, hx, -⟩ := byte?_of_rest hc hrest
    rw [guardMark, if_pos (Nat.lt_of_le_of_ne hc.le hne), hx]
    rfl
  · next hnot =>
    rw [guardMark]
    rcases end_or_other hc hnot with hend | ⟨hne, x, hx, hother⟩
    · rw [hend, if_neg (Nat.lt_irrefl _)]
    · rw [if_pos (Nat.lt_of_le_of_ne hc.le hne), hx]
      exact congrArg some (if_neg hother)

/-- What follows a parser needs to agree in the text only. -/
private theorem bind_congr {x : Outcome α} {f g : α → Cursor → Outcome β} {start : Nat}
    (hx : x.Onward text start) (h : ∀ a c, c.In text → start ≤ c.pos → f a c = g a c) :
    x.bind f = x.bind g := by
  cases x with
  | done a next => exact h a next hx.1 hx.2
  | failed e o => rfl
  | endless => rfl
  | outside => rfl

private theorem statementFrom_eq (pos : Nat) (name : Option Lexeme) (hc : c.In text) :
    statementFrom text pos name c.pos = Statement.parseFrom pos name (Spaces.inline.skip c) := by
  have hfirst := hc.skip Spaces.inline
  rw [statementFrom, Statement.parseFrom, skip_eq _ hc]
  dsimp only [look]
  rw [ident_eq hfirst]
  refine bind_congr ((Token.onward_ident hfirst).during _) fun op c₁ h₁ _ => ?_
  rw [resultType_eq h₁]
  refine bind_congr (Statement.onward_resultType h₁) fun ty c₂ h₂ _ => ?_
  rw [guardMark_eq h₂]
  dsimp only [look]
  rw [manyFrom_eq _ (fun _ => arg_eq) (fun _ => Arg.onward_parse) _ (Statement.in_guardMark h₂)]
  rfl

private theorem statement_eq (hc : c.In text) : statement text c.pos = Statement.parse c := by
  rw [statement, Statement.parse, Statement.resultName?, ident_eq hc]
  cases hname : Token.ident c with
  | done name c₁ =>
    have hident := (Token.onward_ident hc).of_eq hname
    have hequals := Token.onward_fixed (Bytes.ascii "=") (hident.1.skip Spaces.inline)
    dsimp only
    rw [skip_eq _ hident.1]
    dsimp only [look]
    rw [fixed_eq _ (hident.1.skip _)]
    cases hmark : Token.fixed (Bytes.ascii "=") (Spaces.inline.skip c₁) with
    | done b c₂ => exact statementFrom_eq _ _ (hequals.of_eq hmark).1
    -- without an equals sign the name was the opcode, and it is read once more
    | failed e o => exact statementFrom_eq _ _ hc
    | endless => exact statementFrom_eq _ _ hc
    | outside => exact (hequals.of_eq hmark).elim
  | failed e o => exact statementFrom_eq _ _ hc
  | endless => exact statementFrom_eq _ _ hc
  | outside => exact ((Token.onward_ident hc).of_eq hname).elim

/-- One statement of a script and what follows it, where there is one. -/
private theorem statementsFrom_of_rest (index : Nat) (hc : c.In text)
    (hne : ¬ (Spaces.all.skipComments c).rest.isEmpty = true) :
    statementsFrom text index c.pos =
      match (Statement.parse (Spaces.all.skipComments c)).during (.statement index) with
      | .failed e o => .failed e o
      | .endless => .endless
      | .outside => .outside
      | .done s next =>
        match skipComments text .inline next.pos with
        | none => .outside
        | some j =>
          match atLineEnd text j with
          | none => .outside
          | some false => .failed .endOfLineExpected j
          | some true =>
            if c.pos < j ∧ c.pos < text.length then
              (statementsFrom text (index + 1) j).map (s :: ·)
            else .endless := by
  have hin := hc.skipComments Spaces.all
  rw [statementsFrom, skipComments_pos _ hc]
  dsimp only
  rw [if_neg (Nat.ne_of_lt (hin.pos_lt_of_rest hne)), statement_eq hin]

private theorem statementsFrom_eq (index : Nat) (hc : c.In text) :
    statementsFrom text index c.pos = Program.statementsFrom index c := by
  -- where a statement ends that begins after blanks and comments
  have hafter : ∀ {c index s after}, c.In text →
      (Statement.parse (Spaces.all.skipComments c)).during (.statement index) = .done s after →
      after.In text := fun {c index s after} hc hrun =>
    (((Statement.onward_parse (hc.skipComments Spaces.all)).during (.statement index)).of_eq hrun).1
  fun_induction Program.statementsFrom index c with
  | case1 index c c₁ hempty =>
    have hin := hc.skipComments Spaces.all
    rw [statementsFrom, skipComments_pos _ hc]
    dsimp only
    rw [if_pos (hin.pos_eq_of_rest (List.isEmpty_iff.mp hempty)), cursor_pos hin]
  | case2 index c c₁ hempty e o hrun => rw [statementsFrom_of_rest index hc hempty, hrun]
  | case3 index c c₁ hempty hrun => rw [statementsFrom_of_rest index hc hempty, hrun]
  | case4 index c c₁ hempty hrun => rw [statementsFrom_of_rest index hc hempty, hrun]
  | case5 index c c₁ hempty s after hrun next hline =>
    have hnext : next.In text := (hafter hc hrun).skipComments Spaces.inline
    have hopen : next.atLineEnd = false := by simpa using hline
    rw [statementsFrom_of_rest index hc hempty, hrun]
    dsimp only
    rw [skipComments_pos _ (hafter hc hrun)]
    dsimp only
    rw [atLineEnd_eq hnext, hopen]
  | case6 index c c₁ hempty s after hrun next hline hlt ih =>
    have hnext : next.In text := (hafter hc hrun).skipComments Spaces.inline
    have hclosed : next.atLineEnd = true := by simpa using hline
    -- the offsets that are compared here, in terms of what is left
    have hforward : c.pos < next.pos ∧ c.pos < text.length := by
      have hbegin : c₁.pos + c₁.rest.length = text.length := (hc.skipComments _).pos_add_length
      have hend := hnext.pos_add_length
      have hle : c.pos ≤ c₁.pos := Nat.le_add_right ..
      omega
    rw [statementsFrom_of_rest index hc hempty, hrun]
    dsimp only
    rw [skipComments_pos _ (hafter hc hrun)]
    dsimp only
    rw [atLineEnd_eq hnext, hclosed]
    dsimp only
    rw [if_pos hforward, ih hnext]
  | case7 index c c₁ hempty s after hrun next hline hge =>
    -- a statement takes up something, so this does not happen
    have hfirst := (Statement.within_parse c₁).during (.statement index)
    rw [hrun] at hfirst
    have hskip : next.rest.length ≤ after.rest.length := Cursor.length_advance_le ..
    exact absurd (Nat.lt_of_le_of_lt hskip hfirst) hge

private theorem program_eq (hc : c.In text) : program text c.pos = Program.parse c := by
  rw [program, Program.parse, statementsFrom_eq 0 hc]

end Statements

/-! ### Grammars -/

section Grammars

variable {text : Bytes}

mutual

/-- **Every grammar** does the same on offsets as on cursors in the text. -/
theorem run_eq (p : Grammar) {c : Cursor} (hc : c.In text) :
    run text p c.pos = p.run .inside c := by
  cases p with
  | none => exact congrArg _ (cursor_pos hc)
  | num => exact congrArg _ (number_eq hc)
  | int => exact congrArg _ (integer_eq hc)
  | float => exact congrArg _ (fraction_eq hc)
  | lit => exact congrArg _ (literal_eq hc)
  | ident => exact congrArg _ (ident_eq hc)
  | string => exact congrArg _ (string_eq hc)
  | arg => exact congrArg _ (arg_eq hc)
  | stmt => exact congrArg _ (statement_eq hc)
  | program => exact congrArg _ (program_eq hc)
  | const b => exact congrArg _ (fixed_eq b hc)
  | optional p =>
    rw [run, run_eq p hc, cursor_pos hc]
    rfl
  | context pre of post =>
    -- each part begins where the one before it ended, which is in the text
    rw [run, run_eq pre hc]
    refine bind_congr ((Grammar.onward_run pre hc).during _) fun _ c₁ h₁ hle => ?_
    rw [run_eq of h₁]
    refine bind_congr (((Grammar.onward_run of h₁).during _).rebase hle) fun x c₂ h₂ _ => ?_
    rw [run_eq post h₂]
  | allOf ps => exact congrArg _ (runAll_eq ps 0 hc)
  | anyOf ps => exact congrArg _ (runEach_eq ps hc)
  | many p sep =>
    exact congrArg _ (manyFrom_eq sep (fun _ => run_eq p) (fun _ => Grammar.onward_run p) 0 hc)
  | spaced p sep =>
    rw [run, skip_eq sep hc, look, run_eq p (hc.skip sep)]
    rfl

private theorem runAll_eq (ps : List Grammar) (index : Nat) {c : Cursor} (hc : c.In text) :
    runAll text ps index c.pos = Grammar.runAll .inside ps index c := by
  cases ps with
  | nil => exact congrArg _ (cursor_pos hc)
  | cons p ps =>
    rw [runAll, Grammar.runAll, run_eq p hc]
    refine bind_congr ((Grammar.onward_run p hc).during _) fun _ c₁ h₁ _ => ?_
    rw [runAll_eq ps (index + 1) h₁]

private theorem runEach_eq (ps : List Grammar) {c : Cursor} (hc : c.In text) :
    runEach text ps c.pos = Grammar.runEach .inside ps c := by
  cases ps with
  | nil => rfl
  | cons p ps => rw [runEach, Grammar.runEach, run_eq p hc, runEach_eq ps hc]

end

end Grammars

end TraceIR.Script.Offset

namespace TraceIR.Script.Grammar

/-- **Parsers stay inside the text.** From every offset of a text on, its end included, a grammar
looks at nothing outside the text: run on offsets, where each look at the text is looked up, it has
the same outcome. A result ends at or after the start and in the text, and an error lies at or after
the start. -/
theorem stays_inside (p : Grammar) (text : Bytes) {start : Nat} (h : start ≤ text.length) :
    Offset.run text p start = p.parseAt text start ∧ p.parseAt text start ≠ .outside ∧
      (∀ x next, p.parseAt text start = .done x next →
        start ≤ next.pos ∧ next.pos ≤ text.length ∧ next.rest = text.drop next.pos) ∧
      ∀ e o, p.parseAt text start = .failed e o → start ≤ o := by
  have hc : (⟨start, text.drop start⟩ : Cursor).In text := ⟨h, rfl⟩
  have honward := p.onward_run hc
  rw [p.parseAt_of_le h]
  -- the rest is what `Onward` says of each kind of outcome
  refine ⟨Offset.run_eq p hc, honward.of_eq, fun x next hdone => ?_, fun e o => honward.of_eq⟩
  obtain ⟨hin, hle⟩ := honward.of_eq hdone
  exact ⟨hle, hin.le, hin.rest⟩

/-- An open string whose error lies beyond the text. -/
theorem stays_inside_of_error_beyond :
    1 ≤ (Bytes.ascii "x \"\\").length ∧
      (spaced (anyOf [lit, string]) Spaces.inline).parseAt (Bytes.ascii "x \"\\") (1 : Nat) =
        .failed (.inside (.alternative .anyOf) (.inside (.alternative .string) .unterminatedString))
          5 ∧
      Offset.run (Bytes.ascii "x \"\\") (spaced (anyOf [lit, string]) Spaces.inline) 1 =
        .failed (.inside (.alternative .anyOf) (.inside (.alternative .string) .unterminatedString))
          5 ∧
      (Bytes.ascii "x \"\\").length < 5 := by
  have hstart : 1 ≤ (Bytes.ascii "x \"\\").length := by decide
  obtain ⟨hsame, -⟩ := stays_inside (spaced (anyOf [lit, string]) Spaces.inline) _ hstart
  exact ⟨hstart, rfl, hsame, by decide⟩

end TraceIR.Script.Grammar
