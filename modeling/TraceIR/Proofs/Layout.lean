import TraceIR.Proofs.Spelling

/-!
# Scripts read back

A statement may be laid out in many ways: blanks between its words, comments behind it, empty lines
before it. All of them are read back as the same statement.

* `Phrase` — what a statement says, without its place in the text.
* `Clause`, `Filler` and `Row` — a statement, what may stand behind it, and a whole line. They are
  built from words, so every value can be written down.
* `Clause.exists_parse` — a statement is read up to what closes it.
* `parse_document` — the lines of a script are read back, each with what it says.
-/

namespace TraceIR.Script

/-! ### What statements say -/

inductive ArgKind where
  | int
  | float
  | lit
  | string
  | ident
  deriving DecidableEq, Repr

/-- The kind of an argument and what is written there. -/
def Arg.phrase : Arg → ArgKind × Bytes
  | .int l => (.int, l.text)
  | .float l => (.float, l.text)
  | .lit _ l => (.lit, 0x23 :: l.text)
  | .string l => (.string, l.text)
  | .ident l => (.ident, l.text)

/-- A statement without its place. -/
structure Phrase where
  name : Option Bytes
  op : Bytes
  ty : Option Bytes
  guard : Bool
  args : List (ArgKind × Bytes)
  deriving DecidableEq, Repr

def Statement.phrase (s : Statement) : Phrase where
  name := s.name.map Lexeme.text
  op := s.op.text
  ty := s.ty.map Lexeme.text
  guard := s.guard
  args := s.args.map Arg.phrase

/-! ### How they are laid out -/

/-- Spaces and tabs, or nothing. -/
structure Gap where
  text : Bytes
  isBlank : Blanks text

/-- An argument as it is written. -/
inductive Word where
  | number (n : Numeral)
  | lit (n : Numeral) (isInteger : n.isFraction = false)
  | string (q : Quoted)
  | ident (i : Identifier)

namespace Word

def text : Word → Bytes
  | .number n => n.text
  | .lit n _ => 0x23 :: n.text
  | .string q => q.text
  | .ident i => i.text

def kind : Word → ArgKind
  | .number n => if n.isFraction then .float else .int
  | .lit .. => .lit
  | .string _ => .string
  | .ident _ => .ident

end Word

/-- A statement as it is written. -/
structure Clause where
  /-- The name of the result, with the blanks before and after the equals sign. -/
  name : Option (Identifier × Gap × Gap)
  op : Identifier
  ty : Option Identifier
  guard : Bool
  /-- The arguments, each with the blanks before it. -/
  args : List ({ g : Gap // g.text ≠ [] } × Word)

namespace Clause

def nameText (k : Clause) : Bytes :=
  k.name.elim [] fun p => p.1.text ++ (p.2.1.text ++ 0x3d :: p.2.2.text)

def typeText (k : Clause) : Bytes :=
  k.ty.elim [] fun i => 0x2e :: i.text

def guardText (k : Clause) : Bytes :=
  if k.guard then [0x21] else []

def argsText (args : List ({ g : Gap // g.text ≠ [] } × Word)) : Bytes :=
  args.flatMap fun a => a.1.1.text ++ a.2.text

def text (k : Clause) : Bytes :=
  k.nameText ++ (k.op.text ++ (k.typeText ++ (k.guardText ++ argsText k.args)))

def phrase (k : Clause) : Phrase where
  name := k.name.map fun p => p.1.text
  op := k.op.text
  ty := k.ty.map Identifier.text
  guard := k.guard
  args := k.args.map fun a => (a.2.kind, a.2.text)

end Clause

/-- What may stand behind a statement or on a line of its own: blanks, a comment and a carriage
return. -/
structure Filler where
  gap : Gap
  comment : Option { body : Bytes // 0x0a ∉ body }
  carriageReturn : Bool

def Filler.text (f : Filler) : Bytes :=
  f.gap.text ++ ((f.comment.elim [] fun c => 0x2f :: 0x2f :: c.1) ++
    if f.carriageReturn then [0x0d] else [])

/-- A line. -/
structure Row where
  indent : Gap
  clause : Option Clause
  filler : Filler

def Row.text (row : Row) : Bytes :=
  row.indent.text ++ (row.clause.elim [] Clause.text ++ row.filler.text)

/-- The text of some lines, with line feeds between them. -/
def documentText (rows : List Row) : Bytes :=
  [0x0a].intercalate (rows.map Row.text)

/-- What the lines say. -/
def documentPhrases (rows : List Row) : List Phrase :=
  rows.filterMap fun row => row.clause.map Clause.phrase

/-! ### Blanks -/

private theorem Spaces.skip_blanks {g r : Bytes} (hg : Blanks g) (hr : ∀ c ∈ r.head?, ¬ IsBlank c)
    (pos : Nat) : inline.skip ⟨pos, g ++ r⟩ = ⟨pos + g.length, r⟩ := by
  have hstop : ∀ c ∈ r.head?, inline.has c = false := fun c hc =>
    Bool.eq_false_iff.mpr (mt (has_inline_iff c).mp (hr c hc))
  have hrest : r.takeWhile inline.has = [] := takeWhile_append_of_head hstop []
  have htake : (g ++ r).takeWhile inline.has = g := by
    rw [List.takeWhile_append_of_pos fun c hc => (has_inline_iff c).mpr (hg c hc), hrest,
      List.append_nil]
  rw [skip, Cursor.advance]
  simp only [htake, List.drop_left]

/-! ### Words -/

namespace Token

variable {c : UInt8} {r : Bytes}

/-- No number begins here. -/
private theorem numberLength?_of_foreign (hdigit : isDigit c = false) (hsign : isSign c = false)
    (hpoint : c ≠ 0x2e) : numberLength? (c :: r) = none := by
  have hmark : hexMark (c :: r) = false := by
    refine Bool.eq_false_iff.mpr fun hmark => ?_
    obtain ⟨x, r', hcons, -⟩ := hexMark_eq_true_iff.mp hmark
    rw [(List.cons.inj hcons).1] at hdigit
    cases hdigit
  have hstop : decimalLength false false false (c :: r) = (0, false) :=
    decimalLength_stop hdigit (fun hc => absurd hc hpoint) fun _ => .inr rfl
  simp [numberLength?, signLength, hsign, hmark, hstop]

theorem literal_of_ne (hc : c ≠ 0x23) (pos : Nat) :
    literal ⟨pos, c :: r⟩ = .failed (.expected .lit) pos := by
  rw [literal]
  split
  · next heq => exact absurd (List.cons.inj heq).1 hc
  · rfl

theorem string_of_ne (hc : c ≠ 0x22) (pos : Nat) :
    string ⟨pos, c :: r⟩ = .failed (.expected .string) pos := by
  rw [string]
  split
  · next heq => exact absurd (List.cons.inj heq).1 hc
  · rfl

theorem number_of_foreign (hdigit : isDigit c = false) (hsign : isSign c = false)
    (hpoint : c ≠ 0x2e) (pos : Nat) : number ⟨pos, c :: r⟩ = .failed (.expected .num) pos := by
  simp only [number, numberLength?_of_foreign hdigit hsign hpoint]

private theorem foreign_of_isLetter : ∀ c : UInt8, isLetter c = true →
    isDigit c = false ∧ isSign c = false ∧ c ≠ 0x2e ∧ c ≠ 0x23 ∧ c ≠ 0x22 ∧
      ¬ (IsBlank c ∨ IsBreak c ∨ c = 0x2f ∨ c = 0x3d) := by
  apply Spaces.forall_byte
  decide +kernel

private theorem foreign_of_number : ∀ c : UInt8, (isDigit c = true ∨ isSign c = true ∨ c = 0x2e) →
    c ≠ 0x23 ∧ ¬ (IsBlank c ∨ IsBreak c ∨ c = 0x2f ∨ c = 0x3d) := by
  apply Spaces.forall_byte
  decide +kernel

end Token

open Token

/-- A number begins with a digit, a sign or a point. -/
private theorem Numeral.exists_front (n : Numeral) : ∃ c r, n.text = c :: r ∧
    (isDigit c = true ∨ isSign c = true ∨ c = 0x2e) := by
  have hlength := n.numberLength?_text
  cases hn : n.text with
  | nil =>
    rw [hn] at hlength
    cases hlength
  | cons c r =>
    refine ⟨c, r, rfl, Decidable.byContradiction fun hc => ?_⟩
    simp only [not_or, Bool.not_eq_true] at hc
    rw [hn, numberLength?_of_foreign hc.1 hc.2.1 hc.2.2] at hlength
    cases hlength

namespace Word

/-- A word begins with a byte that can stand nowhere between words. -/
private theorem exists_front (w : Word) : ∃ c r, w.text = c :: r ∧
    ¬ (IsBlank c ∨ IsBreak c ∨ c = 0x2f ∨ c = 0x3d) := by
  cases w with
  | number n =>
    obtain ⟨c, r, hn, hc⟩ := n.exists_front
    exact ⟨c, r, hn, (foreign_of_number c hc).2⟩
  | lit n hn => exact ⟨0x23, n.text, rfl, by decide⟩
  | string q => exact ⟨0x22, q.body, rfl, by decide⟩
  | ident i =>
    exact ⟨i.first, _, rfl, (foreign_of_isLetter i.first i.isLetter).2.2.2.2.2⟩

/-- Neither a line end nor a comment stands at the front of a word. -/
private theorem place_text (w : Word) (pos : Nat) (r : Bytes) :
    (Cursor.atLineEnd ⟨pos, w.text ++ r⟩ || Cursor.atComment ⟨pos, w.text ++ r⟩) = false := by
  obtain ⟨c, t, ht, hc⟩ := w.exists_front
  simp only [not_or] at hc
  obtain ⟨-, hbreak, hslash, -⟩ := hc
  rw [IsBreak, not_or] at hbreak
  rw [ht]
  simp [Cursor.atLineEnd, Cursor.atComment, hbreak, hslash]

/-- **An argument** is read up to what ends it. -/
theorem exists_parse (w : Word) (pos : Nat) {r : Bytes} (h : EndsWord r) :
    ∃ a, Arg.parse ⟨pos, w.text ++ r⟩ = .done a ⟨pos + w.text.length, r⟩ ∧
      a.phrase = (w.kind, w.text) := by
  have hplace := w.place_text pos r
  rw [Arg.parse, hplace]
  simp only [Bool.false_eq_true, if_false]
  -- the parsers before the right one do not get going
  cases w with
  | number n =>
    obtain ⟨c, t, hn, hc⟩ := n.exists_front
    have hlit : literal ⟨pos, n.text ++ r⟩ = .failed (.expected .lit) pos := by
      rw [hn, List.cons_append]
      exact literal_of_ne (foreign_of_number c hc).1 pos
    simp only [text, hlit, number_text n pos h, Outcome.firstOf, Outcome.firstSuccess?,
      Option.getD_some]
    refine ⟨_, rfl, ?_⟩
    rw [kind]
    split <;> rfl
  | lit n hn =>
    have hlit : literal ⟨pos, 0x23 :: (n.text ++ r)⟩ =
        .done (.lit pos ⟨pos + 1, n.text⟩) ⟨pos + 1 + n.text.length, r⟩ := by
      rw [literal]
      simp only [Cursor.advance, List.drop_succ_cons, List.drop_zero,
        integer_text n hn (pos + 1) h, Outcome.map, Outcome.during]
    simp only [text, List.cons_append, hlit, Outcome.firstOf, Outcome.firstSuccess?,
      Option.getD_some]
    exact ⟨.lit pos ⟨pos + 1, n.text⟩, by
      rw [List.length_cons, ← Nat.add_assoc, Nat.add_right_comm], rfl⟩
  | string q =>
    have hlit : literal ⟨pos, q.text ++ r⟩ = .failed (.expected .lit) pos :=
      literal_of_ne (by decide) pos
    have hnumber : Token.number ⟨pos, q.text ++ r⟩ = .failed (.expected .num) pos :=
      number_of_foreign rfl rfl (by decide) pos
    simp only [text, hlit, hnumber, string_text, Outcome.firstOf, Outcome.firstSuccess?,
      Option.getD_some]
    exact ⟨_, rfl, rfl⟩
  | ident i =>
    obtain ⟨hdigit, hsign, hpoint, hmark, hquote, -⟩ := foreign_of_isLetter i.first i.isLetter
    have hlit : literal ⟨pos, i.text ++ r⟩ = .failed (.expected .lit) pos :=
      literal_of_ne hmark pos
    have hnumber : Token.number ⟨pos, i.text ++ r⟩ = .failed (.expected .num) pos :=
      number_of_foreign hdigit hsign hpoint pos
    have hstring : Token.string ⟨pos, i.text ++ r⟩ = .failed (.expected .string) pos :=
      string_of_ne hquote pos
    simp only [text, hlit, hnumber, hstring, ident_text i pos h.endsName, Outcome.map,
      Outcome.firstOf, Outcome.firstSuccess?, Option.getD_some]
    exact ⟨_, rfl, rfl⟩

end Word

/-! ### What closes a statement -/

/-- Blanks, and then a line end or a comment. -/
def Closes (b : Bytes) : Prop :=
  ∃ g r, b = g ++ r ∧ Blanks g ∧
    (r = [] ∨ (∃ c t, r = c :: t ∧ IsBreak c) ∨ ∃ t, r = 0x2f :: 0x2f :: t)

namespace Closes

variable {b : Bytes}

/-- What stands after the blanks. -/
private theorem exists_split (h : Closes b) : ∃ g r, b = g ++ r ∧ Blanks g ∧
    (∀ c ∈ r.head?, IsBreak c ∨ c = 0x2f) ∧
    ∀ pos, (Cursor.atLineEnd ⟨pos, r⟩ || Cursor.atComment ⟨pos, r⟩) = true := by
  obtain ⟨g, r, rfl, hg, hr⟩ := h
  refine ⟨g, r, rfl, hg, ?_, fun pos => ?_⟩
  · rcases hr with rfl | ⟨c, t, rfl, hc⟩ | ⟨t, rfl⟩
    · simp
    · simp [hc]
    · simp
  · rcases hr with rfl | ⟨c, t, rfl, rfl | rfl⟩ | ⟨t, rfl⟩
    · rfl
    · rfl
    · rfl
    · simp [Cursor.atComment]

private theorem endsWord (h : Closes b) : EndsWord b := by
  obtain ⟨g, r, rfl, hg, hr, -⟩ := h.exists_split
  intro c hc
  rw [List.head?_append, Option.mem_def, Option.or_eq_some_iff] at hc
  rcases hc with hc | ⟨-, hc⟩
  · exact .inl (hg c (List.mem_of_mem_head? hc))
  · exact .inr (hr c hc)

/-- No more arguments follow. -/
theorem manyFrom_args (h : Closes b) (index pos : Nat) :
    Outcome.manyFrom Spaces.inline Arg.parse index ⟨pos, b⟩ = .done [] ⟨pos, b⟩ := by
  obtain ⟨g, r, rfl, hg, hr, hplace⟩ := h.exists_split
  have hskip := Spaces.skip_blanks hg (r := r) (fun c hc => by
    rcases hr c hc with (rfl | rfl) | rfl <;> decide) pos
  rw [Outcome.manyFrom]
  split
  · rfl
  · simp only [hskip, Arg.parse, hplace, if_true]

end Closes

/-! ### Statements -/

namespace Clause

/-- What stands between two arguments, or before the first one. -/
private theorem endsWord_args {args : List ({ g : Gap // g.text ≠ [] } × Word)} {r : Bytes}
    (h : Closes r) : EndsWord (argsText args ++ r) := by
  cases args with
  | nil => exact h.endsWord
  | cons a args =>
    obtain ⟨⟨g, hne⟩, w⟩ := a
    obtain ⟨c, t, hg⟩ := List.exists_cons_of_ne_nil hne
    intro x hx
    have hblank := g.isBlank c (by rw [hg]; exact List.mem_cons_self)
    simp only [argsText, List.flatMap_cons, hg, List.cons_append, List.head?_cons, Option.mem_def,
      Option.some.injEq] at hx
    exact hx ▸ .inl hblank

/-- **The arguments** of a statement are read one after the other. -/
theorem exists_args (args : List ({ g : Gap // g.text ≠ [] } × Word)) {r : Bytes} (h : Closes r)
    (index pos : Nat) :
    ∃ xs, Outcome.manyFrom Spaces.inline Arg.parse index ⟨pos, argsText args ++ r⟩ =
        .done xs ⟨pos + (argsText args).length, r⟩ ∧
      xs.map Arg.phrase = args.map fun a => (a.2.kind, a.2.text) := by
  induction args generalizing index pos with
  | nil => exact ⟨[], h.manyFrom_args index pos, rfl⟩
  | cons a args ih =>
    obtain ⟨⟨g, hne⟩, w⟩ := a
    have hsplit : argsText ((⟨g, hne⟩, w) :: args) ++ r =
        g.text ++ (w.text ++ (argsText args ++ r)) := by
      simp [argsText]
    -- the blanks are passed up to the word, and the word ends where the next blanks begin
    obtain ⟨c, t, hw, hc⟩ := w.exists_front
    have hskip := Spaces.skip_blanks g.isBlank (r := w.text ++ (argsText args ++ r)) (fun x hx => by
      rw [hw, List.cons_append] at hx
      cases hx
      exact fun hblank => hc (.inl hblank)) pos
    have hends : EndsWord (argsText args ++ r) := endsWord_args h
    obtain ⟨a, ha, hphrase⟩ := w.exists_parse (pos + g.text.length) hends
    obtain ⟨xs, hxs, hphrases⟩ := ih (index + 1) (pos + g.text.length + w.text.length)
    refine ⟨a :: xs, ?_, by simp [hphrase, hphrases]⟩
    rw [hsplit, Outcome.manyFrom]
    have hempty : (g.text ++ (w.text ++ (argsText args ++ r))).isEmpty = false := by simp [hw]
    have hlt : (argsText args ++ r).length < (g.text ++ (w.text ++ (argsText args ++ r))).length := by
      rw [hw]
      simp only [List.length_append, List.length_cons]
      omega
    simp only [hskip, ha, hxs, hempty, hlt, Bool.false_eq_true, if_false, if_true, Outcome.map]
    simp only [argsText, List.flatMap_cons, List.length_append, Nat.add_assoc]

/-- What stands behind the type. -/
def afterType (k : Clause) (r : Bytes) : Bytes :=
  k.guardText ++ (argsText k.args ++ r)

/-- What stands behind the opcode. -/
def afterOp (k : Clause) (r : Bytes) : Bytes :=
  k.typeText ++ k.afterType r

variable (k : Clause) {r : Bytes}

/-- Behind the type stands a guard mark or what ends any word. -/
private theorem afterType_front (h : Closes r) :
    ∀ c ∈ (k.afterType r).head?, c = 0x21 ∨ IsBlank c ∨ IsBreak c ∨ c = 0x2f := by
  intro c hc
  rw [afterType, guardText] at hc
  split at hc
  · cases hc
    exact .inl rfl
  · exact .inr (endsWord_args h c hc)

private theorem endsName_afterType (h : Closes r) : EndsName (k.afterType r) := by
  intro c hc
  rcases k.afterType_front h c hc with rfl | (rfl | rfl) | (rfl | rfl) | rfl <;> decide

private theorem endsName_afterOp (h : Closes r) : EndsName (k.afterOp r) := by
  rw [afterOp, typeText]
  cases k.ty with
  | none => exact k.endsName_afterType h
  | some i =>
    intro c hc
    cases hc
    decide

/-- After blanks there is a byte behind the opcode that is no equals sign, or nothing. -/
private theorem exists_afterOp (h : Closes r) :
    ∃ g t, k.afterOp r = g ++ t ∧ Blanks g ∧ ∀ c ∈ t.head?, ¬ IsBlank c ∧ c ≠ 0x3d := by
  rw [afterOp, typeText, afterType, guardText]
  cases k.ty with
  | some i => exact ⟨[], _, rfl, by simp [Blanks], fun c hc => by cases hc; decide⟩
  | none =>
    split
    · exact ⟨[], _, rfl, by simp [Blanks], fun c hc => by cases hc; decide⟩
    · cases k.args with
      | nil =>
        obtain ⟨g, t, rfl, hg, ht, -⟩ := h.exists_split
        refine ⟨g, t, rfl, hg, fun c hc => ?_⟩
        rcases ht c hc with (rfl | rfl) | rfl <;> decide
      | cons a args =>
        obtain ⟨c, t, hw, hc⟩ := a.2.exists_front
        refine ⟨a.1.1.text, a.2.text ++ (argsText args ++ r), by simp [argsText], a.1.1.isBlank,
          fun x hx => ?_⟩
        rw [hw, List.cons_append] at hx
        cases hx
        simp only [not_or] at hc
        exact ⟨hc.1, hc.2.2.2⟩

/-- The type is read, if there is one. -/
private theorem exists_resultType (h : Closes r) (pos : Nat) :
    ∃ ty, Statement.resultType ⟨pos, k.afterOp r⟩ =
        .done ty ⟨pos + k.typeText.length, k.afterType r⟩ ∧
      ty.map Lexeme.text = k.ty.map Identifier.text := by
  rw [afterOp, typeText]
  cases k.ty with
  | none =>
    refine ⟨none, ?_, rfl⟩
    rw [Option.elim_none, List.nil_append, List.length_nil, Nat.add_zero, Statement.resultType]
    split
    · next t ht =>
      -- no point can stand there
      rcases k.afterType_front h 0x2e (by rw [show k.afterType r = _ from ht]; rfl) with
        h | (h | h) | (h | h) | h <;> cases h
    · rfl
  | some i =>
    refine ⟨some ⟨pos + 1, i.text⟩, ?_, rfl⟩
    have hident := ident_text i (pos + 1) (k.endsName_afterType h)
    rw [Option.elim_some, List.cons_append, Statement.resultType]
    simp only [Cursor.advance, List.drop_succ_cons, List.drop_zero, hident, Outcome.map,
      Outcome.during, List.length_cons]
    rw [← Nat.add_assoc, Nat.add_right_comm]

private theorem guardMark_afterType (h : Closes r) (pos : Nat) :
    Statement.guardMark ⟨pos, k.afterType r⟩ =
      (k.guard, ⟨pos + k.guardText.length, argsText k.args ++ r⟩) := by
  rw [afterType, guardText]
  cases k.guard with
  | true => rfl
  | false =>
    show Statement.guardMark ⟨pos, argsText k.args ++ r⟩ = _
    rw [Statement.guardMark]
    split
    · next t ht =>
      have hends : EndsWord (argsText k.args ++ r) := endsWord_args h
      rcases hends 0x21 (by rw [show argsText k.args ++ r = _ from ht]; rfl) with
        (h | h) | (h | h) | h <;> cases h
    · rfl

/-- **From the opcode on** a statement is read up to what closes it. -/
theorem exists_parseFrom (h : Closes r) (start pos : Nat) (name : Option Lexeme) :
    ∃ s, Statement.parseFrom start name ⟨pos, k.op.text ++ k.afterOp r⟩ =
        .done s ⟨pos + (k.op.text ++ k.afterOp []).length, r⟩ ∧
      s.phrase = { k.phrase with name := name.map Lexeme.text } := by
  obtain ⟨ty, hty, htext⟩ := k.exists_resultType h (pos + k.op.text.length)
  obtain ⟨args, hargs, hphrase⟩ := exists_args k.args h 0
    (pos + k.op.text.length + k.typeText.length + k.guardText.length)
  have hstop : pos + (k.op.text ++ k.afterOp []).length = pos + k.op.text.length +
      k.typeText.length + k.guardText.length + (argsText k.args).length := by
    simp [afterOp, afterType, Nat.add_assoc]
  refine ⟨⟨start, pos + (k.op.text ++ k.afterOp []).length, name, ⟨pos, k.op.text⟩, ty, k.guard,
    args⟩, ?_, ?_⟩
  · rw [Statement.parseFrom, ident_text k.op pos (k.endsName_afterOp h), hstop]
    simp only [Outcome.during, Outcome.bind, hty, k.guardMark_afterType h, Outcome.many, hargs]
  · simp only [Statement.phrase, phrase, htext, hphrase]

/-- No name stands before the opcode if no equals sign follows it. -/
private theorem resultName?_op (h : Closes r) (pos : Nat) :
    Statement.resultName? ⟨pos, k.op.text ++ k.afterOp r⟩ = none := by
  obtain ⟨g, t, hsplit, hg, ht⟩ := k.exists_afterOp h
  have hskip := Spaces.skip_blanks hg (fun c hc => (ht c hc).1) (pos + k.op.text.length)
  have hmark : (Bytes.ascii "=").isPrefixOf t = false := by
    cases t with
    | nil => rfl
    | cons c t =>
      have hc := (ht c rfl).2
      show (0x3d == c && _) = false
      rw [beq_false_of_ne hc.symm, Bool.false_and]
  rw [Statement.resultName?, ident_text k.op pos (k.endsName_afterOp h), hsplit]
  simp only [hskip, Token.fixed, hmark, Bool.false_eq_true, if_false]

/-- A name before the opcode is read together with the equals sign. -/
private theorem resultName?_name (i : Identifier) (g g' : Gap) (t : Bytes) (pos : Nat) :
    Statement.resultName? ⟨pos, i.text ++ (g.text ++ 0x3d :: (g'.text ++ t))⟩ =
      some (⟨pos, i.text⟩, ⟨pos + i.text.length + g.text.length + 1, g'.text ++ t⟩) := by
  have hends : EndsName (g.text ++ 0x3d :: (g'.text ++ t)) := by
    intro c hc
    rw [List.head?_append, Option.mem_def, Option.or_eq_some_iff] at hc
    rcases hc with hc | ⟨-, hc⟩
    · rcases g.isBlank c (List.mem_of_mem_head? hc) with rfl | rfl <;> decide
    · cases hc
      decide
  have hskip := Spaces.skip_blanks g.isBlank (r := 0x3d :: (g'.text ++ t))
    (fun c hc => by cases hc; decide) (pos + i.text.length)
  rw [Statement.resultName?, ident_text i pos hends]
  simp only [hskip, Token.fixed]
  rfl

/-- The opcode begins with no blank. -/
private theorem skip_op (g : Gap) (t : Bytes) (pos : Nat) :
    Spaces.inline.skip ⟨pos, g.text ++ (k.op.text ++ t)⟩ =
      ⟨pos + g.text.length, k.op.text ++ t⟩ := by
  refine Spaces.skip_blanks g.isBlank (fun c hc => ?_) pos
  cases hc
  have hletter := (foreign_of_isLetter k.op.first k.op.isLetter).2.2.2.2.2
  exact fun hblank => hletter (.inl hblank)

private theorem text_append (r : Bytes) :
    k.text ++ r = k.nameText ++ (k.op.text ++ k.afterOp r) := by
  simp [text, afterOp, afterType]

/-- **A statement** is read up to what closes it. -/
theorem exists_parse (h : Closes r) (pos : Nat) :
    ∃ s, Statement.parse ⟨pos, k.text ++ r⟩ = .done s ⟨pos + k.text.length, r⟩ ∧
      s.phrase = k.phrase := by
  have hlength : k.text.length = k.nameText.length + (k.op.text ++ k.afterOp []).length := by
    rw [← List.append_nil k.text, text_append, List.length_append]
  rw [text_append, hlength]
  cases hname : k.name with
  | none =>
    -- the opcode is tried as a name first, and then read again
    obtain ⟨s, hs, hphrase⟩ := k.exists_parseFrom h pos pos none
    refine ⟨s, ?_, by rw [hphrase]; simp [phrase, hname]⟩
    have hskip := k.skip_op ⟨[], by simp [Blanks]⟩ (k.afterOp r) pos
    simp only [nameText, hname, Option.elim_none, List.nil_append, List.length_nil, Nat.zero_add]
    rw [Statement.parse, k.resultName?_op h]
    rw [List.nil_append, List.length_nil, Nat.add_zero] at hskip
    simp only [hskip, hs]
  | some p =>
    obtain ⟨i, g, g'⟩ := p
    obtain ⟨s, hs, hphrase⟩ := k.exists_parseFrom h pos
      (pos + i.text.length + g.text.length + 1 + g'.text.length) (some ⟨pos, i.text⟩)
    refine ⟨s, ?_, by rw [hphrase]; simp [phrase, hname]⟩
    have hsplit : k.nameText ++ (k.op.text ++ k.afterOp r) =
        i.text ++ (g.text ++ 0x3d :: (g'.text ++ (k.op.text ++ k.afterOp r))) := by
      simp [nameText, hname]
    have hname : k.nameText.length = i.text.length + g.text.length + 1 + g'.text.length := by
      simp only [nameText, hname, Option.elim_some, List.length_append, List.length_cons]
      omega
    rw [hsplit, Statement.parse, resultName?_name]
    simp only [k.skip_op, hs]
    simp only [hname, Nat.add_assoc]

/-- A statement begins with a letter. -/
private theorem exists_front : ∃ c t, k.text = c :: t ∧ isLetter c = true := by
  rw [text, nameText]
  cases k.name with
  | none => exact ⟨k.op.first, _, rfl, k.op.isLetter⟩
  | some p => exact ⟨p.1.first, _, rfl, p.1.isLetter⟩

end Clause

/-! ### The rest of a line -/

/-- What may follow a line: nothing, or a line feed and more. -/
def EndsLine (b : Bytes) : Prop :=
  b = [] ∨ ∃ t, b = 0x0a :: t

namespace Filler

variable (f : Filler) {b : Bytes}

/-- The comment takes the carriage return with it. -/
private theorem text_eq :
    ∃ g t, f.text = g ++ t ∧ Blanks g ∧ (t = [] ∨ t = [0x0d] ∨ Comment t) := by
  refine ⟨f.gap.text, _, rfl, f.gap.isBlank, ?_⟩
  cases f.comment with
  | none => cases f.carriageReturn <;> simp
  | some c =>
    refine .inr (.inr ⟨c.1 ++ if f.carriageReturn then [0x0d] else [], rfl, ?_⟩)
    cases f.carriageReturn <;> simp [c.2]

private theorem ending : Ending f.text := by
  obtain ⟨g, t, htext, hg, ht⟩ := f.text_eq
  rw [htext]
  refine Ending.append hg.margin ?_
  rcases ht with rfl | rfl | ht
  · exact Margin.nil.ending
  · exact (Margin.space (.inr (.inl rfl)) .nil).ending
  · exact ⟨[], t, rfl, .nil, .inr ht⟩

private theorem margin : Margin (f.text ++ [0x0a]) := by
  obtain ⟨g, t, htext, hg, ht⟩ := f.text_eq
  have hbreak : Margin [0x0a] := .space (.inr (.inr rfl)) .nil
  rw [htext, List.append_assoc]
  refine hg.margin.append ?_
  rcases ht with rfl | rfl | ht
  · exact hbreak
  · exact .space (.inr (.inl rfl)) hbreak
  · exact .comment ht .nil

private theorem closes (h : EndsLine b) : Closes (f.text ++ b) := by
  obtain ⟨g, t, htext, hg, ht⟩ := f.text_eq
  rw [htext, List.append_assoc]
  refine ⟨g, t ++ b, rfl, hg, ?_⟩
  rcases ht with rfl | rfl | ⟨body, rfl, -⟩
  · rcases h with rfl | ⟨r, rfl⟩
    · exact .inl rfl
    · exact .inr (.inl ⟨_, r, rfl, .inr rfl⟩)
  · exact .inr (.inl ⟨_, b, rfl, .inl rfl⟩)
  · exact .inr (.inr ⟨body ++ b, rfl⟩)

/-- Behind the filler the line ends. -/
private theorem atLineEnd_skipComments (h : EndsLine b) (pos : Nat) :
    (Spaces.inline.skipComments ⟨pos, f.text ++ b⟩).atLineEnd = true := by
  obtain ⟨g, t, htext, hg, ht⟩ := f.text_eq
  have hblanks := Spaces.commentLength_blanks (s := Spaces.inline)
    (fun c hc => (Spaces.has_inline_iff c).mpr (hg c hc)) (t ++ b)
  -- the blanks and a comment are passed, and nothing of what ends the line
  have hpassed : ∃ u v, t ++ b = u ++ v ∧ Spaces.inline.commentLength false (t ++ b) = u.length ∧
      (v = [] ∨ ∃ c r, v = c :: r ∧ IsBreak c) := by
    have hb : b = [] ∨ ∃ c r, b = c :: r ∧ IsBreak c := by
      rcases h with hb | ⟨r, hb⟩
      · exact .inl hb
      · exact .inr ⟨_, r, hb, .inr rfl⟩
    have hstop : ∀ inside, Spaces.inline.commentLength inside b = 0 := by
      intro inside
      rcases h with rfl | ⟨r, rfl⟩
      · rfl
      · rw [Spaces.commentLength_break]
        rfl
    rcases ht with rfl | rfl | ht
    · exact ⟨[], b, rfl, hstop false, hb⟩
    · exact ⟨[], 0x0d :: b, rfl, rfl, .inr ⟨_, b, rfl, .inl rfl⟩⟩
    · exact ⟨t, b, rfl, by rw [Spaces.commentLength_comment rfl ht, hstop, Nat.add_zero], hb⟩
  obtain ⟨u, v, hsplit, hlength, hv⟩ := hpassed
  rw [htext, List.append_assoc, Spaces.skipComments, hblanks, hlength, hsplit, Cursor.advance]
  simp only [← List.append_assoc, ← List.length_append, List.drop_left]
  rcases hv with rfl | ⟨c, r, rfl, rfl | rfl⟩ <;> rfl

end Filler

/-! ### Documents -/

/-- From the cursor on, the statements of a script are read, and they say this. -/
def ReadsAs (index : Nat) (c : Cursor) (phrases : List Phrase) : Prop :=
  ∃ ss next, Program.statementsFrom index c = .done ss next ∧ next.rest = [] ∧
    ss.map Statement.phrase = phrases

/-- Only what stands behind the margin counts. -/
theorem statementsFrom_congr {c d : Cursor} (h : Spaces.all.skipComments c =
    Spaces.all.skipComments d) (index : Nat) :
    Program.statementsFrom index c = Program.statementsFrom index d := by
  rw [Program.statementsFrom, Program.statementsFrom, h]

/-- What follows a line of a document. -/
def afterRow : List Row → Bytes
  | [] => []
  | row :: rows => 0x0a :: documentText (row :: rows)

private theorem documentText_cons (row : Row) (rows : List Row) :
    documentText (row :: rows) = row.text ++ afterRow rows := by
  cases rows with
  | nil => simp [documentText, afterRow]
  | cons row' rows => simp [documentText, afterRow, List.intercalate]

private theorem endsLine_afterRow (rows : List Row) : EndsLine (afterRow rows) := by
  cases rows with
  | nil => exact .inl rfl
  | cons row rows => exact .inr ⟨_, rfl⟩

variable {rows : List Row}

/-- The rest of a line is passed. -/
private theorem ReadsAs.filler
    (h : ∀ index pos, ReadsAs index ⟨pos, documentText rows⟩ (documentPhrases rows)) (f : Filler)
    (index pos : Nat) :
    ReadsAs index ⟨pos, f.text ++ afterRow rows⟩ (documentPhrases rows) := by
  cases rows with
  | nil =>
    rw [afterRow, List.append_nil]
    refine ⟨[], ⟨pos + f.text.length, []⟩, ?_, rfl, rfl⟩
    rw [Program.statementsFrom, Spaces.skipComments_ending f.ending]
    rfl
  | cons row rows =>
    obtain ⟨ss, next, hss, hnext, hphrases⟩ := h index (pos + (f.text ++ [0x0a]).length)
    refine ⟨ss, next, ?_, hnext, hphrases⟩
    rw [← hss]
    refine statementsFrom_congr ?_ index
    rw [afterRow, ← Spaces.skipComments_margin f.margin, List.append_assoc, List.singleton_append]

/-- **A line with a statement** is read, and what follows. -/
theorem ReadsAs.clause (h : ∀ index pos, ReadsAs index ⟨pos, documentText rows⟩ (documentPhrases rows))
    (g : Gap) (k : Clause) (f : Filler) (index pos : Nat) :
    ReadsAs index ⟨pos, g.text ++ (k.text ++ (f.text ++ afterRow rows))⟩
      (k.phrase :: documentPhrases rows) := by
  have hline := endsLine_afterRow rows
  obtain ⟨s, hs, hphrase⟩ := k.exists_parse (f.closes hline) (pos + g.text.length)
  obtain ⟨ss, next, hss, hnext, hphrases⟩ :=
    ReadsAs.filler h f (index + 1) (pos + g.text.length + k.text.length)
  have hend := f.atLineEnd_skipComments hline (pos + g.text.length + k.text.length)
  -- what follows the statement counts only through these three facts
  generalize f.text ++ afterRow rows = r at hs hss hend
  refine ⟨s :: ss, next, ?_, hnext, by rw [List.map_cons, hphrase, hphrases]⟩
  obtain ⟨c, t, hk, hc⟩ := k.exists_front
  have hskip : Spaces.all.skipComments ⟨pos, g.text ++ (k.text ++ r)⟩ =
      ⟨pos + g.text.length, k.text ++ r⟩ := by
    obtain ⟨-, -, -, -, -, hfront⟩ := foreign_of_isLetter c hc
    simp only [not_or] at hfront
    have hhas : Spaces.all.has c = false :=
      Bool.eq_false_iff.mpr (mt (Spaces.has_all_iff c).mp (not_or.mpr ⟨hfront.1, hfront.2.1⟩))
    have hstop : Spaces.all.commentLength false (c :: (t ++ r)) = 0 := by
      rw [Spaces.commentLength]
      simp [hhas, hfront.2.2.1]
    rw [Spaces.skipComments_margin g.isBlank.margin, hk, List.cons_append, Spaces.skipComments, hstop]
    rfl
  -- the loop passes the rest of the line first, which is all the same to the next round
  have hrest : Program.statementsFrom (index + 1)
      (Spaces.inline.skipComments ⟨pos + g.text.length + k.text.length, r⟩) = .done ss next := by
    rw [← hss]
    exact statementsFrom_congr (Spaces.skipComments_inline _) _
  -- the loop goes on only if the statement took up something
  have hshorter : (Spaces.inline.skipComments
      ⟨pos + g.text.length + k.text.length, r⟩).rest.length < (k.text ++ r).length := by
    have hle := Cursor.length_advance_le ⟨pos + g.text.length + k.text.length, r⟩
      (Spaces.inline.commentLength false r)
    refine Nat.lt_of_le_of_lt hle ?_
    rw [hk]
    simp only [List.length_append, List.length_cons]
    omega
  have hempty : (k.text ++ r).isEmpty = false := by simp [hk]
  rw [Program.statementsFrom, hskip]
  simp only [hempty, Bool.false_eq_true, if_false, hs, Outcome.during, hend, Bool.not_true, hshorter,
    dite_true, hrest, Outcome.map]

/-- **The lines of a document** are read back. -/
theorem readsAs_document (rows : List Row) (index pos : Nat) :
    ReadsAs index ⟨pos, documentText rows⟩ (documentPhrases rows) := by
  induction rows generalizing index pos with
  | nil =>
    refine ⟨[], ⟨pos, []⟩, ?_, rfl, rfl⟩
    rw [Program.statementsFrom]
    rfl
  | cons row rows ih =>
    obtain ⟨indent, clause, filler⟩ := row
    rw [documentText_cons]
    cases clause with
    | none =>
      -- the indent and the filler are one filler
      have hrow : Row.text ⟨indent, none, filler⟩ =
          Filler.text ⟨⟨indent.text ++ filler.gap.text, fun c hc =>
            (List.mem_append.mp hc).elim (indent.isBlank c) (filler.gap.isBlank c)⟩, filler.comment,
            filler.carriageReturn⟩ := by
        simp [Row.text, Filler.text]
      rw [hrow]
      exact ReadsAs.filler ih _ index pos
    | some k =>
      have hrow : Row.text ⟨indent, some k, filler⟩ ++ afterRow rows =
          indent.text ++ (k.text ++ (filler.text ++ afterRow rows)) := by
        simp [Row.text]
      rw [hrow]
      exact ReadsAs.clause ih indent k filler index pos

/-- **Every script that is written from words** is read back: the statements stand in order, and each
says what was written. -/
theorem parse_document (name : Bytes) (rows : List Row) :
    ∃ p, parseFile name (documentText rows) = .tree p ∧
      p.statements.map Statement.phrase = documentPhrases rows := by
  obtain ⟨ss, next, hss, hnext, hphrases⟩ := readsAs_document rows 0 0
  obtain ⟨pos, rest⟩ := next
  obtain rfl : rest = [] := hnext
  refine ⟨⟨0, pos, ss⟩, ?_, hphrases⟩
  have htext : Source.text [⟨name, documentText rows⟩] = documentText rows := by
    simp [Source.text]
  rw [parseFile, Source.parseWith, htext, Program.parse, Cursor.start, hss]
  rfl

end TraceIR.Script
