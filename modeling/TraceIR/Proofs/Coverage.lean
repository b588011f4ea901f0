import Mathlib.Data.List.Chain
import TraceIR.Proofs.Spelling

/-!
# Every byte of a script is accounted for

A parsed statement says where it and its words stand. Read the other way round, the statements of a
script and the margins between them are the whole text.

* `Tile` and `Spelled` — a row of words, marks and blanks, each with its place, is a piece of text.
  `Statement.tiles` is the row of a statement, with the class of each word.
* `Cursor.Crosses` — what a parser takes up is such a row. It composes, so there is one lemma for
  each parser, up to `Statement.crosses_of_parse`.
* `parse_accounts_for_text` — statements and margins take turns from the first byte to the last.
-/

namespace TraceIR.Script

/-! ### Rows of tiles -/

/-- A part of a statement. -/
inductive Tile where
  /-- Spaces and tabs, or nothing. -/
  | blanks
  | mark (c : UInt8)
  /-- A word of a class. -/
  | word (isWord : Bytes → Prop) (l : Lexeme)

/-- The tile is written as `b` at an offset. -/
def Tile.Spells : Tile → Nat → Bytes → Prop
  | .blanks, _, b => Blanks b
  | .mark c, _, b => b = [c]
  | .word isWord l, pos, b => l.pos = pos ∧ l.text = b ∧ isWord b

/-- The tiles are written one after the other. -/
inductive Spelled : List Tile → Nat → Bytes → Prop
  | nil {pos : Nat} : Spelled [] pos []
  | cons {t : Tile} {ts : List Tile} {pos : Nat} {b r : Bytes} :
    t.Spells pos b → Spelled ts (pos + b.length) r → Spelled (t :: ts) pos (b ++ r)

private theorem Spelled.append {ts us : List Tile} {pos : Nat} {b r : Bytes} (h : Spelled ts pos b)
    (h' : Spelled us (pos + b.length) r) : Spelled (ts ++ us) pos (b ++ r) := by
  induction h with
  | nil => exact h'
  | cons ht _ ih =>
    rw [List.length_append, ← Nat.add_assoc] at h'
    rw [List.append_assoc]
    exact .cons ht (ih h')

/-- The tiles of an argument. The mark of a literal has a place of its own. -/
def Arg.tiles : Arg → List Tile
  | .int l => [.word (IsNumeral false) l]
  | .float l => [.word (IsNumeral true) l]
  | .lit pos l => [.word (· = [0x23]) ⟨pos, [0x23]⟩, .word (IsNumeral false) l]
  | .string l => [.word IsQuoted l]
  | .ident l => [.word IsIdentifier l]

namespace Statement

/-- The tiles of the name in front. -/
def nameTiles (name : Option Lexeme) : List Tile :=
  name.elim [] fun l => [.word IsIdentifier l, .blanks, .mark 0x3d, .blanks]

/-- The tiles of the type. -/
def typeTiles (ty : Option Lexeme) : List Tile :=
  ty.elim [] fun l => [.mark 0x2e, .word IsIdentifier l]

/-- The tiles of the guard mark. -/
def guardTiles (guard : Bool) : List Tile :=
  if guard then [.mark 0x21] else []

/-- The tiles of the arguments. -/
def argTiles (args : List Arg) : List Tile :=
  args.flatMap fun a => .blanks :: a.tiles

/-- The tiles of a statement. -/
def tiles (s : Statement) : List Tile :=
  nameTiles s.name ++
    .word IsIdentifier s.op :: (typeTiles s.ty ++ (guardTiles s.guard ++ argTiles s.args))

end Statement

/-! ### What parsers take up -/

namespace Cursor

variable {c d e : Cursor} {ts us : List Tile}

/-- Between the cursors the tiles are written. -/
def Crosses (c : Cursor) (ts : List Tile) (d : Cursor) : Prop :=
  ∃ b, c.Passes b d ∧ Spelled ts c.pos b

private theorem Crosses.refl (c : Cursor) : c.Crosses [] c :=
  ⟨[], .refl c, .nil⟩

theorem Crosses.trans (h : c.Crosses ts d) (h' : d.Crosses us e) : c.Crosses (ts ++ us) e := by
  obtain ⟨b, hb, hts⟩ := h
  obtain ⟨b', hb', hus⟩ := h'
  rw [hb.pos] at hus
  exact ⟨b ++ b', hb.trans hb', hts.append hus⟩

private theorem Passes.crosses {t : Tile} {b : Bytes} (h : c.Passes b d) (ht : t.Spells c.pos b) :
    c.Crosses [t] d := by
  refine ⟨b, h, ?_⟩
  have hspelled : Spelled [t] c.pos (b ++ []) := .cons ht .nil
  rwa [List.append_nil] at hspelled

theorem crosses_skip (c : Cursor) : c.Crosses [.blanks] (Spaces.inline.skip c) :=
  (Spaces.inline.passes_skip c).crosses (Spaces.blanks_takeWhile_inline c.rest)

/-- A mark in front is one tile. -/
private theorem crosses_mark {x : UInt8} {r : Bytes} (h : c.rest = x :: r) :
    c.Crosses [.mark x] (c.advance 1) := by
  have hpasses := c.passes_advance (n := 1) (by rw [h]; exact Nat.succ_le_succ (Nat.zero_le _))
  rw [h] at hpasses
  exact hpasses.crosses rfl

/-- The next bytes are one word. -/
private theorem crosses_take {n : Nat} {isWord : Bytes → Prop} (h : n ≤ c.rest.length)
    (hword : isWord (Token.take c n).text) :
    c.Crosses [.word isWord (Token.take c n)] (c.advance n) :=
  (c.passes_advance h).crosses ⟨rfl, rfl, hword⟩

end Cursor

open Cursor

namespace Token

variable {c next : Cursor}

private theorem crosses_of_ident {l : Lexeme} (h : ident c = .done l next) :
    c.Crosses [.word IsIdentifier l] next := by
  have hword := isIdentifier_of_ident h
  rw [ident] at h
  split at h
  · next x r hrest =>
    split at h
    · split at h
      · next n hn =>
        cases h
        refine crosses_take ?_ hword
        have hle := identLength_le r
        rw [hn] at hle
        rw [hrest]
        exact Nat.succ_le_succ hle
      · cases h
    · cases h
  · cases h

private theorem crosses_of_number {a : Arg} (h : number c = .done a next) :
    c.Crosses a.tiles next := by
  rw [number] at h
  split at h
  · cases h
  · next n fraction hn =>
    cases h
    have hword := crosses_take (numberLength?_le hn) (isNumeral_take hn)
    cases fraction
    · exact hword
    · exact hword

private theorem crosses_of_integer {l : Lexeme} (h : integer c = .done l next) :
    c.Crosses [.word (IsNumeral false) l] next := by
  rw [integer] at h
  split at h
  · cases h
  · cases h
  · next n hn =>
    cases h
    exact crosses_take (numberLength?_le hn) (isNumeral_take hn)

private theorem crosses_of_literal {a : Arg} (h : literal c = .done a next) :
    c.Crosses a.tiles next := by
  rw [literal] at h
  split at h
  · next r hrest =>
    rw [Outcome.during_eq_done_iff] at h
    obtain ⟨l, hl, rfl⟩ := Outcome.map_eq_done_iff.mp h
    have hmark := c.passes_advance (n := 1) (by rw [hrest]; simp)
    rw [hrest] at hmark
    have hword : Crosses c [.word (· = [0x23]) ⟨c.pos, [0x23]⟩] (c.advance 1) :=
      hmark.crosses ⟨rfl, rfl, rfl⟩
    exact hword.trans (crosses_of_integer hl)
  · cases h

private theorem crosses_of_string {a : Arg} (h : string c = .done a next) :
    c.Crosses a.tiles next := by
  rw [string] at h
  split at h
  · next r hrest =>
    split at h
    · next n hn =>
      cases h
      refine crosses_take ?_ ?_
      · rw [hrest]
        exact Nat.succ_le_succ (stringEnd_le hn)
      · rw [take, hrest, List.take_succ_cons]
        exact isQuoted_of_stringEnd hn
    · cases h
    · cases h
  · cases h

end Token

theorem Arg.crosses_of_parse {c next : Cursor} {a : Arg} (h : Arg.parse c = .done a next) :
    c.Crosses a.tiles next := by
  rw [Arg.parse] at h
  split at h
  · cases h
  · -- a choice succeeds with one of its alternatives
    obtain ⟨k, hmem⟩ := Outcome.exists_of_firstOf h
    simp only [List.mem_cons, Prod.mk.injEq, List.not_mem_nil, or_false] at hmem
    rcases hmem with ⟨-, hlit⟩ | ⟨-, hnum⟩ | ⟨-, hstring⟩ | ⟨-, hident⟩
    · exact Token.crosses_of_literal hlit.symm
    · exact Token.crosses_of_number hnum.symm
    · exact Token.crosses_of_string hstring.symm
    · obtain ⟨l, hl, rfl⟩ := Outcome.map_eq_done_iff.mp hident.symm
      exact Token.crosses_of_ident hl

/-- A run of arguments takes up blanks and an argument in turn. -/
private theorem ensures_args (index : Nat) (c : Cursor) :
    (Outcome.manyFrom Spaces.inline Arg.parse index c).Ensures fun args next =>
      c.Crosses (Statement.argTiles args) next := by
  fun_induction Outcome.manyFrom Spaces.inline Arg.parse index c with
  | case1 index c hempty => exact .refl c
  | case2 index c hempty first e hrun => exact .refl c
  | case6 index c hempty first a after hrun hlt ih =>
    refine ih.map fun hargs => ?_
    exact ((crosses_skip c).trans (Arg.crosses_of_parse hrun)).trans hargs
  | _ => exact True.intro

namespace Statement

variable {c next : Cursor} {s : Statement}

theorem crosses_of_resultName? {name : Lexeme} (h : resultName? c = some (name, next)) :
    c.Crosses [.word IsIdentifier name, .blanks, .mark 0x3d] next := by
  rw [resultName?] at h
  split at h
  · next name c₁ hname =>
    split at h
    · next text c₂ hmark =>
      cases h
      rw [Token.fixed] at hmark
      split at hmark
      · next hprefix =>
        cases hmark
        obtain ⟨r, hr⟩ := List.isPrefixOf_iff_prefix.mp hprefix
        exact ((Token.crosses_of_ident hname).trans (crosses_skip c₁)).trans (crosses_mark hr.symm)
      · cases hmark
    · cases h
  · cases h

private theorem crosses_of_resultType {ty : Option Lexeme} (h : resultType c = .done ty next) :
    c.Crosses (typeTiles ty) next := by
  rw [resultType] at h
  split at h
  · next r hrest =>
    rw [Outcome.during_eq_done_iff] at h
    obtain ⟨l, hl, rfl⟩ := Outcome.map_eq_done_iff.mp h
    exact (crosses_mark hrest).trans (Token.crosses_of_ident hl)
  · cases h
    exact .refl c

private theorem crosses_guardMark (c : Cursor) : c.Crosses (guardTiles (guardMark c).1)
    (guardMark c).2 := by
  rw [guardMark]
  split
  · next r hrest => exact crosses_mark hrest
  · exact .refl c

/-- Everything from the opcode on. -/
theorem crosses_of_parseFrom {pos : Nat} {name : Option Lexeme}
    (h : parseFrom pos name c = .done s next) :
    s.pos = pos ∧ s.stop = next.pos ∧ s.name = name ∧
      c.Crosses (.word IsIdentifier s.op ::
        (typeTiles s.ty ++ (guardTiles s.guard ++ argTiles s.args))) next := by
  obtain ⟨op, c₁, hop, h⟩ := Outcome.bind_eq_done_iff.mp h
  obtain ⟨ty, c₂, hty, h⟩ := Outcome.bind_eq_done_iff.mp h
  obtain ⟨args, c₃, hargs, h⟩ := Outcome.bind_eq_done_iff.mp h
  rw [Outcome.during_eq_done_iff] at hop hargs
  cases h
  refine ⟨rfl, rfl, rfl, (Token.crosses_of_ident hop).trans ?_⟩
  exact (crosses_of_resultType hty).trans ((crosses_guardMark c₂).trans ((ensures_args _ _).of_eq hargs))

/-- **A statement** takes up its tiles, if no blank stands in front of it. -/
theorem crosses_of_parse (hfront : Spaces.inline.skip c = c) (h : parse c = .done s next) :
    s.pos = c.pos ∧ s.stop = next.pos ∧ c.Crosses s.tiles next := by
  rw [parse] at h
  split at h
  · next name c₁ hname =>
    obtain ⟨hpos, hstop, hs, hbody⟩ := crosses_of_parseFrom h
    refine ⟨hpos, hstop, ?_⟩
    rw [tiles, hs]
    exact ((crosses_of_resultName? hname).trans (crosses_skip c₁)).trans hbody
  · obtain ⟨hpos, hstop, hs, hbody⟩ := crosses_of_parseFrom h
    refine ⟨hpos, hstop, ?_⟩
    rw [tiles, hs]
    rw [hfront] at hbody
    exact hbody

end Statement

/-! ### Statements and margins -/

/-- The cursor stands in the text. -/
structure Cursor.In (c : Cursor) (text : Bytes) : Prop where
  le : c.pos ≤ text.length
  rest : c.rest = text.drop c.pos

theorem Cursor.Passes.of_in {c d : Cursor} {b text : Bytes} (h : c.Passes b d) (hc : c.In text) :
    d.In text ∧ c.pos ≤ d.pos ∧ text.extract c.pos d.pos = b := by
  have hrest : text.drop c.pos = b ++ d.rest := hc.rest ▸ h.rest
  have hle : b.length ≤ (text.drop c.pos).length := by
    rw [hrest, List.length_append]
    exact Nat.le_add_right ..
  rw [List.length_drop] at hle
  have hcle := hc.le
  refine ⟨⟨by rw [h.pos]; omega, ?_⟩, by rw [h.pos]; exact Nat.le_add_right .., ?_⟩
  · rw [h.pos, ← List.drop_drop, hrest, List.drop_left]
  · rw [List.extract, hrest, h.pos, Nat.add_sub_cancel_left, List.take_left]

/-- From `start` on, the text is the statements and what may stand around them. -/
structure Accounted (text : Bytes) (start : Nat) (ss : List Statement) : Prop where
  /-- The statements lie in the text. -/
  inside : ∀ s ∈ ss, start ≤ s.pos ∧ s.pos ≤ s.stop ∧ s.stop ≤ text.length
  /-- They do not overlap. -/
  ordered : ss.Pairwise fun s s' => s.stop ≤ s'.pos
  /-- Each statement is made of its words. -/
  spelled : ∀ s ∈ ss, Spelled s.tiles s.pos (text.extract s.pos s.stop)
  /-- Before the first one stands a margin. -/
  before : ∀ s ∈ ss.head?, Margin (text.extract start s.pos)
  /-- Between two of them stands a margin with a line break in it. -/
  between : ss.IsChain fun s s' => Margin (text.extract s.stop s'.pos) ∧
    ∃ c ∈ text.extract s.stop s'.pos, IsBreak c
  /-- After the last one the margin goes on to the end of the text. -/
  after : Ending (text.drop (ss.getLast?.elim start Statement.stop))

private theorem Accounted.cons {text : Bytes} {start : Nat} {s : Statement} {ss : List Statement}
    (hstart : start ≤ s.pos) (hstop : s.pos ≤ s.stop) (hle : s.stop ≤ text.length)
    (hmargin : Margin (text.extract start s.pos))
    (hspelled : Spelled s.tiles s.pos (text.extract s.pos s.stop))
    (hbreak : ∀ s' ∈ ss.head?, ∃ c ∈ text.extract s.stop s'.pos, IsBreak c)
    (h : Accounted text s.stop ss) : Accounted text start (s :: ss) where
  inside := by
    refine List.forall_mem_cons.mpr ⟨⟨hstart, hstop, hle⟩, fun s' hs' => ?_⟩
    obtain ⟨h₁, h₂, h₃⟩ := h.inside s' hs'
    exact ⟨by omega, h₂, h₃⟩
  ordered := List.pairwise_cons.mpr ⟨fun s' hs' => (h.inside s' hs').1, h.ordered⟩
  spelled := List.forall_mem_cons.mpr ⟨hspelled, h.spelled⟩
  before := by
    intro s' hs'
    cases hs'
    exact hmargin
  between := by
    refine List.isChain_cons.mpr ⟨fun s' hs' => ⟨h.before s' hs', hbreak s' hs'⟩, h.between⟩
  after := by
    have hlast : (s :: ss).getLast?.elim start Statement.stop =
        ss.getLast?.elim s.stop Statement.stop := by
      rw [List.getLast?_cons]
      cases ss.getLast? <;> rfl
    rw [hlast]
    exact h.after

/-- Nothing but a margin is left. -/
private theorem Accounted.nil {text : Bytes} {c : Cursor} (hc : c.In text) (h : Ending c.rest) :
    Accounted text c.pos [] where
  inside := fun _ hs => absurd hs List.not_mem_nil
  ordered := .nil
  spelled := fun _ hs => absurd hs List.not_mem_nil
  before := fun _ hs => by cases hs
  between := .nil
  after := hc.rest ▸ h

/-- A line end that is passed is one of the bytes that are passed. -/
private theorem exists_break {c : Cursor} (hend : c.atLineEnd = true)
    (hrest : (Spaces.all.skipComments c).rest ≠ []) :
    ∃ m x, c.Passes m (Spaces.all.skipComments c) ∧ x ∈ m ∧ IsBreak x := by
  rcases Spaces.exists_passes_skipComments c with ⟨m, x, r, hpasses, -, hx, hother⟩ | ⟨-, hempty⟩
  · rw [Cursor.atLineEnd, hpasses.rest, hx] at hend
    cases m with
    | nil =>
      -- nothing was passed, so the line end is still there
      have hbreak : IsBreak x := by simpa [IsBreak, or_comm] using hend
      exact absurd (.inr hbreak) hother
    | cons y m =>
      refine ⟨y :: m, y, hpasses, List.mem_cons_self, ?_⟩
      simpa [IsBreak, or_comm] using hend
  · exact absurd (by rw [hempty]) hrest

/-- One statement in front of others, each after its margin. -/
private theorem Accounted.of_parse {text : Bytes} {d after : Cursor} {s : Statement}
    {ss : List Statement} (hd : d.In text) (hempty : (Spaces.all.skipComments d).rest ≠ [])
    (hparse : Statement.parse (Spaces.all.skipComments d) = .done s after)
    (hline : (Spaces.inline.skipComments after).atLineEnd = true)
    (hrest : after.In text → Accounted text after.pos ss ∧ ∀ s ∈ ss.head?,
      s.pos = (Spaces.all.skipComments after).pos ∧ (Spaces.all.skipComments after).rest ≠ []) :
    Accounted text d.pos (s :: ss) ∧ s.pos = (Spaces.all.skipComments d).pos := by
  rcases Spaces.exists_passes_skipComments d with ⟨m, x, r, hmargin, hm, hx, hother⟩ | ⟨-, hnone⟩
  · -- no blank is left in front of the statement
    have hfront : Spaces.inline.skip (Spaces.all.skipComments d) = Spaces.all.skipComments d := by
      have hblank : Spaces.inline.has x = false :=
        Bool.eq_false_iff.mpr fun hhas => hother (.inl ((Spaces.has_inline_iff x).mp hhas))
      rw [Spaces.skip, hx, List.takeWhile_cons_of_neg (by rw [hblank]; exact Bool.false_ne_true)]
      rfl
    obtain ⟨hpos, hstop, b, hb, hspelled⟩ := Statement.crosses_of_parse hfront hparse
    obtain ⟨hin, hle, hextract⟩ := hmargin.of_in hd
    obtain ⟨hin', hle', hextract'⟩ := hb.of_in hin
    rw [← hpos] at hle hextract hle' hextract' hspelled
    rw [← hstop] at hle' hextract'
    obtain ⟨hafter, hhead⟩ := hrest hin'
    refine ⟨.cons hle hle' (hstop ▸ hin'.le) (hextract ▸ hm) (hextract' ▸ hspelled) ?_
      (hstop ▸ hafter), hpos⟩
    intro s' hs'
    obtain ⟨hpos', hne⟩ := hhead s' hs'
    -- the rest of the line is passed first, then its end
    have hfirst := Spaces.inline.passes_skipComments after
    rw [← Spaces.skipComments_inline] at hne hpos'
    obtain ⟨m', y, hm', hy, hbreak⟩ := exists_break hline hne
    obtain ⟨-, -, hgap⟩ := (hfirst.trans hm').of_in hin'
    rw [← hpos', ← hstop] at hgap
    exact ⟨y, hgap ▸ List.mem_append_right _ hy, hbreak⟩
  · exact absurd (by rw [hnone]) hempty

/-- **The statements of a script** and the margins around them are the text, from any place on that
stands in the margin before them. -/
theorem Program.ensures_statementsFrom (text : Bytes) (index : Nat) (c : Cursor) :
    (statementsFrom index c).Ensures fun ss _ => ∀ d : Cursor, d.In text →
      Spaces.all.skipComments d = Spaces.all.skipComments c →
      Accounted text d.pos ss ∧ ∀ s ∈ ss.head?, s.pos = (Spaces.all.skipComments c).pos ∧
        (Spaces.all.skipComments c).rest ≠ [] := by
  fun_induction statementsFrom index c with
  | case1 index c c₁ hempty =>
    intro d hd hskip
    refine ⟨.nil hd ?_, fun s hs => by cases hs⟩
    rcases Spaces.exists_passes_skipComments d with ⟨m, x, r, -, -, hx, -⟩ | ⟨hending, -⟩
    · rw [hskip] at hx
      rw [show c₁.rest = x :: r from hx] at hempty
      cases hempty
    · exact hending
  | case6 index c c₁ hempty s after hrun next hline hlt ih =>
    refine ih.map fun {ss e} hrest d hd hskip => ?_
    rw [Outcome.during_eq_done_iff] at hrun
    have hne : c₁.rest ≠ [] := fun h => hempty (by rw [h]; rfl)
    have hend : next.atLineEnd = true := by simpa using hline
    -- what follows may be taken to begin right after the statement
    have hafter : Spaces.all.skipComments after = Spaces.all.skipComments next :=
      (Spaces.skipComments_inline after).symm
    obtain ⟨haccounted, hpos⟩ := Accounted.of_parse (d := d) hd (by rw [hskip]; exact hne)
      (by rw [hskip]; exact hrun) hend fun hin => by
        rw [hafter]
        exact hrest after hin hafter
    refine ⟨haccounted, fun s' hs' => ?_⟩
    cases hs'
    exact ⟨by rw [hpos, hskip], hne⟩
  | _ => exact True.intro

/-- **Every byte of a script** belongs to a word or a mark of one of its statements, or to a margin.
The statements stand in order, each after a line break. -/
theorem parse_accounts_for_text {name text : Bytes} {p : Program}
    (h : parseFile name text = .tree p) : Accounted text 0 p.statements := by
  have htext : Source.text [⟨name, text⟩] = text := by simp [Source.text]
  rw [parseFile, Source.parseWith, htext] at h
  split at h
  · next p' next hparse =>
    dsimp only at h
    split at h
    · cases h
      obtain ⟨ss, c, hss, hp⟩ := Outcome.bind_eq_done_iff.mp hparse
      cases hp
      have hensures := (Program.ensures_statementsFrom text 0 (.start text)).of_eq hss
      exact (hensures (.start text) ⟨Nat.zero_le _, rfl⟩ rfl).1
    · cases h
  · cases h
  · cases h
  · cases h

/-- Two statements with all that can stand in them and around them. -/
def commentedScript : Bytes :=
  Bytes.ascii "// stack\n\n\tx = SLOAD.num! #1 #0 // slot 1\r\nr=ADD x 2.5\t\"//\" // end"

def commentedProgram : Program where
  pos := 0
  stop := 66
  statements :=
    [{ pos := 11, stop := 31, name := some ⟨11, Bytes.ascii "x"⟩, op := ⟨15, Bytes.ascii "SLOAD"⟩,
        ty := some ⟨21, Bytes.ascii "num"⟩, guard := true,
        args := [.lit 26 ⟨27, Bytes.ascii "1"⟩, .lit 29 ⟨30, Bytes.ascii "0"⟩] },
      { pos := 43, stop := 59, name := some ⟨43, Bytes.ascii "r"⟩, op := ⟨45, Bytes.ascii "ADD"⟩,
        ty := none, guard := false,
        args := [.ident ⟨49, Bytes.ascii "x"⟩, .float ⟨51, Bytes.ascii "2.5"⟩,
          .string ⟨55, Bytes.ascii "\"//\""⟩] }]

theorem commentedScript_accounted :
    ∃ p, parseFile [] commentedScript = .tree p ∧ p.statements.length = 2 ∧
      Accounted commentedScript 0 p.statements := by
  have hparse : parseFile [] commentedScript = .tree commentedProgram := by decide +kernel
  exact ⟨_, hparse, rfl, parse_accounts_for_text hparse⟩

end TraceIR.Script
