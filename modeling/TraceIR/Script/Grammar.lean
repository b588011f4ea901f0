import TraceIR.Script.Statement

/-!
# Grammars

Parsers as data: the words and statements of scripts, and the ways to combine parsers into larger
ones. `Grammar.run` says what a grammar does at a cursor.
-/

namespace TraceIR.Script

/-- A description of a parser. -/
inductive Grammar where
  /-- Reads nothing and always succeeds. -/
  | none
  | num
  | int
  | float
  | lit
  | ident
  | string
  | arg
  | stmt
  | program
  /-- A fixed text. -/
  | const (text : Bytes)
  /-- Something that may be missing. -/
  | optional (p : Grammar)
  /-- The result of the middle parser, between two others whose results are dropped. -/
  | context (pre of post : Grammar)
  /-- One after another. -/
  | allOf (ps : List Grammar)
  /-- Any one of them, tried in order. -/
  | anyOf (ps : List Grammar)
  /-- As many as there are, with blanks between them. -/
  | many (p : Grammar) (sep : Spaces)
  /-- After blanks. -/
  | spaced (p : Grammar) (sep : Spaces)
  deriving Repr, Inhabited

/-- What a grammar reads. -/
inductive Node where
  | none
  | const (text : Bytes)
  | word (a : Arg)
  | statement (s : Statement)
  | program (p : Program)
  | list (ns : List Node)
  deriving Repr, Inhabited

namespace Grammar

/-- The kind of a parser, for messages. -/
def kind : Grammar → ParserKind
  | .none => .none
  | .num => .num
  | .int => .int
  | .float => .float
  | .lit => .lit
  | .ident => .ident
  | .string => .string
  | .arg => .arg
  | .stmt => .stmt
  | .program => .program
  | .const _ => .const
  | .optional _ => .optional
  | .context .. => .context
  | .allOf _ => .allOf
  | .anyOf _ => .anyOf
  | .many .. => .many
  | .spaced .. => .spaced

/-- A parser that takes up nothing, or does not get going, has read nothing. -/
def orNothing (c : Cursor) : Outcome Node → Outcome Node
  | .done a next => if next.pos = c.pos then .done .none c else .done a next
  | .failed e o => if o = c.pos then .done .none c else .failed e o
  | x => x

/-- Where a parser begins. -/
inductive Zone where
  /-- Before the first byte of the text. -/
  | before
  /-- In the text or at its end. -/
  | inside
  /-- Beyond the end of the text. -/
  | beyond
  deriving DecidableEq, Repr

/-- A parser that has to look at the text, and so has to begin inside it. -/
def looking (z : Zone) (x : Outcome Node) : Outcome Node :=
  if z = .inside then x else .outside

/-- A parser that looks at the text as long as there is some left. -/
def glancing (z : Zone) (x : Outcome Node) : Outcome Node :=
  if z = .before then .outside else x

mutual

/-- What a grammar does at a cursor. A cursor that is not inside the text has nothing after it. -/
def run (z : Zone) : Grammar → Cursor → Outcome Node
  | .none, c => .done .none c
  | .num, c => glancing z ((Token.number c).map .word)
  | .int, c => glancing z ((Token.integer c).map fun l => .word (.int l))
  | .float, c => glancing z ((Token.fraction c).map .word)
  | .lit, c => looking z ((Token.literal c).map .word)
  | .ident, c => looking z ((Token.ident c).map fun l => .word (.ident l))
  | .string, c => looking z ((Token.string c).map .word)
  | .arg, c => looking z ((Arg.parse c).map .word)
  | .stmt, c => looking z ((Statement.parse c).map .statement)
  | .program, c => looking z ((Program.parse c).map .program)
  | .const text, c => looking z ((Token.fixed text c).map .const)
  | .optional p, c => orNothing c (p.run z c)
  | .context pre of post, c =>
    ((pre.run z c).during .before).bind fun _ c₁ =>
    (((of.run z c₁).during .within).rebase c₁.pos c.pos).bind fun x c₂ =>
    ((post.run z c₂).during .after).bind fun _ c₃ => .done x c₃
  | .allOf ps, c => (runAll z ps 0 c).map .list
  | .anyOf ps, c => Outcome.firstOf c.pos (runEach z ps c)
  | .many p sep, c => glancing z ((Outcome.many sep (p.run z) c).map .list)
  | .spaced p sep, c =>
    let first := sep.skip c
    glancing z (((p.run z first).during (.alternative p.kind)).rebase first.pos c.pos)

/-- One grammar after another, given how many came before. -/
def runAll (z : Zone) : List Grammar → Nat → Cursor → Outcome (List Node)
  | [], _, c => .done [] c
  | p :: ps, index, c =>
    ((p.run z c).during (.member p.kind index)).bind fun x c =>
    (runAll z ps (index + 1) c).map (x :: ·)

/-- Several grammars at one place. -/
def runEach (z : Zone) : List Grammar → Cursor → List (ParserKind × Outcome Node)
  | [], _ => []
  | p :: ps, c => (p.kind, p.run z c) :: runEach z ps c

end

/-- What a grammar does at an offset of a text. A parser that begins before the text can only stay
where it is, and the offsets of its outcome count from there. -/
def parseAt (p : Grammar) (text : Bytes) (offset : Int) : Outcome Node :=
  if offset < 0 then p.run .before ⟨0, []⟩
  else
    match Cursor.at? text offset.toNat with
    | some c => p.run .inside c
    | .none => p.run .beyond ⟨offset.toNat, []⟩

/-- What the offsets of an outcome count from. -/
def origin (offset : Int) : Int :=
  min offset 0

end Grammar

end TraceIR.Script
