import TraceIR.Script.Token

/-!
# Statements and scripts

* `Statement.parse` reads one statement. It ends with its last argument: blanks and comments after
  it do not belong to it.
* `Program.parse` reads a whole script, one statement to a line, with empty lines and comments
  anywhere between.
-/

namespace TraceIR.Script

/-- An argument. At the end of a line or before a comment there is none. -/
def Arg.parse (c : Cursor) : Outcome Arg :=
  if c.atLineEnd || c.atComment then .failed (.expected .arg) c.pos
  else Outcome.firstOf c.pos
    [(.lit, Token.literal c), (.num, Token.number c), (.string, Token.string c),
      (.ident, (Token.ident c).map Arg.ident)]

namespace Statement

/-- The name that a statement gives to its result, if it begins with one. -/
def resultName? (c : Cursor) : Option (Lexeme × Cursor) :=
  match Token.ident c with
  | .done name c =>
    match Token.fixed (Bytes.ascii "=") (Spaces.inline.skip c) with
    | .done _ c => some (name, c)
    | _ => none
  | _ => none

/-- The type after the opcode, if a point announces one. -/
def resultType (c : Cursor) : Outcome (Option Lexeme) :=
  match c.rest with
  | 0x2e :: _ => ((Token.ident (c.advance 1)).map some).during .type
  | _ => .done none c

/-- The guard mark, if it is there. -/
def guardMark (c : Cursor) : Bool × Cursor :=
  match c.rest with
  | 0x21 :: _ => (true, c.advance 1)
  | _ => (false, c)

/-- Everything from the opcode on. -/
def parseFrom (pos : Nat) (name : Option Lexeme) (c : Cursor) : Outcome Statement :=
  ((Token.ident c).during .op).bind fun op c =>
  (resultType c).bind fun ty c =>
  let (guard, c) := guardMark c
  ((Outcome.many Spaces.inline Arg.parse c).during .args).bind fun args c =>
  .done { pos, stop := c.pos, name, op, ty, guard, args } c

/-- A statement. -/
def parse (c : Cursor) : Outcome Statement :=
  match resultName? c with
  | some (name, next) => parseFrom c.pos (some name) (Spaces.inline.skip next)
  | none => parseFrom c.pos none (Spaces.inline.skip c)

end Statement

namespace Program

/-- The statements from here on, given how many came before. -/
def statementsFrom (index : Nat) (c : Cursor) : Outcome (List Statement) :=
  let c := Spaces.all.skipComments c
  if c.rest.isEmpty then .done [] c
  else
    match (Statement.parse c).during (.statement index) with
    | .failed e o => .failed e o
    | .endless => .endless
    | .outside => .outside
    | .done s next =>
      let next := Spaces.inline.skipComments next
      if !next.atLineEnd then .failed .endOfLineExpected next.pos
      else if _h : next.rest.length < c.rest.length then
        (statementsFrom (index + 1) next).map (s :: ·)
      else .endless
termination_by c.rest.length
decreasing_by exact Nat.lt_of_lt_of_le _h (Cursor.length_advance_le _ _)

/-- A script. -/
def parse (c : Cursor) : Outcome Program :=
  (statementsFrom 0 c).bind fun statements next =>
    .done { pos := c.pos, stop := next.pos, statements } next

end Program

end TraceIR.Script
