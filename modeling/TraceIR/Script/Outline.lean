import TraceIR.Script.Tree

/-!
# Outlines of scripts

A printed form of syntax trees that shows where every piece of a statement stands, and not what is
written there. Names and types are only marked as present.
-/

namespace TraceIR.Script

/-- The span of a piece of text. -/
def spanText (pos stop : Nat) : Bytes :=
  Bytes.ascii "Base:\x7bPos:" ++ Bytes.decimal pos ++ Bytes.ascii " End:" ++ Bytes.decimal stop
    ++ Bytes.ascii "\x7d"

/-- A piece of text as its span. -/
def Lexeme.outline (l : Lexeme) : Bytes :=
  Bytes.ascii "\x7b" ++ spanText l.pos l.stop ++ Bytes.ascii "\x7d"

/-- An argument as its span. A number after `#` has a span of its own. -/
def Arg.outline : Arg → Bytes
  | .int l | .float l | .string l | .ident l => l.outline
  | .lit p l =>
    Bytes.ascii "\x7b" ++ spanText p l.stop ++ Bytes.ascii " Val:" ++ l.outline
      ++ Bytes.ascii "\x7d"

/-- The mark for a piece that may be missing. -/
def presence (l : Option Lexeme) : Bytes :=
  if l.isSome then Bytes.ascii "PTR" else Bytes.ascii "<nil>"

/-- A statement as its spans. -/
def Statement.outline (s : Statement) : Bytes :=
  Bytes.ascii "\x7b" ++ spanText s.pos s.stop
    ++ Bytes.ascii " Name:" ++ presence s.name
    ++ Bytes.ascii " Op:" ++ s.op.outline
    ++ Bytes.ascii " Type:" ++ presence s.ty
    ++ Bytes.ascii " Guard:" ++ Bytes.ascii (if s.guard then "true" else "false")
    ++ Bytes.ascii " Args:[" ++ (Bytes.ascii " ").intercalate (s.args.map Arg.outline)
    ++ Bytes.ascii "]\x7d"

/-- The number of statements, and then each of them on its line. -/
def Program.outline (p : Program) : Bytes :=
  Bytes.decimal p.statements.length ++ Bytes.ascii " statements\n"
    ++ p.statements.flatMap fun s => s.outline ++ Bytes.ascii "\n"

end TraceIR.Script
