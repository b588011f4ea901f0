import TraceIR.Bytes

/-!
# Syntax trees

A script is a list of statements, one to a line:

    [name =] OP[.type][!] args...

Every piece of a statement remembers where it stands and what is written there.
-/

namespace TraceIR.Script

/-- A piece of text and its offset. -/
structure Lexeme where
  pos : Nat
  text : Bytes
  deriving DecidableEq, Repr, Inhabited

/-- The offset just after a piece of text. -/
def Lexeme.stop (l : Lexeme) : Nat :=
  l.pos + l.text.length

/-- An argument of a statement. -/
inductive Arg where
  | int (l : Lexeme)
  | float (l : Lexeme)
  /-- A number after `#`, which stands at `pos`. -/
  | lit (pos : Nat) (value : Lexeme)
  /-- A string with its quotes. -/
  | string (l : Lexeme)
  | ident (l : Lexeme)
  deriving DecidableEq, Repr, Inhabited

namespace Arg

/-- The offset of an argument. -/
def pos : Arg → Nat
  | .int l | .float l | .string l | .ident l => l.pos
  | .lit p _ => p

/-- The offset just after an argument. -/
def stop : Arg → Nat
  | .int l | .float l | .string l | .ident l | .lit _ l => l.stop

/-- What is written. -/
def text : Arg → Bytes
  | .int l | .float l | .string l | .ident l => l.text
  | .lit _ l => 0x23 :: l.text

/-- The word for the kind of an argument in messages. -/
def kindName : Arg → Bytes
  | .int _ => Bytes.ascii "ast.Int"
  | .float _ => Bytes.ascii "ast.Float"
  | .lit .. => Bytes.ascii "ast.Lit"
  | .string _ => Bytes.ascii "ast.String"
  | .ident _ => Bytes.ascii "ast.Ident"

end Arg

/-- A statement. -/
structure Statement where
  pos : Nat
  stop : Nat
  name : Option Lexeme
  op : Lexeme
  ty : Option Lexeme
  guard : Bool
  args : List Arg
  deriving DecidableEq, Repr, Inhabited

/-- A script. -/
structure Program where
  pos : Nat
  stop : Nat
  statements : List Statement
  deriving DecidableEq, Repr, Inhabited

end TraceIR.Script
