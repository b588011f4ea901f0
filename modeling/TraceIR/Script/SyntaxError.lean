import TraceIR.Text.Quoted

/-!
# Syntax errors

What a parser missed, inside the steps that led there. The wording is in `SyntaxError.message`;
the offset of an error is not part of it.
-/

namespace TraceIR.Script

/-- The kinds of parsers, for messages. -/
inductive ParserKind where
  | none | num | int | float | lit | ident | string | arg | stmt | program
  | const | optional | context | allOf | anyOf | many | spaced
  deriving DecidableEq, Repr, Inhabited

/-- The word for a kind of parser. -/
def ParserKind.name : ParserKind → Bytes
  | .none => Bytes.ascii "parse.None"
  | .num => Bytes.ascii "parse.Num"
  | .int => Bytes.ascii "parse.Int"
  | .float => Bytes.ascii "parse.Float"
  | .lit => Bytes.ascii "parse.Lit"
  | .ident => Bytes.ascii "parse.Ident"
  | .string => Bytes.ascii "parse.String"
  | .arg => Bytes.ascii "parse.Arg"
  | .stmt => Bytes.ascii "parse.Stmt"
  | .program => Bytes.ascii "parse.Program"
  | .const => Bytes.ascii "parse.Const"
  | .optional => Bytes.ascii "parse.Optional"
  | .context => Bytes.ascii "parse.Context"
  | .allOf => Bytes.ascii "parse.AllOf"
  | .anyOf => Bytes.ascii "parse.AnyOf"
  | .many => Bytes.ascii "parse.Many"
  | .spaced => Bytes.ascii "parse.Spacer"

/-- A step of a parser inside which an error arose. -/
inductive Step where
  | lit
  | op
  | type
  | args
  | statement (index : Nat)
  | item (index : Nat)
  | before
  | within
  | after
  | alternative (kind : ParserKind)
  | member (kind : ParserKind) (index : Nat)
  deriving DecidableEq, Repr, Inhabited

/-- What a parser missed. -/
inductive SyntaxError where
  | expected (what : ParserKind)
  | intGotFloat
  | badCharacter
  | newlineInString
  | unterminatedString
  | endOfLineExpected
  | textExpected (text : Bytes)
  | noneOf (kinds : List ParserKind)
  | inside (step : Step) (cause : SyntaxError)
  deriving DecidableEq, Repr, Inhabited

/-- The wording of a step. -/
def Step.message : Step → Bytes
  | .lit => Bytes.ascii "lit"
  | .op => Bytes.ascii "op"
  | .type => Bytes.ascii "type"
  | .args => Bytes.ascii "args"
  | .statement i => Bytes.ascii "stmt " ++ Bytes.decimal i
  | .item i => Bytes.ascii "item " ++ Bytes.decimal i
  | .before => Bytes.ascii "pre"
  | .within => Bytes.ascii "of"
  | .after => Bytes.ascii "post"
  | .alternative k => k.name
  | .member k i => k.name ++ Bytes.ascii " (" ++ Bytes.decimal i ++ Bytes.ascii ")"

/-- The word for what a parser of a given kind reads. -/
def ParserKind.expectation : ParserKind → Bytes
  | .num => Bytes.ascii "Num"
  | .int => Bytes.ascii "Int"
  | .float => Bytes.ascii "Float"
  | .lit => Bytes.ascii "Lit"
  | .ident => Bytes.ascii "Ident"
  | .string => Bytes.ascii "String"
  | .arg => Bytes.ascii "Arg"
  | k => k.name

/-- A list in words: commas between, and `or` before the last one. -/
def enumeration : List Bytes → Bytes
  | [] => Bytes.ascii "<none>"
  | [x] => x
  | x :: xs =>
    x ++ (xs.dropLast.flatMap fun y => Bytes.ascii ", " ++ y)
      ++ Bytes.ascii " or " ++ xs.getLastD []

/-- The wording of a syntax error. -/
def SyntaxError.message : SyntaxError → Bytes
  | .expected k => k.expectation ++ Bytes.ascii " expected"
  | .intGotFloat => Bytes.ascii "Int expected, got Float"
  | .badCharacter => Bytes.ascii "bad rune"
  | .newlineInString => Bytes.ascii "newline in string"
  | .unterminatedString => Bytes.ascii "unterminated string"
  | .endOfLineExpected => Bytes.ascii "end of line expected"
  | .textExpected t => Quoted.write t ++ Bytes.ascii " expected"
  | .noneOf ks => Bytes.ascii "expected " ++ enumeration (ks.map (·.name))
  | .inside s e => s.message ++ Bytes.ascii ": " ++ e.message

end TraceIR.Script
