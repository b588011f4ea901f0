import TraceIR.Fault
import TraceIR.Numeral
import TraceIR.Script.Position
import TraceIR.Script.Tree
import TraceIR.Text.Quoted

/-!
# Errors in the meaning of a statement

What can be wrong with a statement that is well written. The wording is in `BuildError.message`.
-/

namespace TraceIR.Script

/-- What an argument has to be. -/
inductive Wanted where
  | integer
  | number
  | string
  | type
  | name
  | checkpointName
  deriving DecidableEq, Repr, Inhabited

/-- The word for what an argument has to be. -/
def Wanted.word : Wanted → Bytes
  | .integer => Bytes.ascii "integer"
  | .number => Bytes.ascii "number"
  | .string => Bytes.ascii "string"
  | .type => Bytes.ascii "type"
  | .name => Bytes.ascii "name"
  | .checkpointName => Bytes.ascii "checkpoint name"

/-- The ways to read a numeral. -/
inductive NumeralKind where
  | integer
  | pattern
  | fraction
  deriving DecidableEq, Repr, Inhabited

/-- The words in front of an error of a numeral. -/
def NumeralKind.message : NumeralKind → Bytes
  | .integer => Bytes.ascii "parse int: strconv.ParseInt"
  | .pattern => Bytes.ascii "bits: strconv.ParseUint"
  | .fraction => Bytes.ascii "parse float: strconv.ParseFloat"

/-- The part of a statement in which an error arose. -/
inductive Part where
  | operand (index : Nat)
  | key
  | slot
  | snapshot (index : Nat)
  deriving DecidableEq, Repr, Inhabited

/-- The wording of a part. -/
def Part.message : Part → Bytes
  | .operand i => Bytes.ascii "operand " ++ Bytes.decimal i
  | .key => Bytes.ascii "key"
  | .slot => Bytes.ascii "slot"
  | .snapshot i => Bytes.ascii "snap " ++ Bytes.decimal i

/-- What is wrong with a statement. -/
inductive BuildError where
  | unknownOp (name : Bytes)
  | unknownType (name : Bytes)
  /-- Statements that are no instructions take neither a type nor a guard mark. -/
  | noTypeHere (name : Bytes)
  | constantOp (op : Opcode)
  | operandExpected (op : Opcode) (index : Nat)
  | tooManyOperands (op : Opcode)
  | typeExpected (op : Opcode)
  | literalOutOfRange (index : Nat) (value : Int)
  | argCount (name : Bytes) (wanted got : Nat)
  | wrongArg (wanted : Wanted) (got : Arg)
  | undefined (name : Bytes)
  | badNumeral (kind : NumeralKind) (text : Bytes) (e : NumeralError)
  | badString
  | objectArgs
  | notObjectType (t : Ty)
  | notPrimitiveType (t : Ty)
  | keyNotConstant
  | slotOutOfRange (value : Int)
  | unnamedCheckpoint
  | undefinedCheckpoint (name : Bytes)
  | checkpointGone (name : Bytes)
  | refused (r : Refusal)
  | inside (part : Part) (cause : BuildError)
  deriving DecidableEq, Repr, Inhabited

/-- The wording of what is wrong with a statement. -/
def BuildError.message : BuildError → Bytes
  | .unknownOp n => (Bytes.ascii "unknown op").within n
  | .unknownType n => (Bytes.ascii "unknown type").within n
  | .noTypeHere n => n.within (Bytes.ascii "type and guard are not allowed")
  | .constantOp op =>
    op.nameBytes.within (Bytes.ascii "constants are interned by k* statements")
  | .operandExpected op i =>
    op.nameBytes.within (Bytes.ascii "operand " ++ Bytes.decimal i ++ Bytes.ascii " expected")
  | .tooManyOperands op => op.nameBytes.within (Bytes.ascii "too many operands")
  | .typeExpected op => op.nameBytes.within (Bytes.ascii "result type expected")
  | .literalOutOfRange i v =>
    (Part.operand i).message.within
      (Bytes.ascii "literal " ++ Bytes.signed v ++ Bytes.ascii " out of range")
  | .argCount n wanted got =>
    n.within (Bytes.decimal wanted ++ Bytes.ascii " args expected, got " ++ Bytes.decimal got)
  | .wrongArg w a => w.word ++ Bytes.ascii " expected, got " ++ a.kindName
  | .undefined n => (Bytes.ascii "undefined").within n
  | .badNumeral k t e =>
    k.message.within ((Bytes.ascii "parsing " ++ Quoted.write t).within e.message)
  | .badString => Bytes.ascii "unquote: invalid syntax"
  | .objectArgs => Bytes.ascii "kgc: string and optional type expected"
  | .notObjectType t => Bytes.ascii "kgc: " ++ t.name ++ Bytes.ascii " is not a gc type"
  | .notPrimitiveType t => Bytes.ascii "kpri: " ++ t.name ++ Bytes.ascii " is not primitive"
  | .keyNotConstant => Bytes.ascii "kslot: key is not a constant"
  | .slotOutOfRange v =>
    Bytes.ascii "kslot: slot " ++ Bytes.signed v ++ Bytes.ascii " out of range"
  | .unnamedCheckpoint => Bytes.ascii "checkpoint must be named"
  | .undefinedCheckpoint n => (Bytes.ascii "undefined checkpoint").within n
  | .checkpointGone n => Bytes.ascii "checkpoint " ++ n ++ Bytes.ascii " is gone"
  | .refused r => r.message
  | .inside p e => p.message.within e.message

/-- The cause of an error, wherever in the statement it arose. -/
def BuildError.root : BuildError → BuildError
  | .inside _ e => e.root
  | e => e

end TraceIR.Script
