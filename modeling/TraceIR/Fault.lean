import TraceIR.Binary64.Shortest
import TraceIR.Record

/-!
# What can go wrong while recording

A `Refusal` is an ordinary answer to a request that cannot be met: the trace is full, an operand
has the wrong type, a guard could never hold. A `Breach` is a broken rule of the trace itself, and
recording cannot go on after it. The wording of both is in `Refusal.message` and
`Breach.message?`.
-/

namespace TraceIR

/-- A point to which a trace can be taken back. -/
structure Checkpoint where
  /-- The next instruction. -/
  ins : Ref
  /-- The lowest constant. -/
  const : Ref
  /-- The number of snapshots. -/
  snapshots : Int
  deriving DecidableEq, Repr, Inhabited

/-- The log form of a checkpoint. -/
def Checkpoint.wire (cp : Checkpoint) : Bytes :=
  Wire.fields
    [("ins", Wire.int cp.ins.toNat), ("k", Wire.int cp.const.toNat),
      ("snaps", Wire.int cp.snapshots)]

/-- The conversions between types of values. -/
inductive Coercion where
  | toNum
  | toStr
  | toBit
  | toInt
  deriving DecidableEq, Repr, Inhabited

/-- The word for a conversion. -/
def Coercion.name : Coercion → String
  | .toNum => "tonum"
  | .toStr => "tostr"
  | .toBit => "tobit"
  | .toInt => "toint"

/-- A request that cannot be met. -/
inductive Refusal where
  | badType (c : Coercion) (t : Ty)
  | traceOverflow
  | constOverflow
  /-- The comparison of two constants is false, so the guard could never hold. -/
  | guardFails (op : Opcode) (a b : Value)
  | notConstant (r : Ref)
  | noValue (op : Opcode)
  deriving DecidableEq, Repr, Inhabited

/-- A broken rule of the trace. -/
inductive Breach where
  /-- A reference to no live record of a trace that holds the range from `low` to below `high`. -/
  | deadRef (r low high : Ref)
  | badRollback (cp : Checkpoint) (low high : Ref)
  | setup (r : Refusal)
  /-- The buffer has to grow down, but the lowest constant is not at its lower end. -/
  | misplacedBottom (size low bottom : Ref)
  | shiftBelowZero (distance bottom : Ref)
  | growBelowZero (distance bottom : Ref)
  | missingObject
  | badSlotKey (key slot : Ref)
  | notPrimitive (t : Ty)
  /-- A snapshot refers to an instruction that is not there yet. -/
  | snapshotBeyond (index : Nat) (r high : Ref)
  | notNumeric (op : Opcode)
  | notTextual (op : Opcode)
  /-- A reference outside the buffer, or a count outside a list. -/
  | outOfBounds
  /-- A floating-point constant without a number. -/
  | missingNumber
  /-- A chain that leads back into itself. -/
  | endlessChain
  deriving DecidableEq, Repr, Inhabited

/-- Any failure of a recording step. -/
inductive Fault where
  | refused (r : Refusal)
  | broken (b : Breach)
  deriving DecidableEq, Repr, Inhabited

/-! ### Wording -/

/-- A value in a message. An opaque object has no text to show. -/
def Value.message : Value → Bytes
  | .nil => Bytes.ascii "<nil>"
  | .bool b => Bytes.ascii (if b then "true" else "false")
  | .int k => Bytes.signed k.toInt
  | .num x => x.text
  | .object o => o.text.getD (Bytes.ascii "&\x7b0\x7d")
  | .pointer p => Bytes.decimal p.toNat

/-- A checkpoint in a message. -/
def Checkpoint.message (cp : Checkpoint) : Bytes :=
  Bytes.ascii "\x7b" ++ Bytes.decimal cp.ins.toNat ++ Bytes.ascii " "
    ++ Bytes.decimal cp.const.toNat ++ Bytes.ascii " " ++ Bytes.signed cp.snapshots
    ++ Bytes.ascii "\x7d"

/-- The wording of a refusal. -/
def Refusal.message : Refusal → Bytes
  | .badType c t =>
    (Bytes.ascii c.name).within (t.name.within (Bytes.ascii "bad operand type"))
  | .traceOverflow => Bytes.ascii "trace too long"
  | .constOverflow => Bytes.ascii "too many constants"
  | .guardFails op a b =>
    (op.nameBytes ++ Bytes.ascii " " ++ a.message ++ Bytes.ascii " " ++ b.message).within
      (Bytes.ascii "guard would always fail")
  | .notConstant r => (Bytes.ascii "not a constant").within (Bytes.hexMarked r.toNat)
  | .noValue op => Bytes.ascii "no value for " ++ op.nameBytes ++ Bytes.ascii " constant"

/-- The wording of a range of references. -/
private def rangeMessage (low high : Ref) : Bytes :=
  Bytes.ascii "[" ++ Bytes.hexMarked low.toNat ++ Bytes.ascii ", " ++ Bytes.hexMarked high.toNat
    ++ Bytes.ascii ")"

/-- The wording of growth that would pass reference zero. -/
private def belowZeroMessage (verb : String) (distance bottom : Ref) : Bytes :=
  Bytes.ascii ("grow bot: " ++ verb ++ " ") ++ Bytes.decimal distance.toNat
    ++ Bytes.ascii " below ref 0 (botlim " ++ Bytes.hexMarked bottom.toNat ++ Bytes.ascii ")"

/-- The cause of a breach in words, where there are any. -/
def Breach.cause? : Breach → Option Bytes
  | .deadRef r low high =>
    some (Bytes.ascii "ref " ++ Bytes.hexMarked r.toNat ++ Bytes.ascii " out of trace "
      ++ rangeMessage low high)
  | .badRollback cp low high =>
    some (Bytes.ascii "rollback to " ++ cp.message ++ Bytes.ascii ": trace is "
      ++ rangeMessage low high)
  | .setup r => some ((Bytes.ascii "setup").within r.message)
  | .misplacedBottom size low bottom =>
    some (Bytes.ascii "grow bot: size " ++ Bytes.decimal size.toNat ++ Bytes.ascii " nk "
      ++ Bytes.hexMarked low.toNat ++ Bytes.ascii " botlim " ++ Bytes.hexMarked bottom.toNat)
  | .shiftBelowZero n bottom => some (belowZeroMessage "shift" n bottom)
  | .growBelowZero n bottom => some (belowZeroMessage "grow" n bottom)
  | .missingObject => some (Bytes.ascii "kgc: nil object")
  | .badSlotKey key slot =>
    some (Bytes.ascii "kslot: key " ++ Bytes.hexMarked key.toNat ++ Bytes.ascii " slot "
      ++ Bytes.decimal slot.toNat)
  | .notPrimitive t => some (Bytes.ascii "kpri: " ++ t.name ++ Bytes.ascii " is not primitive")
  | .snapshotBeyond i r high =>
    some (Bytes.ascii "snapshot " ++ Bytes.decimal i ++ Bytes.ascii ": ref "
      ++ Bytes.hexMarked r.toNat ++ Bytes.ascii " beyond trace end "
      ++ Bytes.hexMarked high.toNat)
  | .notNumeric op => some (Bytes.ascii "numcmp: bad op " ++ op.nameBytes)
  | .notTextual op => some (Bytes.ascii "strcmp: bad op " ++ op.nameBytes)
  | .outOfBounds | .missingNumber | .endlessChain => none

/-- The wording of a breach. A breach that is not noticed as such has none. -/
def Breach.message? (b : Breach) : Option Bytes :=
  b.cause?.map (Bytes.ascii "internal error").within

/-- The wording of any failure, where there is one. -/
def Fault.message? : Fault → Option Bytes
  | .refused r => some r.message
  | .broken b => b.message?

end TraceIR
