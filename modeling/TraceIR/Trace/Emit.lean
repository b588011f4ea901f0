import TraceIR.Opcode.Compare
import TraceIR.Trace.Constant

/-!
# Emission through the optimisations

An instruction on its way into a trace is first brought into a standard form, then decided if it
compares two constants, and then looked for among the instructions already there.

* `Trace.foldComparison` decides a comparison of two constants. One that holds needs no guard; one
  that fails makes the whole trace useless and is refused.
* `Trace.emitShared` returns an equal earlier instruction instead of adding a second copy.
* `Trace.emit` is the way in.
-/

namespace TraceIR.Trace

/-! ### Comparisons of constants -/

/-- The text of a constant of string type. -/
def stringText? (t : Trace) (r : Ref) (v : Value) : Option Bytes :=
  match t.record? r with
  | .ok x => if x.ty.isStr then v.text? else none
  | .error _ => none

/-- The outcome of a comparison of the constants `a` and `b`, if it can be decided. Numbers are
compared by value, so a NaN differs even from itself. Other constants are interned: one reference
is one value. Objects of string type are ordered by their text. -/
def outcome? (t : Trace) (op : Opcode) (a b : Ref) (va vb : Value) : Option Bool :=
  match va.number?, vb.number? with
  | some x, some y => op.compareNumbers? x y
  | _, _ =>
    if a = b ∧ (op = .eq ∨ op = .ne) then some (op == .eq)
    else
      match t.stringText? a va, t.stringText? b vb with
      | some x, some y => op.compareTexts? x y
      | _, _ => none

/-- The result of a comparison of two constants, if it can be decided. A constant that has no
value leaves it open. -/
def foldComparison (t : Trace) (op : Opcode) (a b : Ref) : Except Fault (Option TRef) :=
  match t.value a, t.value b with
  | .ok va, .ok vb =>
    match t.outcome? op a b va vb with
    | some true => .ok (some (.of (fixedRef Ty.true) Ty.true))
    | some false => .error (.refused (.guardFails op va vb))
    | none => .ok none
  | .error (.refused _), _ => .ok none
  | .error f, _ => .error f
  | _, .error (.refused _) => .ok none
  | _, .error f => .error f

/-! ### Common subexpressions -/

/-- Append an instruction unless an equal one is there already. Only instructions newer than both
operands can be equal to it, so the search ends at the newer operand. -/
def emitShared (op : Opcode) (ty : Ty) (a b : Ref) : Action TRef := do
  let found ← ask fun t => t.search op fun r x =>
    if r ≤ max a b then some none
    else if x.left == a && x.right == b && x.ty.tag == ty.tag then some (some r)
    else none
  match found.join with
  | some r => return .of r ty
  | none => emitRaw op ty a b

/-! ### The way in -/

/-- Put an instruction into the trace, sharing it if it depends on its operands alone. -/
def place (f : Folder) (op : Opcode) (ty : Ty) (a b : Ref) : Action TRef :=
  if f.cse && op.isNormal then emitShared op ty a b else emitRaw op ty a b

/-- Decide an instruction or put it into the trace. -/
def emitDecided (f : Folder) (op : Opcode) (ty : Ty) (a b : Ref) : Action TRef := do
  if f.fold && op.isComparison && a.isConst && b.isConst then
    match (← get).foldComparison op a b with
    | .ok (some x) => pure x
    | .ok none => place f op ty a b
    | .error e => throw e
  else place f op ty a b

/-- Emit an instruction. Constants have lower references than instructions, so ordering the
operands of a commutative instruction puts constants on the right. -/
def emit (op : Opcode) (ty : Ty) (a b : Ref) : Action TRef := do
  match (← get).folder with
  | none => emitRaw op ty a b
  | some f =>
    if f.fold && op.shape.commutative && a < b then emitDecided f op ty b a
    else emitDecided f op ty a b

end TraceIR.Trace
