import TraceIR.Trace.Emit

/-!
# Conversions

`Trace.coerce` converts a value to a number, a string, an integer or the operand of a bit
operation. A value that has the wanted type already is returned as it is. Strings are first read as
numbers, which is a guard: the text need not spell one.
-/

namespace TraceIR.Trace

/-- The literal operand of an integer conversion whose result need not be checked. -/
def anyInteger : Ref := 2

/-- Read a string as a number, guarded. -/
def stringToNumber (x : TRef) : Action TRef :=
  emit .strto Ty.num.guarded x.ref Ref.none

/-- A number from a number or a string, on the way to another type. -/
def numberOrString (c : Coercion) (x : TRef) : Action TRef :=
  if x.ty.isStr then stringToNumber x
  else if x.ty.isNum then pure x
  else refuse (.badType c x.ty)

/-- Convert to a floating-point number. -/
def toNum (x : TRef) : Action TRef :=
  if x.ty.isNum then pure x
  else if x.ty.isInteger then emit .tonum Ty.num x.ref Ref.none
  else if x.ty.isStr then stringToNumber x
  else refuse (.badType .toNum x.ty)

/-- Convert to a string. -/
def toStr (x : TRef) : Action TRef :=
  if x.ty.isStr then pure x
  else if x.ty.isNumber then emit .tostr Ty.str x.ref Ref.none
  else refuse (.badType .toStr x.ty)

/-- Convert to the operand of a bit operation. Overflow wraps around. -/
def toBit (x : TRef) : Action TRef := do
  if x.ty.isInteger then pure x
  else
    let x ← numberOrString .toBit x
    let k ← knumToBit
    emit .tobit Ty.int x.ref k.ref

/-- Convert to an integer. -/
def toInt (x : TRef) : Action TRef := do
  if x.ty.isInteger then pure x
  else
    let x ← numberOrString .toInt x
    emit .toint Ty.int x.ref anyInteger

/-- Convert a value. -/
def coerce : Coercion → TRef → Action TRef
  | .toNum => toNum
  | .toStr => toStr
  | .toBit => toBit
  | .toInt => toInt

end TraceIR.Trace
