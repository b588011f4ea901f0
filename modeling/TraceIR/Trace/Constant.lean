import TraceIR.Trace.Chain

/-!
# Interned constants

A constant is asked for by its value. If the trace holds it already, the answer is its reference,
so two references to constants are equal exactly if the constants are.

* `Trace.kint` and its companions intern a constant of each kind. `Trace.Constant` is a request for
  any of these but the fixed ones.
* `Trace.value` reads a constant back.
-/

namespace TraceIR.Trace

/-- The constant of an opcode that satisfies `same`, read at type `ty`, or else the new constant
`x`. -/
def intern (same : Record → Bool) (ty : Ty) (x : Record) : Action TRef := do
  match ← find x.op same with
  | some r => return .of r ty
  | none => addConstant x

/-- An integer. -/
def kint (k : Int32) : Action TRef :=
  intern (·.payload.asInt == k) Ty.int { op := .kint, ty := Ty.int, payload := .int k }

/-- A floating-point number in a known slot. -/
def knumSlot (s : NumSlot) : Action TRef :=
  intern (·.payload.num? == some s) Ty.num { op := .knum, ty := Ty.num, payload := .num s }

/-- A floating-point number. It gets a slot of the pool even if there is no room for the
constant. -/
def knum (x : Binary64) : Action TRef := do
  let (slot, pool) := (← get).pool.find x
  modify fun t => { t with pool }
  knumSlot (.pooled slot)

/-- A number: an integer constant if it is exactly one, a floating-point constant otherwise. -/
def knumInt (x : Binary64) : Action TRef :=
  match x.int32? with
  | some k => kint k
  | none => knum x

/-- Adding `2 ^ 52 + 2 ^ 51` to a number moves its integer bits to the low end of the pattern. -/
def bitBias : Binary64 := ⟨0x4338000000000000⟩

/-- The number that conversions to bits add. -/
def knumToBit : Action TRef :=
  knum bitBias

/-- The mask that clears a sign. -/
def knumAbs : Action TRef :=
  knumSlot .absMask

/-- The mask that flips a sign. -/
def knumNeg : Action TRef :=
  knumSlot .negMask

/-- A collected object. An object known already is read at the type asked for. -/
def kgc (o : Option Object) (ty : Ty) : Action TRef := do
  match o with
  | none => breach .missingObject
  | some o =>
    intern (·.payload.object? == some o) ty.tag { op := .kgc, ty := ty.tag, payload := .object o }

/-- A pointer. -/
def kptr (p : UInt64) : Action TRef :=
  intern (·.payload.asPointer == p) Ty.ptr { op := .kptr, ty := Ty.ptr, payload := .pointer p }

/-- The null of a type. -/
def knull (ty : Ty) : Action TRef :=
  intern (·.ty.tag == ty.tag) ty { op := .knull, ty := ty.tag }

/-- A constant key together with the number of its slot in a table. -/
def kslot (key : TRef) (slot : Ref) : Action TRef := do
  if !key.isConst ∨ Ref.limit < slot then breach (.badSlotKey key.ref slot)
  intern (fun x => x.left == key.ref && x.right == slot) Ty.ptr
    { op := .kslot, ty := Ty.ptr, left := key.ref, right := slot }

/-- One of the three fixed constants. -/
def kpri (ty : Ty) : Except Breach TRef :=
  if ty.isPrimitive then .ok (.of (fixedRef ty) ty) else .error (.notPrimitive ty)

/-! ### Requests -/

/-- A request for a constant. -/
inductive Constant where
  | int (k : Int32)
  | num (x : Binary64)
  | numInt (x : Binary64)
  | numToBit
  | numAbs
  | numNeg
  | object (o : Option Object) (ty : Ty)
  | pointer (p : UInt64)
  | null (ty : Ty)
  | slot (key : TRef) (slot : Ref)

/-- Intern what is asked for. -/
def Constant.intern : Constant → Action TRef
  | int k => kint k
  | num x => knum x
  | numInt x => knumInt x
  | numToBit => knumToBit
  | numAbs => knumAbs
  | numNeg => knumNeg
  | object o ty => kgc o ty
  | pointer p => kptr p
  | null ty => knull ty
  | slot key n => kslot key n

/-! ### Values -/

/-- The value of a constant record. -/
def recordValue (t : Trace) (x : Record) : Except Fault Value :=
  match x.op with
  | .kpri =>
    if x.ty.is Ty.false then .ok (.bool false)
    else if x.ty.is Ty.true then .ok (.bool true)
    else .ok .nil
  | .kint => .ok (.int x.payload.asInt)
  | .knum =>
    match x.payload.num?.bind (·.value? t.pool) with
    | some v => .ok (.num v)
    | none => .error (.broken .missingNumber)
  | .kgc =>
    match x.payload.object? with
    | some o => .ok o.value
    | none => .ok .nil
  | .kptr | .knull => .ok (.pointer x.payload.asPointer)
  | op => .error (.refused (.noValue op))

/-- The value of the constant at a reference. -/
def value (t : Trace) (r : Ref) : Except Fault Value :=
  if r.isConst then
    match t.record? r with
    | .ok x => t.recordValue x
    | .error b => .error (.broken b)
  else .error (.refused (.notConstant r))

end TraceIR.Trace
