import TraceIR.Bytes

/-!
# Opcodes

The closed list of operations an instruction can have, and the static facts about each: what its
two operands are, whether it reads or writes memory, whether it commutes, and whether it is a
guard by nature.

* `Opcode.shape` is the table of those facts; everything else is read off it.
* `Opcode.ofName?` finds an opcode by name, whatever the letter case.
-/

namespace TraceIR

/-- What an operand of an instruction is. -/
inductive OperandKind where
  /-- A reference to an earlier instruction or a constant. -/
  | ref
  /-- A small number. -/
  | lit
  /-- The value of a constant, kept beside the operands. -/
  | const
  | absent
  deriving DecidableEq, Repr, Inhabited

/-- How an instruction touches memory. -/
inductive MemoryKind where
  | normal
  | alloc
  | load
  | store
  deriving DecidableEq, Repr, Inhabited

/-- The static facts about an opcode. -/
structure Shape where
  memory : MemoryKind
  guard : Bool
  commutative : Bool
  left : OperandKind
  right : OperandKind
  deriving DecidableEq, Repr, Inhabited

namespace Shape

def plain (l r : OperandKind) : Shape := ⟨.normal, false, false, l, r⟩
def commuting (l r : OperandKind) : Shape := ⟨.normal, false, true, l, r⟩
def check (l r : OperandKind) : Shape := ⟨.normal, true, false, l, r⟩
def checkCommuting (l r : OperandKind) : Shape := ⟨.normal, true, true, l, r⟩
def alloc (l r : OperandKind) : Shape := ⟨.alloc, false, false, l, r⟩
def load (l r : OperandKind) : Shape := ⟨.load, false, false, l, r⟩
def checkedLoad (l r : OperandKind) : Shape := ⟨.load, true, false, l, r⟩
def store (l r : OperandKind) : Shape := ⟨.store, false, false, l, r⟩

end Shape

/-- What leaving an instruction out would lose. -/
inductive Effect where
  | pure
  | side
  | guard
  deriving DecidableEq, Repr, Inhabited

/-- The word for an effect, and for a number that stands for none. -/
def Effect.name : Option Effect → String
  | some .pure => "pure"
  | some .side => "side"
  | some .guard => "guard"
  | none => "effect?"

/-- The effect with a given number. -/
def Effect.ofIndex? (n : Nat) : Option Effect :=
  [Effect.pure, .side, .guard][n]?

/-- The operations. Bookkeeping first, then constants, comparisons, bit operations, arithmetic,
addresses, loads, stores, allocations and conversions. The order counts: histograms and chain
listings follow it. -/
inductive Opcode where
  | nop | base | loop | phi | rename
  | kpri | kint | kgc | kptr | knull | knum | kslot
  | eq | ne | abc | frame | lt | ge | le | gt | ult | uge | ule | ugt
  | bnot | bswap | band | bor | bxor | bshl | bshr | bsar | brol | bror
  | add | sub | mul | div | fpmath | powi | neg | abs | atan2 | ldexp | min | max
  | addov | subov
  | aref | hrefk | href | newref | urefo | urefc | fref | strref
  | aload | hload | uload | fload | sload | xload
  | astore | hstore | ustore | fstore
  | snew | tnew | tdup | tlen | tbar | obar
  | tonum | toint | tobit | tostr | strto
  deriving DecidableEq, Repr, Inhabited

namespace Opcode

/-- All opcodes in order. -/
def all : List Opcode :=
  [.nop, .base, .loop, .phi, .rename, .kpri, .kint, .kgc, .kptr, .knull, .knum, .kslot, .eq,
    .ne, .abc, .frame, .lt, .ge, .le, .gt, .ult, .uge, .ule, .ugt, .bnot, .bswap, .band, .bor,
    .bxor, .bshl, .bshr, .bsar, .brol, .bror, .add, .sub, .mul, .div, .fpmath, .powi, .neg,
    .abs, .atan2, .ldexp, .min, .max, .addov, .subov, .aref, .hrefk, .href, .newref, .urefo,
    .urefc, .fref, .strref, .aload, .hload, .uload, .fload, .sload, .xload, .astore, .hstore,
    .ustore, .fstore, .snew, .tnew, .tdup, .tlen, .tbar, .obar, .tonum, .toint, .tobit, .tostr,
    .strto]

/-- The number of opcodes. -/
def count : Nat := 77

theorem mem_all (op : Opcode) : op ∈ all := by
  cases op <;> decide

/-- The place of an opcode in the order. -/
def index (op : Opcode) : Fin count :=
  ⟨op.ctorIdx, by cases op <;> decide⟩

theorem all_getElem_index (op : Opcode) : all[op.index.val]? = some op := by
  cases op <;> rfl

theorem index_injective {a b : Opcode} (h : a.index = b.index) : a = b := by
  have ha := all_getElem_index a
  rw [h, all_getElem_index b] at ha
  exact (Option.some.inj ha).symm

/-- The opcode at a place of the order. -/
def ofIndex? (n : Nat) : Option Opcode :=
  all[n]?

/-- The name in dumps and scripts. -/
def name : Opcode → String
  | .nop => "NOP"
  | .base => "BASE"
  | .loop => "LOOP"
  | .phi => "PHI"
  | .rename => "RENAME"
  | .kpri => "KPRI"
  | .kint => "KINT"
  | .kgc => "KGC"
  | .kptr => "KPTR"
  | .knull => "KNULL"
  | .knum => "KNUM"
  | .kslot => "KSLOT"
  | .eq => "EQ"
  | .ne => "NE"
  | .abc => "ABC"
  | .frame => "FRAME"
  | .lt => "LT"
  | .ge => "GE"
  | .le => "LE"
  | .gt => "GT"
  | .ult => "ULT"
  | .uge => "UGE"
  | .ule => "ULE"
  | .ugt => "UGT"
  | .bnot => "BNOT"
  | .bswap => "BSWAP"
  | .band => "BAND"
  | .bor => "BOR"
  | .bxor => "BXOR"
  | .bshl => "BSHL"
  | .bshr => "BSHR"
  | .bsar => "BSAR"
  | .brol => "BROL"
  | .bror => "BROR"
  | .add => "ADD"
  | .sub => "SUB"
  | .mul => "MUL"
  | .div => "DIV"
  | .fpmath => "FPMATH"
  | .powi => "POWI"
  | .neg => "NEG"
  | .abs => "ABS"
  | .atan2 => "ATAN2"
  | .ldexp => "LDEXP"
  | .min => "MIN"
  | .max => "MAX"
  | .addov => "ADDOV"
  | .subov => "SUBOV"
  | .aref => "AREF"
  | .hrefk => "HREFK"
  | .href => "HREF"
  | .newref => "NEWREF"
  | .urefo => "UREFO"
  | .urefc => "UREFC"
  | .fref => "FREF"
  | .strref => "STRREF"
  | .aload => "ALOAD"
  | .hload => "HLOAD"
  | .uload => "ULOAD"
  | .fload => "FLOAD"
  | .sload => "SLOAD"
  | .xload => "XLOAD"
  | .astore => "ASTORE"
  | .hstore => "HSTORE"
  | .ustore => "USTORE"
  | .fstore => "FSTORE"
  | .snew => "SNEW"
  | .tnew => "TNEW"
  | .tdup => "TDUP"
  | .tlen => "TLEN"
  | .tbar => "TBAR"
  | .obar => "OBAR"
  | .tonum => "TONUM"
  | .toint => "TOINT"
  | .tobit => "TOBIT"
  | .tostr => "TOSTR"
  | .strto => "STRTO"

/-- The name as bytes. -/
def nameBytes (op : Opcode) : Bytes :=
  Bytes.ascii op.name

/-- The name for a number that stands for no opcode. -/
def unknownName : String := "op?"

/-- The opcode with a given name, whatever its letter case. -/
def ofName? (name : Bytes) : Option Opcode :=
  let name := name.upper
  all.find? fun op => op.nameBytes == name

/-! ### Static facts -/

/-- The table of facts. -/
def shape : Opcode → Shape
  | .nop | .kpri => .plain .absent .absent
  | .base => .plain .lit .lit
  | .loop => .check .absent .absent
  | .phi | .newref | .astore | .hstore | .ustore | .fstore | .obar => .store .ref .ref
  | .rename => .store .ref .lit
  | .kint | .kgc | .kptr | .knull | .knum => .plain .const .absent
  | .kslot | .fpmath | .fref | .toint => .plain .ref .lit
  | .eq | .ne | .addov => .checkCommuting .ref .ref
  | .abc | .frame | .lt | .ge | .le | .gt | .ult | .uge | .ule | .ugt | .subov | .hrefk =>
    .check .ref .ref
  | .bnot | .bswap | .tonum | .tostr => .plain .ref .absent
  | .band | .bor | .bxor | .add | .mul | .min | .max => .commuting .ref .ref
  | .bshl | .bshr | .bsar | .brol | .bror | .sub | .div | .powi | .neg | .abs | .atan2 | .ldexp
    | .aref | .strref | .snew | .tobit => .plain .ref .ref
  | .href => .load .ref .ref
  | .urefo | .urefc => .checkedLoad .ref .lit
  | .aload | .hload | .uload => .checkedLoad .ref .absent
  | .fload | .xload => .load .ref .lit
  | .sload => .checkedLoad .lit .lit
  | .tnew => .alloc .lit .lit
  | .tdup => .alloc .ref .absent
  | .tlen => .load .ref .absent
  | .tbar => .store .ref .absent
  | .strto => .check .ref .absent

/-- Is it the opcode of a constant? -/
def isConst : Opcode → Bool
  | .kpri | .kint | .kgc | .kptr | .knull | .knum | .kslot => true
  | _ => false

/-- Is it an equality or an ordering? -/
def isComparison : Opcode → Bool
  | .eq | .ne | .lt | .ge | .le | .gt | .ult | .uge | .ule | .ugt => true
  | _ => false

/-- Does its result depend on the operands alone? -/
def isNormal (op : Opcode) : Bool :=
  op.shape.memory == .normal

/-- Guards and stores have to stay even if nobody uses their result. -/
def hasSideEffect (op : Opcode) : Bool :=
  op.shape.guard || op.shape.memory == .store

/-- The effect of an opcode. -/
def effect (op : Opcode) : Effect :=
  if op.shape.guard then .guard else if op.hasSideEffect then .side else .pure

end Opcode

/-! ### The packed form of the facts -/

/-- Two bits for an operand. -/
def OperandKind.code : OperandKind → UInt8
  | .ref => 0
  | .lit => 1
  | .const => 2
  | .absent => 3

/-- Two bits for the memory kind. -/
def MemoryKind.code : MemoryKind → UInt8
  | .normal => 0
  | .alloc => 1
  | .load => 2
  | .store => 3

/-- All facts in one byte: the operands in the low four bits, then a bit for commutativity, two
for the memory kind and one for the guard. -/
def Shape.code (s : Shape) : UInt8 :=
  let commutes : UInt8 := if s.commutative then 0x10 else 0
  let guards : UInt8 := if s.guard then 0x80 else 0
  s.left.code ||| s.right.code <<< 2 ||| commutes ||| s.memory.code <<< 5 ||| guards

end TraceIR
