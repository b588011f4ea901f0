import TraceIR.Bytes
import TraceIR.Ref

/-!
# Types of values

A type is one byte: a tag in the low five bits, and the guard mark in the top bit, which says that
the instruction checks something and leaves the trace if the check fails. The two bits between
carry nothing, but they are kept.

* `Ty.ofName?` finds a tag by its short name or by one of three long ones.
* `TRef` is a reference together with the tag of its value, packed into one word.
-/

namespace TraceIR

/-- A type tag and its marks. -/
structure Ty where
  /-- The packed byte. -/
  bits : UInt8
  deriving DecidableEq, Repr, Inhabited

namespace Ty

def nil : Ty := ⟨0⟩
def false : Ty := ⟨1⟩
def true : Ty := ⟨2⟩
def str : Ty := ⟨4⟩
def ptr : Ty := ⟨5⟩
def thread : Ty := ⟨6⟩
def proto : Ty := ⟨7⟩
def func : Ty := ⟨8⟩
def tab : Ty := ⟨10⟩
def userdata : Ty := ⟨11⟩
def num : Ty := ⟨12⟩
def int : Ty := ⟨13⟩
def u16 : Ty := ⟨17⟩

/-- The type without its marks. -/
def tag (t : Ty) : Ty :=
  ⟨t.bits &&& 0x1f⟩

/-- The type with the guard mark. -/
def guarded (t : Ty) : Ty :=
  ⟨t.bits ||| 0x80⟩

/-- Is the guard mark set? -/
def isGuard (t : Ty) : Bool :=
  t.bits &&& 0x80 != 0

/-- Is `u` the tag of `t`? -/
def is (t u : Ty) : Bool :=
  t.tag == u

/-- Does the tag lie between the tags of `lo` and `hi`? -/
def between (t lo hi : Ty) : Bool :=
  lo.bits ≤ t.tag.bits && t.tag.bits ≤ hi.bits

/-- The types `nil`, `false` and `true`, which have a single value each. -/
def isPrimitive (t : Ty) : Bool :=
  t.between nil Ty.true

def isStr (t : Ty) : Bool := t.is str

def isNum (t : Ty) : Bool := t.is num

/-- Integers of any width. -/
def isInteger (t : Ty) : Bool :=
  t.between int u16

/-- Integers of any width, and floating-point numbers. -/
def isNumber (t : Ty) : Bool :=
  t.between num u16

/-- Types of collected objects. -/
def isObject (t : Ty) : Bool :=
  t.is str || t.is thread || t.is proto || t.is func || t.is tab || t.is userdata

/-- The short names by tag, each three characters wide. -/
def names : List String :=
  ["nil", "fal", "tru", "lud", "str", "p32", "thr", "pro", "fun", "t09", "tab", "udt", "num",
    "int", "i8 ", "u8 ", "i16", "u16"]

/-- The short name of the tag. -/
def name (t : Ty) : Bytes :=
  match names[t.tag.bits.toNat]? with
  | some s => Bytes.ascii s
  | none => Bytes.ascii "t??"

/-- The long names that are understood beside the short ones. -/
def longNames : List (String × Ty) :=
  [("false", Ty.false), ("true", Ty.true), ("ptr", ptr)]

/-- The type with a given name, whatever its letter case. A short name is meant without the
space that fills it. -/
def ofName? (name : Bytes) : Option Ty :=
  let name := name.lower
  match names.findIdx? fun s => (Bytes.ascii s).trimRight == name with
  | some i => some ⟨UInt8.ofNat i⟩
  | none => longNames.findSome? fun (s, t) => if Bytes.ascii s == name then some t else none

end Ty

/-! ### Typed references -/

/-- A reference with the tag of its value: the reference in the low 16 bits, the type byte in the
top 8. -/
structure TRef where
  bits : UInt32
  deriving DecidableEq, Repr, Inhabited

namespace TRef

/-- The word that stands for no result. -/
def none : TRef := ⟨0⟩

/-- Pack a reference with the tag of `t`. -/
def of (r : Ref) (t : Ty) : TRef :=
  ⟨r ||| t.tag.bits.toUInt32 <<< 24⟩

/-- The reference. -/
def ref (x : TRef) : Ref :=
  x.bits &&& 0xffff

/-- The type byte. -/
def ty (x : TRef) : Ty :=
  ⟨(x.bits >>> 24).toUInt8⟩

/-- Does it refer to a constant? -/
def isConst (x : TRef) : Bool :=
  x.ref.isConst

end TRef

end TraceIR
