import TraceIR.Text.Base64
import TraceIR.Yaml.Node
import TraceIR.Yaml.Timestamp

/-!
# What scalars stand for

A plain scalar is a number, a truth value or nothing if it looks like one, and a text otherwise. A
scalar that is not plain is a text. A tag says what a scalar has to be. Points in time are kept as
their texts.

* `Value.ofScalar?` gives the value of a scalar. A scalar that is not what its tag says has none.
-/

namespace TraceIR.Yaml

/-- What a scalar stands for. -/
inductive Value where
  | null
  | bool (b : Bool)
  | int (n : Int)
  | float (x : Binary64)
  | text (s : Bytes)
  deriving DecidableEq, Repr, Inhabited

namespace Value

/-- Not a number. -/
def nan : Value := .float (.ofMagnitude false (Binary64.infinite + 1))

def infinity (negative : Bool) : Value := .float (.ofMagnitude negative Binary64.infinite)

/-- The spellings of values that are known by their whole text. -/
def words : List (Bytes × Value) :=
  [("", .null), ("~", .null), ("null", .null), ("Null", .null), ("NULL", .null),
    ("true", .bool true), ("True", .bool true), ("TRUE", .bool true),
    ("false", .bool false), ("False", .bool false), ("FALSE", .bool false),
    (".nan", nan), (".NaN", nan), (".NAN", nan),
    (".inf", infinity false), (".Inf", infinity false), (".INF", infinity false),
    ("+.inf", infinity false), ("+.Inf", infinity false), ("+.INF", infinity false),
    ("-.inf", infinity true), ("-.Inf", infinity true), ("-.INF", infinity true)].map
    fun (s, v) => (Bytes.ascii s, v)

/-- An integer in base two or eight whose sign stands after the mark of the base. -/
def lateSigned? : Bytes → Option Int
  | 0x30 :: mark :: sign :: d :: ds =>
    let base := if mark = 0x62 then 2 else if mark = 0x6f then 8 else 0
    match Numeral.readDigits base 0x8000000000000000 0 (d :: ds) with
    | .ok n =>
      if sign = 0x2d then some (-n)
      else if sign = 0x2b ∧ n < 0x8000000000000000 then some n
      else none
    | .error _ => none
  | _ => none

/-- The number that a text beginning with a digit or a sign stands for. Underscores are not
counted. -/
def number? (s : Bytes) : Option Value :=
  let s := s.filter (· != 0x5f)
  match Numeral.integer 64 s, Numeral.natural 64 s, Numeral.decimal s with
  | .ok k, _, _ => some (.int k)
  | _, .ok n, _ => some (.int n)
  | _, _, .ok x => some (.float x)
  | _, _, _ => (lateSigned? s).map .int

/-- The fraction that a text beginning with a point stands for. Underscores may stand between
digits only. -/
def fraction? (s : Bytes) : Option Value := do
  match Numeral.decimal (← Numeral.ungroup? s) with
  | .ok x => some (.float x)
  | .error _ => none

/-- The value of a plain scalar. -/
def ofPlain (s : Bytes) : Value :=
  match words.lookup s, s.head? with
  | some v, _ => v
  | none, none => .null
  | none, some c =>
    if Numeral.isDigit c || c == 0x2b || c == 0x2d then (number? s).getD (.text s)
    else if c == 0x2e then (fraction? s).getD (.text s)
    else .text s

/-- The kind of values that a tag stands for, if it is a tag of the language itself. -/
def kindOf? (tag : Bytes) : Option Bytes :=
  match tagStem.isPrefixOf? tag with
  | some kind => some kind
  | none => (Bytes.ascii "!!").isPrefixOf? tag

/-- The value of a scalar whose tag says what kind of value it is. -/
def ofKind? (kind s : Bytes) : Option Value :=
  let is (k : String) : Bool := kind == Bytes.ascii k
  let v := ofPlain s
  if is "null" then (if v = .null then some v else none)
  else if is "bool" then
    match v with
    | .bool _ => some v
    | _ => none
  else if is "int" then
    match v with
    | .int _ => some v
    | _ => none
  else if is "float" then
    match v with
    | .float _ => some v
    | .int n => if n < 0x8000000000000000 then some (.float (Binary64.ofInt n)) else none
    | _ => none
  else if is "timestamp" then (if Timestamp.isValid s then some (.text s) else none)
  else if is "binary" then (Base64.decode? s).map .text
  else some (.text s)

/-- The value of a scalar. A tag that is not known leaves it a text. -/
def ofScalar? (tag : Option Bytes) (plain : Bool) (s : Bytes) : Option Value :=
  match tag with
  | none => some (if plain then ofPlain s else .text s)
  | some tag =>
    match kindOf? tag with
    | some kind => ofKind? kind s
    | none => some (.text s)

end Value

end TraceIR.Yaml
