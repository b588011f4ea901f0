import TraceIR.Numeral

/-!
# Points in time

A date, or a date and a time of day. The time follows after a `T` and ends with its zone, or it
follows after a space and has no zone.

* `Timestamp.isValid` says whether a text is a point in time.
-/

namespace TraceIR.Yaml.Timestamp

open Numeral

/-- Read a number of one or two digits. -/
def short? : Bytes → Option (Nat × Bytes)
  | [] => none
  | a :: r =>
    if !isDigit a then none
    else if r.head?.any isDigit then some (digitsValue (a :: r.take 1), r.drop 1)
    else some (digitsValue [a], r)

/-- Read a number of one or two digits below a limit. -/
def below? (limit : Nat) (b : Bytes) : Option (Nat × Bytes) := do
  let (n, r) ← short? b
  if n < limit then some (n, r) else none

/-- Read a certain character. -/
def mark? (c : UInt8) : Bytes → Option Bytes
  | d :: r => if c = d then some r else none
  | [] => none

/-! ### Dates -/

def isLeap (year : Nat) : Bool :=
  year % 4 == 0 && (year % 100 != 0 || year % 400 == 0)

/-- The number of days of a month, counted from 1. -/
def days (year month : Nat) : Nat :=
  if month = 2 then (if isLeap year then 29 else 28)
  else if month = 4 ∨ month = 6 ∨ month = 9 ∨ month = 11 then 30
  else 31

/-- Pass a date: a year of four digits, a month and a day. -/
def date? (b : Bytes) : Option Bytes := do
  let (year, r) := b.span isDigit
  let (month, r) ← mark? 0x2d r >>= below? 13
  let (day, r) ← mark? 0x2d r >>= short?
  if year.length = 4 ∧ 1 ≤ month ∧ 1 ≤ day ∧ day ≤ days (digitsValue year) month then some r
  else none

/-! ### Times -/

/-- Pass the fraction of a second, if there is one. -/
def fraction : Bytes → Bytes
  | c :: d :: r =>
    if (c == 0x2e || c == 0x2c) && isDigit d then r.dropWhile isDigit else c :: d :: r
  | b => b

/-- Pass a time of day. -/
def time? (b : Bytes) : Option Bytes := do
  let (_, r) ← below? 24 b
  let (_, r) ← mark? 0x3a r >>= below? 60
  let (_, r) ← mark? 0x3a r >>= below? 60
  return fraction r

/-- Is this a zone: a `Z`, or a distance in hours and minutes? -/
def isZone : Bytes → Bool
  | [0x5a] => true
  | [sign, a, b, colon, c, d] =>
    (sign == 0x2b || sign == 0x2d) && colon == 0x3a && [a, b, c, d].all isDigit &&
      digitsValue [a, b] ≤ 24 && digitsValue [c, d] ≤ 60
  | _ => false

/-- Is this a time of day after a date, with the character before it? -/
def isTime : Bytes → Bool
  | [] => true
  | c :: r =>
    if c == 0x54 || c == 0x74 then (time? r).any isZone
    else if c == 0x20 then (time? (r.dropWhile (· == 0x20))).any (·.isEmpty)
    else false

/-- Is a text a point in time? -/
def isValid (b : Bytes) : Bool :=
  (date? b).any isTime

end TraceIR.Yaml.Timestamp
