/-!
# Bytes and numerals

Scripts, object texts, messages and dumps are lists of bytes: a script may hold bytes that are no
valid UTF-8, and they have to come back unchanged. This module fixes that one representation and
the plain numerals written into it.

* `Bytes.decimal`, `Bytes.signed` and `Bytes.hex` write numbers without leading zeros.
* `Bytes.padLeft` and `Bytes.padRight` fill a field up to a width and never cut one.
-/

namespace TraceIR

/-- A text as the program sees it. It need not be valid UTF-8. -/
abbrev Bytes := List UInt8

namespace Bytes

/-- The bytes of an ASCII text, one for each character. -/
def ascii (s : String) : Bytes :=
  s.toList.map fun c => UInt8.ofNat c.toNat

/-- The UTF-8 form of a text. -/
def ofString (s : String) : Bytes :=
  s.toUTF8.toList

/-- The text that the bytes spell, if they are valid UTF-8. -/
def toString? (b : Bytes) : Option String :=
  String.fromUTF8? ⟨b.toArray⟩

/-! ### Numerals -/

/-- The digits of `n` in base `b`, most significant first. Zero has the one digit `0`. -/
def digits (b n : Nat) : List Nat :=
  if 2 ≤ b ∧ b ≤ n then digits b (n / b) ++ [n % b] else [n]
termination_by n
decreasing_by exact Nat.div_lt_self (by omega) (by omega)

/-- The lower-case character for one digit below 36. -/
def digitByte (d : Nat) : UInt8 :=
  UInt8.ofNat (if d < 10 then 0x30 + d else 0x57 + d)

/-- A natural number in base ten. -/
def decimal (n : Nat) : Bytes :=
  (digits 10 n).map digitByte

/-- A natural number in base sixteen, without a mark in front. -/
def hex (n : Nat) : Bytes :=
  (digits 16 n).map digitByte

/-- A natural number in base sixteen after `0x`. -/
def hexMarked (n : Nat) : Bytes :=
  ascii "0x" ++ hex n

/-- An integer in base ten, with a sign only if it is negative. -/
def signed : Int → Bytes
  | .ofNat n => decimal n
  | .negSucc n => ascii "-" ++ decimal (n + 1)

/-! ### Fields -/

/-- Fill with `c` on the left up to `width`. -/
def padLeft (c : UInt8) (width : Nat) (b : Bytes) : Bytes :=
  List.replicate (width - b.length) c ++ b

/-- Fill with spaces on the right up to `width`. -/
def padRight (width : Nat) (b : Bytes) : Bytes :=
  b ++ List.replicate (width - b.length) 0x20

/-- Drop the spaces at the end. -/
def trimRight (b : Bytes) : Bytes :=
  (b.reverse.dropWhile (· == 0x20)).reverse

/-- A cause after the words that say where it arose. -/
def within (outer inner : Bytes) : Bytes :=
  outer ++ ascii ": " ++ inner

@[simp] theorem length_padLeft (c : UInt8) (width : Nat) (b : Bytes) :
    (padLeft c width b).length = max width b.length := by
  simp [padLeft]; omega

@[simp] theorem length_padRight (width : Nat) (b : Bytes) :
    (padRight width b).length = max width b.length := by
  simp [padRight]; omega

/-! ### Letter case

Names of types and opcodes are found without regard to case. The simple case mapping of Unicode
reaches an ASCII letter from four characters outside ASCII only: U+0130 and U+212A lower to `i`
and `k`, U+0131 and U+017F rise to `I` and `S`. All other bytes outside ASCII stay as they are:
they can never make a name.
-/

/-- Lower-case form, as far as it can matter for an ASCII name. -/
def lower : Bytes → Bytes
  | [] => []
  | 0xc4 :: 0xb0 :: r => 0x69 :: lower r
  | 0xe2 :: 0x84 :: 0xaa :: r => 0x6b :: lower r
  | c :: r => (if 0x41 ≤ c ∧ c ≤ 0x5a then c + 0x20 else c) :: lower r

/-- Upper-case form, as far as it can matter for an ASCII name. -/
def upper : Bytes → Bytes
  | [] => []
  | 0xc4 :: 0xb1 :: r => 0x49 :: upper r
  | 0xc5 :: 0xbf :: r => 0x53 :: upper r
  | c :: r => (if 0x61 ≤ c ∧ c ≤ 0x7a then c - 0x20 else c) :: upper r

end Bytes

end TraceIR
