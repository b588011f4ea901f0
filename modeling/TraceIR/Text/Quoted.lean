import TraceIR.Text.Printable
import TraceIR.Text.Utf8

/-!
# Quoted text

The written form of an object's text, in double quotes. Writing escapes the quote, the backslash
and everything unprintable; reading understands those escapes and a few more.

* `Quoted.write` shows bytes that are no UTF-8 as `\x` and two digits, so nothing is lost.
* `Quoted.read?` refuses a raw newline, an unknown escape and anything after the closing quote. A
  byte outside an escape that is no UTF-8 is read as U+FFFD.
-/

namespace TraceIR.Quoted

/-! ### Writing -/

/-- A number as exactly `width` hexadecimal digits. -/
def fixedHex (width n : Nat) : Bytes :=
  Bytes.padLeft 0x30 width (Bytes.hex n)

/-- The letters of the control characters that have one of their own. -/
def controlLetter? : Nat → Option UInt8
  | 7 => some 0x61
  | 8 => some 0x62
  | 12 => some 0x66
  | 10 => some 0x6e
  | 13 => some 0x72
  | 9 => some 0x74
  | 11 => some 0x76
  | _ => none

/-- The written form of one character. -/
def writeChar (c : Nat) : Bytes :=
  if c == 0x22 || c == 0x5c then [0x5c, UInt8.ofNat c]
  else if Text.isPrintable c then Utf8.encode c
  else match controlLetter? c with
    | some l => [0x5c, l]
    | none =>
      if c < 0x20 || c == 0x7f then Bytes.ascii "\\x" ++ fixedHex 2 c
      else if c < 0x10000 then Bytes.ascii "\\u" ++ fixedHex 4 c
      else Bytes.ascii "\\U" ++ fixedHex 8 c

/-- The written form of a text, without the quotes around it. -/
def writeBody (b : Bytes) : Bytes :=
  match b with
  | [] => []
  | x :: r =>
    match _h : Utf8.decode? (x :: r) with
    | some (c, rest) => writeChar c ++ writeBody rest
    | none => Bytes.ascii "\\x" ++ fixedHex 2 x.toNat ++ writeBody r
termination_by b.length
decreasing_by
  · exact Utf8.decode?_length _h
  · simp

/-- The written form of a text. -/
def write (b : Bytes) : Bytes :=
  0x22 :: writeBody b ++ [0x22]

/-! ### Reading -/

/-- The value of a digit in base sixteen. -/
def hexDigit? (b : UInt8) : Option Nat :=
  if 0x30 ≤ b && b ≤ 0x39 then some (b.toNat - 0x30)
  else if 0x61 ≤ b && b ≤ 0x66 then some (b.toNat - 0x57)
  else if 0x41 ≤ b && b ≤ 0x46 then some (b.toNat - 0x37)
  else none

/-- The value of a digit in base eight. -/
def octalDigit? (b : UInt8) : Option Nat :=
  if 0x30 ≤ b && b ≤ 0x37 then some (b.toNat - 0x30) else none

/-- Exactly `n` digits at the front, read with `digit?` in the given base on top of `acc`, and the
text after them. -/
def readDigits? (digit? : UInt8 → Option Nat) (base : Nat) :
    Nat → Nat → Bytes → Option (Nat × Bytes)
  | 0, acc, b => some (acc, b)
  | _ + 1, _, [] => none
  | n + 1, acc, x :: r =>
    match digit? x with
    | some d => readDigits? digit? base n (acc * base + d) r
    | none => none

theorem readDigits?_length {digit? : UInt8 → Option Nat} {base n acc v : Nat} {b r : Bytes}
    (h : readDigits? digit? base n acc b = some (v, r)) : r.length ≤ b.length := by
  induction n generalizing acc b with
  | zero => simp only [readDigits?, Option.some.injEq, Prod.mk.injEq] at h; simp [h.2]
  | succ n ih =>
    cases b with
    | nil => simp [readDigits?] at h
    | cons x b =>
      simp only [readDigits?] at h
      split at h
      · exact Nat.le_succ_of_le (ih h)
      · simp at h

/-- The character with a given number, if there is one. -/
def scalarBytes? (c : Nat) : Option Bytes :=
  if Utf8.isScalar c then some (Utf8.encode c) else none

/-- What an escape stands for, given the text after the backslash, and the text after it. -/
def readEscape? : Bytes → Option (Bytes × Bytes)
  | [] => none
  | c :: r =>
    match c with
    | 0x61 => some ([7], r)
    | 0x62 => some ([8], r)
    | 0x66 => some ([12], r)
    | 0x6e => some ([10], r)
    | 0x72 => some ([13], r)
    | 0x74 => some ([9], r)
    | 0x76 => some ([11], r)
    | 0x5c => some ([0x5c], r)
    | 0x22 => some ([0x22], r)
    | 0x78 => (readDigits? hexDigit? 16 2 0 r).map fun (v, r) => ([UInt8.ofNat v], r)
    | 0x75 => (readDigits? hexDigit? 16 4 0 r).bind fun (v, r) => (scalarBytes? v).map (·, r)
    | 0x55 => (readDigits? hexDigit? 16 8 0 r).bind fun (v, r) => (scalarBytes? v).map (·, r)
    | _ =>
      -- Three octal digits, the first of which is already in hand.
      (readDigits? octalDigit? 8 3 0 (c :: r)).bind fun (v, r) =>
        if v < 256 then some ([UInt8.ofNat v], r) else none

theorem readEscape?_length {b out r : Bytes} (h : readEscape? b = some (out, r)) :
    r.length ≤ b.length := by
  unfold readEscape? at h
  split at h
  · simp at h
  · split at h
    all_goals
      first
      | (simp only [Option.some.injEq, Prod.mk.injEq] at h
         simp [h.2])
      | (simp only [Option.map_eq_some_iff, Option.bind_eq_some_iff, Prod.exists] at h
         grind [→ readDigits?_length])

/-- The text between the opening quote, which is already read, and the closing one, which has to
be the last byte. -/
def readBody? (b : Bytes) : Option Bytes :=
  match b with
  | [] => none
  | x :: r =>
    if x == 0x22 then (if r.isEmpty then some [] else none)
    else if x == 0x0a then none
    else if x == 0x5c then
      match _h : readEscape? r with
      | some (out, rest) => (readBody? rest).map (out ++ ·)
      | none => none
    else
      match _h : Utf8.decode? (x :: r) with
      | some (c, rest) => (readBody? rest).map (Utf8.encode c ++ ·)
      | none => (readBody? r).map (Utf8.encode Utf8.replacement ++ ·)
termination_by b.length
decreasing_by
  · have := readEscape?_length _h
    simp; omega
  · exact Utf8.decode?_length _h
  · simp

/-- The text that a quoted form stands for. -/
def read? : Bytes → Option Bytes
  | 0x22 :: r => readBody? r
  | _ => none

end TraceIR.Quoted
