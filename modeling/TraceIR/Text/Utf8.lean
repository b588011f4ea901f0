import TraceIR.Bytes

/-!
# UTF-8, one character at a time

* `Utf8.decode?` reads the character at the front of a text. It refuses overlong forms,
  surrogates and code points above U+10FFFF, so every byte sequence it accepts is the one
  `Utf8.encode` writes.
* `Utf8.decode?_length` says that reading a character consumes something.
-/

namespace TraceIR.Utf8

/-- A byte that continues a character. -/
def isTail (b : UInt8) : Bool :=
  0x80 ≤ b && b ≤ 0xbf

/-- The second byte of a three-byte character: overlong forms and surrogates are excluded. -/
def isSecondOfThree (b0 b1 : UInt8) : Bool :=
  (if b0 == 0xe0 then 0xa0 else 0x80) ≤ b1 && b1 ≤ (if b0 == 0xed then 0x9f else 0xbf)

/-- The second byte of a four-byte character: overlong forms and code points above U+10FFFF are
excluded. -/
def isSecondOfFour (b0 b1 : UInt8) : Bool :=
  (if b0 == 0xf0 then 0x90 else 0x80) ≤ b1 && b1 ≤ (if b0 == 0xf4 then 0x8f else 0xbf)

/-- The six payload bits of a continuing byte. -/
def payload (b : UInt8) : Nat :=
  b.toNat % 0x40

/-- The character at the front and the text after it, or nothing if no valid character stands
there. -/
def decode? : Bytes → Option (Nat × Bytes)
  | [] => none
  | b0 :: r0 =>
    if b0 < 0x80 then some (b0.toNat, r0)
    else match r0 with
      | [] => none
      | b1 :: r1 =>
        if 0xc2 ≤ b0 && b0 ≤ 0xdf then
          if isTail b1 then some (b0.toNat % 0x20 * 0x40 + payload b1, r1) else none
        else match r1 with
          | [] => none
          | b2 :: r2 =>
            if 0xe0 ≤ b0 && b0 ≤ 0xef then
              if isSecondOfThree b0 b1 && isTail b2 then
                some ((b0.toNat % 0x10 * 0x40 + payload b1) * 0x40 + payload b2, r2)
              else none
            else match r2 with
              | [] => none
              | b3 :: r3 =>
                if 0xf0 ≤ b0 && b0 ≤ 0xf4 && isSecondOfFour b0 b1 && isTail b2 && isTail b3 then
                  some (((b0.toNat % 8 * 0x40 + payload b1) * 0x40 + payload b2) * 0x40
                    + payload b3, r3)
                else none

/-- Reading a character leaves a shorter text. -/
theorem decode?_length {b r : Bytes} {c : Nat} (h : decode? b = some (c, r)) :
    r.length < b.length := by
  unfold decode? at h
  repeat' split at h
  all_goals simp_all <;> omega

/-- A continuing byte with six payload bits. -/
def tailByte (n : Nat) : UInt8 :=
  UInt8.ofNat (0x80 + n % 0x40)

/-- The bytes that spell a code point. -/
def encode (c : Nat) : Bytes :=
  if c < 0x80 then [UInt8.ofNat c]
  else if c < 0x800 then [UInt8.ofNat (0xc0 + c / 0x40), tailByte c]
  else if c < 0x10000 then
    [UInt8.ofNat (0xe0 + c / 0x1000), tailByte (c / 0x40), tailByte c]
  else
    [UInt8.ofNat (0xf0 + c / 0x40000), tailByte (c / 0x1000), tailByte (c / 0x40), tailByte c]

/-- The character that stands for bytes that spell none, U+FFFD. -/
def replacement : Nat := 0xfffd

/-- Is it the number of a character? Surrogates are not. -/
def isScalar (c : Nat) : Bool :=
  c < 0xd800 || (0xdfff < c && c ≤ 0x10ffff)

end TraceIR.Utf8
