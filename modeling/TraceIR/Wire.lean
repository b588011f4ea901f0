import TraceIR.Bytes

/-!
# The binary log format

Values are written with a head byte that holds a major type in its top three bits and a small
number in its low five; a larger number follows the head in one, two, four or eight bytes, most
significant first.
-/

namespace TraceIR.Wire

/-- The lowest `width` bytes of `n`, most significant first. -/
def bigEndian : Nat → Nat → Bytes
  | 0, _ => []
  | width + 1, n => UInt8.ofNat (n >>> (8 * width)) :: bigEndian width n

/-- A head of the given major type with its number. -/
def head (major : UInt8) (n : Nat) : Bytes :=
  if n < 24 then [major ||| UInt8.ofNat n]
  else if n < 0x100 then (major ||| 24) :: bigEndian 1 n
  else if n < 0x10000 then (major ||| 25) :: bigEndian 2 n
  else if n < 0x100000000 then (major ||| 26) :: bigEndian 4 n
  else (major ||| 27) :: bigEndian 8 n

/-- An integer. A negative one is written by its absolute value plus one. -/
def int : Int → Bytes
  | .ofNat n => head 0x00 n
  | .negSucc n => head 0x20 (n + 2)

def text (b : Bytes) : Bytes :=
  head 0x60 b.length ++ b

/-- A list of fields with their names; the values are already written. -/
def fields (fs : List (String × Bytes)) : Bytes :=
  head 0xa0 fs.length ++ fs.flatMap fun (k, v) => text (Bytes.ascii k) ++ v

/-- A list whose length is not announced. -/
def openList (items : List Bytes) : Bytes :=
  0x9f :: items.flatten ++ [0xff]

/-- No value. -/
def null : Bytes := [0xf6]

end TraceIR.Wire
