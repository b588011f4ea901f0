import TraceIR.Bytes

/-!
# Reading positions

A cursor is an offset together with the text from there on, so nothing outside the text can be
looked at. Blanks are skipped by a set of blank bytes.

* `Spaces.skip` passes blanks, `Spaces.skipComments` also comments, which run from `//` to the end
  of their line. The line feed itself is passed only if it is one of the blanks.
* `Cursor.atLineEnd` holds at a line break and at the end of the text.
-/

namespace TraceIR.Script

/-- An offset and the text that follows it. -/
structure Cursor where
  pos : Nat
  rest : Bytes
  deriving DecidableEq, Repr, Inhabited

namespace Cursor

/-- The beginning of a text. -/
def start (text : Bytes) : Cursor := ⟨0, text⟩

/-- The cursor at an offset of a text. -/
def at? (text : Bytes) (offset : Nat) : Option Cursor :=
  if offset ≤ text.length then some ⟨offset, text.drop offset⟩ else none

/-- Move on by some bytes. -/
def advance (c : Cursor) (n : Nat) : Cursor :=
  ⟨c.pos + n, c.rest.drop n⟩

theorem length_advance_le (c : Cursor) (n : Nat) :
    (c.advance n).rest.length ≤ c.rest.length := by
  simp [advance]

/-- Is this the end of a line, or of the text? -/
def atLineEnd (c : Cursor) : Bool :=
  match c.rest with
  | [] => true
  | x :: _ => x == 0x0a || x == 0x0d

/-- Does a comment begin here? -/
def atComment (c : Cursor) : Bool :=
  c.rest.take 2 == [0x2f, 0x2f]

end Cursor

/-! ### Blanks -/

/-- A set of blank bytes below 64, one bit for each. -/
structure Spaces where
  bits : UInt64
  deriving DecidableEq, Repr, Inhabited

namespace Spaces

/-- Is the byte a blank? -/
def has (s : Spaces) (c : UInt8) : Bool :=
  c < 64 && s.bits.toNat.testBit c.toNat

/-- The set of some bytes. Only bytes below 64 can be blanks. -/
def ofBytes? (b : Bytes) : Option Spaces :=
  if b.all (· < 64) then
    some ⟨b.foldl (fun s c => s ||| UInt64.ofNat (1 <<< c.toNat)) 0⟩
  else none

/-- Space and tab. -/
def inline : Spaces := ⟨0x100000200⟩

/-- Space, tab, carriage return and line feed. -/
def all : Spaces := ⟨0x100002600⟩

/-- Pass blanks. -/
def skip (s : Spaces) (c : Cursor) : Cursor :=
  c.advance (c.rest.takeWhile s.has).length

/-- The number of bytes that blanks and comments take at the front of a text. Inside a comment
everything up to the end of the line belongs to it. -/
def commentLength (s : Spaces) : (inside : Bool) → Bytes → Nat
  | _, [] => 0
  | inside, c :: r =>
    if inside && c != 0x0a then commentLength s true r + 1
    else if s.has c then commentLength s false r + 1
    else if c == 0x2f && r.head? == some 0x2f then commentLength s true r + 1
    else 0

/-- Pass blanks and comments. -/
def skipComments (s : Spaces) (c : Cursor) : Cursor :=
  c.advance (s.commentLength false c.rest)

end Spaces

end TraceIR.Script
