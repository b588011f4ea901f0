import TraceIR.Bytes

/-!
# Lines and columns

An offset into a text is shown as a line and a column, both counted from one. A line ends after
its line feed; an offset beyond the text counts as its end.
-/

namespace TraceIR.Script

/-- A line and a column. -/
structure Position where
  line : Nat
  column : Nat
  deriving DecidableEq, Repr, Inhabited

namespace Position

/-- The index of the last line feed in a text, `-1` if there is none. -/
def lastFeed (text : Bytes) : Int :=
  match text.reverse.idxOf? 0x0a with
  | some back => text.length - 1 - back
  | none => -1

/-- The position of an offset in a text. The line is told by the number of line feeds before the
offset, and the column by the last of them. -/
def ofOffset (text : Bytes) (offset : Nat) : Position :=
  let offset := if text.length < offset then text.length else offset
  let before := text.take offset
  ⟨1 + before.count 0x0a, (1 + offset - (lastFeed before + 1)).toNat⟩

/-- The position of an offset counted from the beginning of the text. There is none before it. -/
def at? (text : Bytes) (offset : Int) : Option Position :=
  if offset < 0 then none else some (ofOffset text offset.toNat)

end Position

/-- A position in a named file. -/
structure Place where
  name : Bytes
  position : Position
  deriving DecidableEq, Repr, Inhabited

/-- The written form of a place. -/
def Place.text (p : Place) : Bytes :=
  p.name ++ Bytes.ascii ":" ++ Bytes.decimal p.position.line ++ Bytes.ascii ":"
    ++ Bytes.decimal p.position.column

end TraceIR.Script
