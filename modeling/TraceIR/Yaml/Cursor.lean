import TraceIR.Yaml.Text

/-!
# Places in a YAML text

Where something stands in a line decides its meaning, so a cursor knows its column besides what
lies before it.

* `Cursor.advance` moves inside a line, `Cursor.skipBreak` to the next one.
* `Cursor.passGap` passes blanks and line breaks inside a scalar; `Gap.text` is what they stand for.
* `Cursor.passComments` passes comments that follow one another.
-/

namespace TraceIR.Yaml

/-- A place in a text. -/
structure Cursor where
  rest : List Char
  /-- The number of characters before the place. -/
  index : Nat := 0
  line : Nat := 0
  column : Nat := 0
  /-- The line breaks since the last character that is not blank. -/
  breaks : Nat := 0
  deriving DecidableEq, Repr, Inhabited

namespace Cursor

/-- Pass `n` characters of a line. -/
def advance (c : Cursor) (n : Nat) : Cursor :=
  { c with
    rest := c.rest.drop n
    index := c.index + n
    column := c.column + n
    breaks := if (c.rest.take n).all isBlank then c.breaks else 0 }

/-- Pass characters of a line as long as they are of a kind. -/
def passWhile (c : Cursor) (p : Char → Bool) : Cursor :=
  c.advance (c.rest.takeWhile p).length

/-- The next line, after a line break of `n` characters. -/
def nextLine (c : Cursor) (n : Nat) : Cursor :=
  { rest := c.rest.drop n, index := c.index + n, line := c.line + 1, column := 0,
    breaks := c.breaks + 1 }

/-- Pass a line break. A carriage return and the line feed after it are one. -/
def skipBreak (c : Cursor) : Cursor :=
  match c.rest with
  | '\r' :: '\n' :: _ => c.nextLine 2
  | _ => c.nextLine 1

theorem length_advance (c : Cursor) (n : Nat) : (c.advance n).rest.length = c.rest.length - n := by
  simp [advance]

theorem length_advance_lt (c : Cursor) (h : c.rest ≠ []) :
    (c.advance 1).rest.length < c.rest.length := by
  have := List.length_pos_iff.2 h
  rw [length_advance]
  omega

theorem length_skipBreak_lt (c : Cursor) (h : c.rest ≠ []) :
    c.skipBreak.rest.length < c.rest.length := by
  have := List.length_pos_iff.2 h
  unfold skipBreak
  split <;> simp [nextLine] <;> omega

/-- The next character, if the line goes on. -/
def atBreak (c : Cursor) : Bool :=
  c.rest.head?.any isBreak

def atBlank (c : Cursor) : Bool :=
  c.rest.head?.any isBlank

def isAt (c : Cursor) (x : Char) : Bool :=
  c.rest.head? == some x

/-- Does a line begin here with the mark of a document? -/
def atMarker (c : Cursor) : Bool :=
  c.column == 0 && (isMarker '-' c.rest || isMarker '.' c.rest)

end Cursor

/-! ### Gaps inside scalars -/

/-- Blanks and line breaks between two parts of a scalar. -/
structure Gap where
  /-- The blanks before the first line break. -/
  blanks : List Char := []
  /-- The first line break. One that is escaped has no text. -/
  firstBreak : Option (List Char) := none
  /-- The other line breaks. -/
  moreBreaks : List Char := []
  deriving DecidableEq, Repr, Inhabited

namespace Gap

def addBlank (g : Gap) (c : Char) : Gap :=
  if g.firstBreak.isNone then { g with blanks := g.blanks ++ [c] } else g

def addBreak (g : Gap) (c : Char) : Gap :=
  if g.firstBreak.isNone then { g with firstBreak := some (breakText c) }
  else { g with moreBreaks := g.moreBreaks ++ breakText c }

/-- What a gap stands for. Blanks inside a line stay. A single line break becomes a space, and of
several the first is dropped. -/
def text (g : Gap) : List Char :=
  match g.firstBreak with
  | none => g.blanks
  | some ['\n'] => if g.moreBreaks.isEmpty then [' '] else g.moreBreaks
  | some first => first ++ g.moreBreaks

end Gap

namespace Cursor

/-- Pass a gap. A tab in the indentation, which is what is before column `indent` of a later line,
is an error. -/
def passGap (indent : Int) (g : Gap) (c : Cursor) : Option (Gap × Cursor) :=
  match h : c.rest with
  | [] => some (g, c)
  | x :: _ =>
    have _more : c.rest ≠ [] := by simp [h]
    if isBlank x then
      if g.firstBreak.isSome && x == '\t' && c.column < indent then none
      else passGap indent (g.addBlank x) (c.advance 1)
    else if isBreak x then passGap indent (g.addBreak x) c.skipBreak
    else some (g, c)
termination_by c.rest.length
decreasing_by
  · exact length_advance_lt c _more
  · exact length_skipBreak_lt c _more

/-! ### Comments -/

/-- Pass the rest of a line. -/
def passLine (c : Cursor) : Cursor :=
  c.passWhile (!isBreak ·)

/-- How far a comment that belongs to another one can be from it. -/
def commentReach : Nat := 512

/-- Blanks and plain line breaks. -/
def isPlainGap (x : Char) : Bool :=
  isBlank x || x == '\n' || x == '\r'

/-- Pass characters of a gap. -/
def passGapChars : Nat → Cursor → Cursor
  | 0, c => c
  | n + 1, c =>
    match c.rest with
    | '\r' :: '\n' :: _ => passGapChars (n - 1) c.skipBreak
    | _ => passGapChars n (if c.atBreak then c.skipBreak else c.advance 1)

/-- Pass a comment and those that follow it in lines of their own, with whatever blanks and empty
lines stand between them. -/
def passComments (c : Cursor) : Cursor :=
  let c' := c.passLine
  let gap := (c'.rest.takeWhile isPlainGap).length
  let next := passGapChars gap c'
  if !next.isAt '#' || commentReach ≤ gap then c'
  else if next.rest.length < c.rest.length then passComments next
  else c'
termination_by c.rest.length

/-- Pass a comment at the end of a line, if there is one. -/
def passLineComment (c : Cursor) : Cursor :=
  if c.breaks ≠ 0 then c
  else
    let blanks := (c.rest.takeWhile isBlank).length
    let next := c.advance blanks
    if next.isAt '#' && blanks < commentReach then next.passLine else c

end Cursor

end TraceIR.Yaml
