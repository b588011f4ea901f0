import TraceIR.Script.Grammar
import TraceIR.Script.Position

/-!
# Source files

Several files are parsed as one text, one after the other. `Source.locate` finds the file and the
position that an offset of the whole belongs to; the border between two files belongs to the first
of them.
-/

namespace TraceIR.Script

/-- A named text. -/
structure SourceFile where
  name : Bytes
  text : Bytes
  deriving DecidableEq, Repr, Inhabited

/-- The files of a source in order. -/
abbrev Source := List SourceFile

/-- What is wrong with a source. -/
inductive SourceError where
  | syntactic (e : SyntaxError)
  /-- The grammar ended before the text did. -/
  | partialRead
  deriving DecidableEq, Repr, Inhabited

/-- The wording of an error in a source. -/
def SourceError.message : SourceError → Bytes
  | .syntactic e => Bytes.ascii "parse as grammar: " ++ e.message
  | .partialRead => Bytes.ascii "partial read"

/-- The outcome of parsing a source. -/
inductive Parsed (α : Type) where
  | tree (a : α)
  | wrong (place : Place) (e : SourceError)
  /-- The grammar would repeat itself forever. -/
  | endless
  deriving DecidableEq, Repr

namespace Source

/-- All texts in one. -/
def text (s : Source) : Bytes :=
  s.flatMap (·.text)

/-- The place of an offset in the files that begin at offset `base` of the whole. An offset outside
all files has no place. -/
def locateFrom (base : Nat) : Source → Int → Place
  | [], _ => ⟨[], ⟨0, 0⟩⟩
  | f :: fs, offset =>
    if base ≤ offset ∧ offset ≤ base + f.text.length then
      ⟨f.name, Position.ofOffset f.text (offset - base).toNat⟩
    else locateFrom (base + f.text.length) fs offset

/-- The place of an offset of the whole text. -/
def locate (s : Source) (offset : Int) : Place :=
  locateFrom 0 s offset

/-- Parse all files as one text. Blanks may follow what the parser reads, and nothing else. -/
def parseWith {α : Type} (s : Source) (p : Cursor → Outcome α) : Parsed α :=
  match p (.start s.text) with
  | .done a next =>
    let next := Spaces.all.skip next
    if next.rest.isEmpty then .tree a else .wrong (s.locate next.pos) .partialRead
  | .failed e o => .wrong (s.locate o) (.syntactic e)
  | .endless | .outside => .endless

end Source

/-- Parse a script from one file. -/
def parseFile (name text : Bytes) : Parsed Program :=
  Source.parseWith [⟨name, text⟩] Program.parse

end TraceIR.Script
