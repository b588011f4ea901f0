import TraceIR.Yaml.Cursor

/-!
# Tokens of a YAML text

The pieces that a document is built from. Indentation appears as tokens too: a block begins and
ends with one of its own. This module reads those tokens that are names of some sort: anchors,
aliases, tags and directives.

* `Cursor.anchor?`, `Cursor.tag?` and `Cursor.directive?` read such a token.
-/

namespace TraceIR.Yaml

/-- A piece of a text. -/
inductive Token where
  /-- The version of the language that a document is written in. -/
  | version (major minor : Nat)
  /-- What the handle of a tag stands for in a document. -/
  | tagHandle (handle : List Char) (stem : Bytes)
  | documentStart
  | documentEnd
  | streamEnd
  | blockSequenceStart
  | blockMappingStart
  | blockEnd
  | flowSequenceStart
  | flowSequenceEnd
  | flowMappingStart
  | flowMappingEnd
  | blockEntry
  | flowEntry
  | key
  | value
  | alias (name : List Char)
  | anchor (name : List Char)
  | tag (handle : List Char) (suffix : Bytes)
  | scalar (plain : Bool) (text : List Char)
  deriving DecidableEq, Repr, Inhabited

/-- A text as bytes. -/
def bytes (cs : List Char) : Bytes :=
  Bytes.ofString (String.ofList cs)

namespace Cursor

/-- Read a name and the end of it. -/
def name (c : Cursor) : List Char × Cursor :=
  (c.rest.takeWhile isNameChar, c.passWhile isNameChar)

/-- What can follow the name of an anchor besides the end of the word. -/
def endsAnchor : List Char → Bool
  | [] => true
  | c :: r => endsWord (c :: r) || ['?', ':', ',', ']', '}', '%', '@', backquote].contains c

/-- Read the name of an anchor or an alias, from its mark on. -/
def anchor? (c : Cursor) : Option (List Char × Cursor) :=
  let (name, next) := (c.advance 1).name
  if name.isEmpty || !endsAnchor next.rest then none else some (name, next)

/-! ### Tags -/

/-- The characters that the rest of a tag can hold as they are. -/
def isTagChar (c : Char) : Bool :=
  isNameChar c || c == apostrophe ||
    [';', '/', '?', ':', '@', '&', '=', '+', '$', ',', '.', '!', '~', '*', '(', ')', '[',
      ']'].contains c

/-- The byte that a percent sign and two hexadecimal digits stand for, and the text after it. -/
def octet? : List Char → Option (UInt8 × List Char)
  | '%' :: a :: b :: r => do return (UInt8.ofNat ((← hexValue? a) * 16 + (← hexValue? b)), r)
  | _ => none

/-- The number of bytes that follow the first byte of a character. -/
def followers? (b : UInt8) : Option Nat :=
  if b < 0x80 then some 0
  else if b < 0xc0 then none
  else if b < 0xe0 then some 1
  else if b < 0xf0 then some 2
  else if b < 0xf8 then some 3
  else none

/-- The next `n` bytes of a character. -/
def following? : Nat → List Char → Option Bytes
  | 0, _ => some []
  | n + 1, cs => do
    let (b, r) ← octet? cs
    if 0x80 ≤ b ∧ b < 0xc0 then return b :: (← following? n r) else none

/-- The bytes of a character that is written in percent signs. -/
def percent? (cs : List Char) : Option Bytes := do
  let (b, r) ← octet? cs
  return b :: (← following? (← followers? b) r)

/-- The rest of a tag, and its length in the text. -/
def tagRest? (cs : List Char) : Option (Bytes × Nat) :=
  match cs with
  | [] => some ([], 0)
  | c :: r =>
    if c == '%' then do
      let x ← percent? (c :: r)
      let (xs, n) ← tagRest? (r.drop (3 * x.length - 1))
      return (x ++ xs, n + 3 * x.length)
    else if isTagChar c then do
      let (xs, n) ← tagRest? r
      return (UInt8.ofNat c.toNat :: xs, n + 1)
    else some ([], 0)
termination_by cs.length
decreasing_by
  · rw [List.length_drop, List.length_cons]; omega
  · simp

/-- Read the rest of a tag, which has to be there. -/
def tagUri? (c : Cursor) : Option (Bytes × Cursor) := do
  let (text, n) ← tagRest? c.rest
  if n = 0 then none else some (text, c.advance n)

/-- Read the handle of a tag: a name between two exclamation marks. The second one may be
missing. -/
def handle (c : Cursor) : List Char × Cursor :=
  let (name, next) := (c.advance 1).name
  if next.isAt '!' then ('!' :: name ++ ['!'], next.advance 1) else ('!' :: name, next)

/-- Is the text of a handle a whole one? -/
def isWholeHandle (h : List Char) : Bool :=
  2 ≤ h.length && h.getLast? == some '!'

/-- Read a tag without the end of the word after it. A tag is written out between angle brackets,
or it has a handle and a suffix; with a single exclamation mark the handle is that mark, and
nothing but the mark is a suffix. -/
def tagText? (c : Cursor) : Option (Token × Cursor) :=
  if (c.advance 1).isAt '<' then do
    let (suffix, c) ← (c.advance 2).tagUri?
    if c.isAt '>' then some (.tag [] suffix, c.advance 1) else none
  else do
    let (h, c) := c.handle
    if isWholeHandle h then
      let (suffix, c) ← c.tagUri?
      return (.tag h suffix, c)
    else
      let (more, n) ← tagRest? c.rest
      let suffix := bytes (h.drop 1) ++ more
      if suffix.isEmpty then return (.tag [] (bytes h), c)
      else return (.tag ['!'] suffix, c.advance n)

/-- Read a tag. -/
def tag? (c : Cursor) : Option (Token × Cursor) := do
  let (t, c) ← c.tagText?
  if endsWord c.rest then some (t, c) else none

/-! ### Directives -/

/-- Read a number of at most two digits. -/
def versionNumber? (c : Cursor) : Option (Nat × Cursor) :=
  let ds := c.rest.takeWhile Char.isDigit
  if ds.isEmpty || 2 < ds.length then none
  else some (ds.foldl (fun n d => n * 10 + (d.toNat - 0x30)) 0, c.advance ds.length)

/-- Read the version after the name of its directive. -/
def version? (c : Cursor) : Option (Token × Cursor) := do
  let (major, c) ← (c.passWhile isBlank).versionNumber?
  if !c.isAt '.' then none
  else
    let (minor, c) ← (c.advance 1).versionNumber?
    return (.version major minor, c)

/-- Read what a handle stands for after the name of its directive. -/
def tagHandle? (c : Cursor) : Option (Token × Cursor) := do
  let c := c.passWhile isBlank
  if !c.isAt '!' then none
  else
    let (h, c) := c.handle
    if !(isWholeHandle h || h == ['!']) || !c.atBlank then none
    else
      let (stem, c) ← (c.passWhile isBlank).tagUri?
      if endsWord c.rest then return (.tagHandle h stem, c) else none

/-- Read a directive to the end of its line. -/
def directive? (c : Cursor) : Option (Token × Cursor) := do
  let (name, c) := (c.advance 1).name
  if !endsWord c.rest then none
  else
    let (t, c) ←
      if name = ['Y', 'A', 'M', 'L'] then c.version?
      else if name = ['T', 'A', 'G'] then c.tagHandle?
      else none
    let c := c.passWhile isBlank
    let c := if c.isAt '#' then c.passLine else c
    if c.rest.isEmpty then return (t, c)
    else if c.atBreak then return (t, c.skipBreak)
    else none

end Cursor

end TraceIR.Yaml
