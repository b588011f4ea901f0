import TraceIR.Yaml.Cursor

/-!
# Scalars in a YAML text

The three ways to write a scalar: plain, in quotes, and as an indented block. Plain and quoted
scalars can go on over several lines, which are joined as `Gap.text` says.

* `Cursor.plain?`, `Cursor.quoted?` and `Cursor.block?` read a scalar and give its text and the
  place after it.
-/

namespace TraceIR.Yaml

/-! ### Plain scalars -/

/-- The characters that structure flow collections. -/
def isFlowMark (c : Char) : Bool :=
  [',', '[', ']', '{', '}'].contains c

/-- Does a plain scalar end before a character? A colon ends it at the end of a word. -/
def endsPlain (flow : Bool) (c : Char) (rest : List Char) : Bool :=
  (c == ':' && endsWord rest) || (flow && (isFlowMark c || c == '?'))

/-- The part of a plain scalar up to a gap or its end. -/
def plainRun (flow : Bool) : List Char → List Char
  | [] => []
  | c :: r => if isBlank c || isBreak c || endsPlain flow c r then [] else c :: plainRun flow r

/-- A plain scalar that has been read. -/
structure Plain where
  text : List Char
  next : Cursor
  /-- Has a line break been passed after the last part? -/
  broken : Bool
  deriving DecidableEq, Repr, Inhabited

namespace Cursor

/-- Read on in a plain scalar after a gap. Its later lines are indented to column `indent`, unless
it stands in a flow collection. -/
def plainFrom? (flow : Bool) (indent : Int) (text : List Char) (gap : Gap) (c : Cursor) :
    Option Plain :=
  let run := plainRun flow c.rest
  if c.atMarker || c.isAt '#' || run.isEmpty then some ⟨text, c, gap.firstBreak.isSome⟩
  else
    let text := text ++ gap.text ++ run
    let stop := c.advance run.length
    if !(stop.atBlank || stop.atBreak) then some ⟨text, stop, false⟩
    else do
      let (gap, next) ← stop.passGap indent {}
      if !flow && next.column < indent then some ⟨text, next, gap.firstBreak.isSome⟩
      else if next.rest.length < c.rest.length then plainFrom? flow indent text gap next
      else none
termination_by c.rest.length

/-- Read a plain scalar. -/
def plain? (c : Cursor) (flow : Bool) (indent : Int) : Option Plain :=
  c.plainFrom? flow indent [] {}

end Cursor

/-! ### Quoted scalars -/

/-- The character whose number is written in `n` hexadecimal digits. -/
def coded? (n : Nat) (cs : List Char) : Option Char := do
  if cs.length < n then none
  else
    let v ← (cs.take n).foldlM (fun v c => (hexValue? c).map (v * 16 + ·)) 0
    if (0xd800 ≤ v ∧ v ≤ 0xdfff) ∨ 0x10ffff < v then none else some (Char.ofNat v)

/-- The characters that a letter after a backslash stands for. -/
def escapes : List (Char × Nat) :=
  [('0', 0x00), ('a', 0x07), ('b', 0x08), ('t', 0x09), ('\t', 0x09), ('n', 0x0a), ('v', 0x0b),
    ('f', 0x0c), ('r', 0x0d), ('e', 0x1b), (' ', 0x20), (quote, 0x22), (apostrophe, 0x27),
    (backslash, 0x5c), ('N', 0x85), ('_', 0xa0), ('L', 0x2028), ('P', 0x2029)]

/-- The character that an escape stands for, and its length after the backslash. -/
def escaped? : List Char → Option (Char × Nat)
  | [] => none
  | 'x' :: r => (coded? 2 r).map (·, 3)
  | 'u' :: r => (coded? 4 r).map (·, 5)
  | 'U' :: r => (coded? 8 r).map (·, 9)
  | c :: _ => (escapes.lookup c).map fun n => (Char.ofNat n, 1)

/-- A part of a quoted scalar up to a gap or the closing quote. -/
structure QuotedRun where
  text : List Char := []
  /-- The number of characters it takes up. -/
  length : Nat := 0
  /-- Does an escaped line break follow? -/
  joined : Bool := false
  deriving DecidableEq, Repr, Inhabited

/-- Put a character of length `n` in front. -/
def QuotedRun.cons (c : Char) (n : Nat) (r : QuotedRun) : QuotedRun :=
  { r with text := c :: r.text, length := r.length + n }

/-- The next part of a scalar between apostrophes. An apostrophe inside is written twice. -/
def singleRun : List Char → QuotedRun
  | [] => {}
  | c :: r =>
    if isBlank c || isBreak c then {}
    else if c == apostrophe then
      match r with
      | d :: r => if d == apostrophe then (singleRun r).cons c 2 else {}
      | [] => {}
    else (singleRun r).cons c 1

/-- The next part of a scalar between quotation marks. -/
def doubleRun? (cs : List Char) : Option QuotedRun :=
  match cs with
  | [] => some {}
  | c :: r =>
    if isBlank c || isBreak c || c == quote then some {}
    else if c ≠ backslash then (doubleRun? r).map (·.cons c 1)
    else if r.head?.any isBreak then some { joined := true }
    else do
      let (x, n) ← escaped? r
      (doubleRun? (r.drop n)).map (·.cons x (n + 1))
termination_by cs.length
decreasing_by
  · simp
  · rw [List.length_drop, List.length_cons]; omega

namespace Cursor

/-- Read on in a quoted scalar. -/
def quotedFrom? (single : Bool) (text : List Char) (c : Cursor) : Option (List Char × Cursor) :=
  if c.atMarker || c.rest.isEmpty then none
  else do
    let run ← if single then some (singleRun c.rest) else doubleRun? c.rest
    let stop := c.advance run.length
    if !run.joined && stop.isAt (if single then apostrophe else quote) then
      return (text ++ run.text, stop.advance 1)
    else
      let (gap, next) ←
        if run.joined then (stop.advance 1).skipBreak.passGap 0 { firstBreak := some [] }
        else stop.passGap 0 {}
      if next.rest.length < c.rest.length then
        quotedFrom? single (text ++ run.text ++ gap.text) next
      else none
termination_by c.rest.length

/-- Read a scalar in quotes, from the opening one on. -/
def quoted? (c : Cursor) (single : Bool) : Option (List Char × Cursor) :=
  (c.advance 1).quotedFrom? single []

end Cursor

/-! ### Block scalars -/

/-- What becomes of the line breaks at the end of a block. -/
inductive Chomp where
  /-- One of them stays. -/
  | clip
  | strip
  | keep
  deriving DecidableEq, Repr, Inhabited

/-- How the lines of a block are read. -/
structure BlockStyle where
  /-- Lines stay apart. Else they are joined where possible. -/
  literal : Bool
  chomp : Chomp := .clip
  /-- The indentation of the block relative to what it belongs to, or 0 if it is to be found. -/
  increment : Nat := 0
  deriving DecidableEq, Repr, Inhabited

namespace Cursor

/-- Read the mark for the line breaks at the end. -/
def chomp (c : Cursor) : Chomp × Cursor :=
  if c.isAt '+' then (.keep, c.advance 1)
  else if c.isAt '-' then (.strip, c.advance 1)
  else (.clip, c)

/-- Read a digit for the indentation, if there is one. It cannot be 0. -/
def increment? (c : Cursor) : Option (Nat × Cursor) :=
  match c.rest with
  | d :: _ =>
    if !d.isDigit then some (0, c)
    else if d == '0' then none
    else some (d.toNat - 0x30, c.advance 1)
  | [] => some (0, c)

/-- Read the first line of a block, where its style stands. -/
def blockStyle? (c : Cursor) : Option (BlockStyle × Cursor) := do
  let literal := c.isAt '|'
  let c := c.advance 1
  let (chomp, increment, c) ←
    if c.isAt '+' || c.isAt '-' then do
      let (chomp, c) := c.chomp
      let (increment, c) ← c.increment?
      pure (chomp, increment, c)
    else do
      let (increment, c) ← c.increment?
      if increment = 0 then pure (Chomp.clip, 0, c)
      else
        let (chomp, c) := c.chomp
        pure (chomp, increment, c)
  let c := c.passWhile isBlank
  let c := if c.isAt '#' then c.passLine else c
  if c.rest.isEmpty then return ({ literal, chomp, increment }, c)
  else if c.atBreak then return ({ literal, chomp, increment }, c.skipBreak)
  else none

/-- Pass empty lines and the indentation of the next one. Gives the line breaks and the deepest
indentation seen. An indentation of 0 is still to be found. -/
def passIndent? (indent : Nat) (breaks : List Char) (deepest : Nat) (c : Cursor) :
    Option (List Char × Nat × Cursor) :=
  let spaces := (c.rest.takeWhile (· == ' ')).length
  let stop := c.advance (if indent = 0 then spaces else min spaces (indent - c.column))
  let deepest := max deepest stop.column
  match stop.rest with
  | [] => some (breaks, deepest, stop)
  | x :: _ =>
    if x == '\t' && (indent = 0 || stop.column < indent) then none
    else if !isBreak x then some (breaks, deepest, stop)
    else
      let next := stop.skipBreak
      if next.rest.length < c.rest.length then
        passIndent? indent (breaks ++ breakText x) deepest next
      else none
termination_by c.rest.length

/-- The text of a block so far, and the line breaks at its end. -/
structure BlockText where
  text : List Char := []
  firstBreak : List Char := []
  moreBreaks : List Char := []
  /-- Does the last line begin with a blank? Such lines are not joined. -/
  indented : Bool := false
  deriving DecidableEq, Repr, Inhabited

/-- Begin another line. -/
def BlockText.newLine (b : BlockText) (literal blank : Bool) : List Char :=
  let folds := !literal && !b.indented && !blank && b.firstBreak == ['\n']
  b.text ++ (if !folds then b.firstBreak else if b.moreBreaks.isEmpty then [' '] else []) ++
    b.moreBreaks

/-- Read the lines of a block. -/
def blockLines? (literal : Bool) (indent : Nat) (b : BlockText) (c : Cursor) :
    Option (BlockText × Cursor) :=
  if c.column ≠ indent || c.rest.isEmpty then some (b, c)
  else do
    let line := c.rest.takeWhile (!isBreak ·)
    let stop := c.passLine
    let (firstBreak, start) :=
      match stop.rest with
      | [] => ([], stop)
      | x :: _ => (breakText x, stop.skipBreak)
    let (moreBreaks, _, next) ← start.passIndent? indent [] 0
    let b : BlockText :=
      { text := b.newLine literal c.atBlank ++ line, firstBreak, moreBreaks, indented := c.atBlank }
    if next.rest.length < c.rest.length then blockLines? literal indent b next else none
termination_by c.rest.length

/-- Read a block, from the mark of its style on. It belongs to something at column `indent`, or to
the whole document if that is negative. -/
def block? (c : Cursor) (indent : Int) : Option (List Char × Cursor) := do
  let (style, c) ← c.blockStyle?
  let asked := if style.increment = 0 then 0 else indent.toNat + style.increment
  let (moreBreaks, deepest, c) ← c.passIndent? asked [] 0
  let found := max deepest (max (indent + 1).toNat 1)
  let (b, c) ← c.blockLines? style.literal (if asked = 0 then found else asked) { moreBreaks }
  let tail :=
    match style.chomp with
    | .strip => []
    | .clip => b.firstBreak
    | .keep => b.firstBreak ++ b.moreBreaks
  return (b.text ++ tail, c)

end Cursor

end TraceIR.Yaml
