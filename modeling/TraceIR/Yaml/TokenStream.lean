import TraceIR.Yaml.Scalar
import TraceIR.Yaml.Token

/-!
# From text to tokens

Indentation says where the blocks of a document begin and end, and a colon says only afterwards
that what stood before it was a key. So a stream of tokens remembers the columns at which blocks
began, and for every open collection the last token that may turn out to begin a key.

Tokens are used while the text is read. A token waits until two more have been read and, if it may
begin a key, until it is clear whether it does. In rare cases a key is found only after its tokens
have been used, and then its mark comes too late.

* `TokenStream.next?` reads one more piece of the text.
* `TokenStream.read` reads a text as far as it goes.
* `TokenStream.reaches` says for a text that does not go to its end whether what is wrong with it
  lies behind everything that counts for a document.
-/

namespace TraceIR.Yaml

/-- The beginning of what may be a key. -/
structure SimpleKey where
  /-- Nothing but a key can stand here. -/
  required : Bool
  /-- The number of the token that begins it. -/
  number : Nat
  index : Nat
  line : Nat
  column : Nat
  /-- Does its token wait until it is clear whether it begins a key? -/
  awaited : Bool := true
  deriving DecidableEq, Repr, Inhabited

/-- An open flow collection, or the blocks around all of them. -/
structure Level where
  /-- The number of the last token in it that could begin a key or, before there is one, of the
  token that opened it. -/
  number : Nat := 0
  /-- What may be a key in it. -/
  key : Option SimpleKey := none
  deriving DecidableEq, Repr, Inhabited

/-- The tokens of a text up to some place, and what has to be known there to go on. -/
structure TokenStream where
  cursor : Cursor
  tokens : Array Token := #[]
  /-- The number of tokens that have been used. -/
  used : Nat := 0
  /-- The column of the innermost block, or -1 outside of all blocks. -/
  indent : Int := -1
  /-- The columns of the blocks around it, innermost first. -/
  outer : List Int := []
  /-- The open flow collections, innermost first, and the blocks around them. -/
  levels : List Level := [{}]
  /-- Can a key begin here? -/
  keyAllowed : Bool := true
  /-- Does the text begin with an order mark, besides the one of its encoding? Then the first
  character of every line that begins between tokens counts as one. -/
  marked : Bool := false
  deriving DecidableEq, Repr, Inhabited

namespace TokenStream

/-- Inside a flow collection indentation means nothing. -/
def inFlow (s : TokenStream) : Bool :=
  1 < s.levels.length

/-- What may be a key in the innermost collection. -/
def key? (s : TokenStream) : Option SimpleKey :=
  s.levels.head?.bind (·.key)

/-! ### Blocks and keys -/

/-- Put a token at the end, or before token number `n` unless that has been used. -/
def insert (s : TokenStream) (n : Option Nat) (t : Token) : TokenStream :=
  match n.filter (s.used ≤ ·) with
  | none => { s with tokens := s.tokens.push t }
  | some n =>
    { s with tokens := (s.tokens.extract 0 n).push t ++ s.tokens.extract n s.tokens.size }

/-- Take a token that is `n` characters long. -/
def take (s : TokenStream) (n : Nat) (t : Token) : TokenStream :=
  { s with cursor := s.cursor.advance n, tokens := s.tokens.push t }

/-- How deep blocks can be nested, and how deep flow collections. -/
def maxDepth : Nat := 10000

/-- Begin a block at a column, if it is deeper than the innermost one. -/
def openBlock? (s : TokenStream) (column : Nat) (n : Option Nat) (t : Token) :
    Option TokenStream :=
  if s.inFlow || column ≤ s.indent then some s
  else if s.outer.length < maxDepth then
    some ({ s with indent := column, outer := s.indent :: s.outer }.insert n t)
  else none

/-- End the blocks that are deeper than a column, given the columns around them. -/
def closeBlocksIn (column : Int) (s : TokenStream) : List Int → TokenStream
  | [] => s
  | o :: os =>
    if s.indent ≤ column then s
    else closeBlocksIn column ({ s with indent := o, outer := os }.insert none .blockEnd) os

/-- End the blocks that are deeper than a column. -/
def closeBlocks (s : TokenStream) (column : Int) : TokenStream :=
  if s.inFlow then s else closeBlocksIn column s s.outer

/-- Change the innermost collection. -/
def setLevel (s : TokenStream) (f : Level → Level) : TokenStream :=
  { s with levels := s.levels.modifyHead f }

/-- Nothing in the innermost collection may be a key any more. -/
def clearKey (s : TokenStream) : TokenStream :=
  s.setLevel fun l => { l with key := none }

/-- What may be a key turns out to be none. -/
def dropKey? (s : TokenStream) : Option TokenStream :=
  match s.key? with
  | some k => if k.required then none else some s.clearKey
  | none => some s

/-- Remember that a key may begin here. Something at the column of its block has to be one. -/
def saveKey? (s : TokenStream) : Option TokenStream :=
  if !s.keyAllowed then some s
  else do
    let c := s.cursor
    let s ← s.dropKey?
    let number := s.tokens.size
    return s.setLevel fun _ =>
      { number
        key := some {
          required := !s.inFlow && s.indent == c.column
          number
          index := c.index
          line := c.line
          column := c.column } }

/-- The longest key. -/
def keyReach : Nat := 1024

/-- Can a key still end here? It has to stand in one line. -/
def isOpenKey (s : TokenStream) (k : SimpleKey) : Bool :=
  k.line == s.cursor.line && s.cursor.index ≤ k.index + keyReach

/-- A token waits no longer for a key that begins with it. -/
def stopWaiting (s : TokenStream) (number : Nat) : TokenStream :=
  s.setLevel fun l =>
    { l with key := l.key.map fun k => if k.number = number then { k with awaited := false } else k }

/-- How many tokens have to be there before one is used, that one included. -/
def lookAhead : Nat := 3

/-- Can token number `n` be used? -/
def isReady (s : TokenStream) (n : Nat) : Bool :=
  n + lookAhead ≤ s.tokens.size &&
    s.levels.all fun l => l.key.all fun k =>
      k.number ≠ n || !k.awaited || !(s.isOpenKey k || k.required)

/-- Use tokens as long as they can be used. -/
def use (s : TokenStream) : TokenStream :=
  if _more : s.used < s.tokens.size then
    if s.isReady s.used then use { s with used := s.used + 1 } else s
  else s
termination_by s.tokens.size - s.used

/-! ### Between tokens -/

/-- Pass blanks and comments. A tab is no blank where a key can begin. -/
def passBlanks (s : TokenStream) : Cursor :=
  let c := s.cursor
  let c := if s.marked && c.column = 0 && !c.rest.isEmpty then c.advance 1 else c
  let c := c.passWhile fun x => x == ' ' || (x == '\t' && (s.inFlow || !s.keyAllowed))
  if c.isAt '#' then c.passComments else c

/-- Go to the next token. In a block, a key can begin in every line. -/
def toNextToken (s : TokenStream) : TokenStream :=
  let c := s.passBlanks
  if !c.atBreak then { s with cursor := c }
  else
    let next := { s with cursor := c.skipBreak, keyAllowed := s.keyAllowed || !s.inFlow }
    if next.cursor.rest.length < s.cursor.rest.length then toNextToken next else next
termination_by s.cursor.rest.length

/-! ### Tokens -/

/-- End the text. -/
def endStream? (s : TokenStream) : Option TokenStream := do
  let s ← (s.closeBlocks (-1)).dropKey?
  return { s with keyAllowed := false }.insert none .streamEnd

/-- Read a directive. -/
def directive? (s : TokenStream) : Option TokenStream := do
  let s ← (s.closeBlocks (-1)).dropKey?
  let (t, c) ← s.cursor.directive?
  return { s with cursor := c, keyAllowed := false }.insert none t

/-- Take the mark of a document. -/
def marker? (s : TokenStream) (t : Token) : Option TokenStream := do
  let s ← (s.closeBlocks (-1)).dropKey?
  return { s with keyAllowed := false }.take 3 t

/-- Open a flow collection, which itself may be a key. -/
def openFlow? (s : TokenStream) (t : Token) : Option TokenStream := do
  let s ← s.saveKey?
  if s.levels.length ≤ maxDepth then
    let level : Level := { number := s.tokens.size }
    return { s with levels := level :: s.levels, keyAllowed := true }.take 1 t
  else none

/-- Close a flow collection. If nothing in it could begin a key, the token that opened it waits no
longer. -/
def closeFlow? (s : TokenStream) (t : Token) : Option TokenStream := do
  let s ← s.dropKey?
  let s :=
    match s.levels with
    | inner :: l :: ls => { s with levels := l :: ls }.stopWaiting inner.number
    | _ => s
  return { s with keyAllowed := false }.take 1 t

/-- Take the comma between the entries of a flow collection. -/
def flowEntry? (s : TokenStream) : Option TokenStream := do
  let s ← s.dropKey?
  return { s with keyAllowed := true }.take 1 .flowEntry

/-- Take a mark that begins a block, if the block is not there yet. -/
def entryMark? (s : TokenStream) (block mark : Token) (keyAllowed : Bool) :
    Option TokenStream := do
  if !s.inFlow && !s.keyAllowed then none
  else
    let s ← s.openBlock? s.cursor.column none block
    let s ← s.dropKey?
    return { s with keyAllowed }.take 1 mark

/-- Take the mark of a value. If a key may have begun, it now has. -/
def value? (s : TokenStream) : Option TokenStream :=
  match s.key? with
  | none => bare? s
  | some k =>
    if s.isOpenKey k then do
      let s := s.insert (some k.number) .key
      let s ← s.openBlock? k.column (some k.number) .blockMappingStart
      return { s.clearKey with keyAllowed := false }.take 1 .value
    else if k.required then none
    else bare? s.clearKey
where
  /-- Take the mark of a value without a simple key before it. -/
  bare? (s : TokenStream) : Option TokenStream :=
    if s.inFlow then some ({ s with keyAllowed := false }.take 1 .value)
    else if !s.keyAllowed then none
    else do
      let s ← s.openBlock? s.cursor.column none .blockMappingStart
      return { s with keyAllowed := true }.take 1 .value

/-- Take a token that may begin a key, given how it is read. -/
def part? (s : TokenStream) (read : Cursor → Option (Token × Cursor)) : Option TokenStream := do
  let s ← s.saveKey?
  let (t, cursor) ← read s.cursor
  return { s with cursor, keyAllowed := false }.insert none t

/-- Take a block scalar. -/
def block? (s : TokenStream) : Option TokenStream := do
  let s ← s.dropKey?
  let (text, cursor) ← s.cursor.block? s.indent
  return { s with cursor, keyAllowed := true }.insert none (.scalar false text)

/-- Take a plain scalar. After a line break a key can begin again. -/
def plain? (s : TokenStream) : Option TokenStream := do
  let s ← s.saveKey?
  let p ← s.cursor.plain? s.inFlow (s.indent + 1)
  return { s with cursor := p.next, keyAllowed := p.broken }.insert none (.scalar true p.text)

/-- The marks that cannot begin a plain scalar, `-`, `?` and `:` apart. -/
def isMark (c : Char) : Bool :=
  isFlowMark c || [quote, apostrophe, backquote].contains c ||
    ['#', '&', '*', '!', '|', '>', '%', '@'].contains c

/-- Can a plain scalar begin like this? -/
def startsPlain (flow : Bool) (c : Char) (rest : List Char) : Bool :=
  if c == '-' then !rest.head?.any isBlank
  else if c == '?' || c == ':' then !flow && !endsWord rest
  else !(isBlank c || isBreak c || isMark c)

/-- Take the token that begins with a character. -/
def token? (s : TokenStream) (c : Char) (rest : List Char) : Option TokenStream :=
  if c == '[' then s.openFlow? .flowSequenceStart
  else if c == '{' then s.openFlow? .flowMappingStart
  else if c == ']' then s.closeFlow? .flowSequenceEnd
  else if c == '}' then s.closeFlow? .flowMappingEnd
  else if c == ',' then s.flowEntry?
  else if c == '-' && endsWord rest then s.entryMark? .blockSequenceStart .blockEntry true
  else if c == '?' && (s.inFlow || endsWord rest) then
    s.entryMark? .blockMappingStart .key (!s.inFlow)
  else if c == ':' && (s.inFlow || endsWord rest) then s.value?
  else if c == '*' then s.part? fun c => c.anchor?.map fun (n, c) => (.alias n, c)
  else if c == '&' then s.part? fun c => c.anchor?.map fun (n, c) => (.anchor n, c)
  else if c == '!' then s.part? (·.tag?)
  else if (c == '|' || c == '>') && !s.inFlow then s.block?
  else if c == apostrophe || c == quote then
    s.part? fun x => (x.quoted? (c == apostrophe)).map fun (t, x) => (.scalar false t, x)
  else if startsPlain s.inFlow c rest then s.plain?
  else none

/-- Read one more piece of the text. A comment in the same line belongs to it. -/
def next? (s : TokenStream) : Option TokenStream :=
  let s := s.toNextToken
  let s := s.closeBlocks s.cursor.column
  match s.cursor.rest with
  | [] => s.endStream?
  | c :: rest =>
    if s.cursor.column = 0 && c == '%' then s.directive?
    else if s.cursor.column = 0 && isMarker '-' s.cursor.rest then s.marker? .documentStart
    else if s.cursor.column = 0 && isMarker '.' s.cursor.rest then s.marker? .documentEnd
    else do
      let s ← s.token? c rest
      if s.tokens.back? = some .blockEntry then return s
      else return { s with cursor := s.cursor.passLineComment }

/-- Has the end of the text been taken? -/
def isComplete (s : TokenStream) : Bool :=
  s.tokens.back? == some .streamEnd

/-- Read the text as far as it goes. -/
def readFrom (s : TokenStream) : TokenStream :=
  match s.use.next? with
  | none => s
  | some next =>
    if next.isComplete then next
    else if next.cursor.rest.length < s.cursor.rest.length then readFrom next
    else s
termination_by s.cursor.rest.length

/-- The tokens of a text. -/
def read (text : List Char) : TokenStream :=
  readFrom { cursor := { rest := text }, marked := text.head? == some orderMark }

/-- Can token number `n` be used, even if the text behind it cannot be read to its end? -/
def reaches (s : TokenStream) (n : Nat) : Bool :=
  s.isComplete || n < s.use.used

end TokenStream

end TraceIR.Yaml
