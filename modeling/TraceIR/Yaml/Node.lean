import TraceIR.Yaml.TokenStream

/-!
# YAML documents as trees

* `Document.ofTokens?` builds the tree of the first document from the tokens of a text.
* `Yaml.read?` does so from the text itself. It says nothing about the types of scalars or about
  repeated keys: those belong to whoever reads the tree.
-/

namespace TraceIR.Yaml

/-- A part of a document. -/
inductive Node where
  /-- A scalar with its tag, if it has one. A value that is not there is an empty plain scalar. -/
  | scalar (tag : Option Bytes) (plain : Bool) (text : Bytes)
  | list (items : List Node)
  | map (entries : List (Node × Node))
  /-- The name of another node. Aliases are numbered, and so are the nodes that have names: the
  target can be a node that holds the alias itself. -/
  | alias (number : Nat) (name : Bytes) (target : Nat)
  deriving Repr, Inhabited

/-- A document. -/
structure Document where
  root : Node
  /-- The nodes that have been given names. -/
  named : Array Node := #[]
  /-- The number of tokens that it was built from. -/
  size : Nat
  deriving Repr, Inhabited

namespace Node

/-- A value that is not there. -/
def absent : Node := .scalar none true []

/-- What is known while a tree is built. -/
structure Build where
  rest : List Token
  /-- The handles of tags and what they stand for. -/
  handles : List (List Char × Bytes) := []
  /-- The names given so far and the numbers of their nodes, the last one first. -/
  names : List (List Char × Nat) := []
  /-- The nodes that have names. One that is not complete counts as absent. -/
  named : Array Node := #[]
  /-- The number of aliases so far. -/
  aliases : Nat := 0
  deriving Inhabited

namespace Build

/-- Drop the next token. -/
def drop (b : Build) : Build :=
  { b with rest := b.rest.tail }

/-- Take an alias. Its name stands for the last node that was given it. -/
def takeAlias? (b : Build) (name : List Char) : Option (Node × Build) := do
  let target ← b.names.lookup name
  return (.alias b.aliases (bytes name) target, { b.drop with aliases := b.aliases + 1 })

/-- The text of a tag. -/
def tag? (b : Build) (handle : List Char) (suffix : Bytes) : Option Bytes :=
  if handle.isEmpty then some suffix
  else (b.handles.lookup handle).map (· ++ suffix)

/-- Give a name to the node that begins here. -/
def beginName (b : Build) (name : Option (List Char)) : Build :=
  match name with
  | some name =>
    { b with names := (name, b.named.size) :: b.names, named := b.named.push absent }
  | none => b

/-- Named node number `i` is complete, if the node has a name at all. -/
def endName (b : Build) (name : Option (List Char)) (i : Nat) (n : Node) : Build :=
  if name.isSome then { b with named := b.named.setIfInBounds i n } else b

/-- The anchor and the tag before a node, in either order. -/
structure Properties where
  anchor : Option (List Char) := none
  tag : Option Bytes := none
  deriving DecidableEq, Repr, Inhabited

/-- Take the anchor and the tag before a node. -/
def properties? (b : Build) : Option (Properties × Build) :=
  match b.rest with
  | .anchor a :: .tag h s :: rest => do
    return (⟨some a, some (← b.tag? h s)⟩, { b with rest })
  | .anchor a :: rest => some (⟨some a, none⟩, { b with rest })
  | .tag h s :: .anchor a :: rest => do
    return (⟨some a, some (← b.tag? h s)⟩, { b with rest })
  | .tag h s :: rest => do return (⟨none, some (← b.tag? h s)⟩, { b with rest })
  | _ => some ({}, b)

/-- Does the next token end a part of a block mapping? -/
def atBlockPart (b : Build) : Bool :=
  match b.rest with
  | .key :: _ | .value :: _ | .blockEnd :: _ => true
  | _ => false

/-- Does the next token end an entry of a flow collection that is closed by `close`? -/
def atFlowPart (close : Token) (b : Build) : Bool :=
  b.rest.head? == some .flowEntry || b.rest.head? == some close

end Build

/-- A scalar with its properties. An exclamation mark alone is no tag. -/
def ofScalar (p : Build.Properties) (plain : Bool) (text : List Char) : Node :=
  .scalar (p.tag.filter (· ≠ Bytes.ascii "!")) plain (bytes text)

mutual

/-- The node that begins with the next token. Blocks can begin only inside blocks, and only as the
part of a block mapping can a sequence stand at the column of what it belongs to. -/
def build? : Nat → Bool → Bool → Build → Option (Node × Build)
  | 0, _, _, _ => none
  | fuel + 1, block, indentless, b =>
    match b.rest with
    | .alias name :: _ => b.takeAlias? name
    | _ => do
      let (p, b) ← b.properties?
      let number := b.named.size
      let (n, b) ← content? fuel block indentless p (b.beginName p.anchor)
      return (n, b.endName p.anchor number n)

/-- What follows the properties of a node. -/
def content? : Nat → Bool → Bool → Build.Properties → Build → Option (Node × Build)
  | 0, _, _, _, _ => none
  | fuel + 1, block, indentless, p, b =>
    match b.rest with
    | .scalar plain text :: _ => some (ofScalar p plain text, b.drop)
    | .flowSequenceStart :: _ => do
      let (items, b) ← flowItems? fuel true b.drop
      return (.list items, b)
    | .flowMappingStart :: _ => do
      let (entries, b) ← flowEntries? fuel true b.drop
      return (.map entries, b)
    | t :: _ =>
      if t == .blockEntry && indentless then do
        let (items, b) ← indentlessItems? fuel b
        return (.list items, b)
      else if t == .blockSequenceStart && block then do
        let (items, b) ← blockItems? fuel b.drop
        return (.list items, b)
      else if t == .blockMappingStart && block then do
        let (entries, b) ← blockEntries? fuel b.drop
        return (.map entries, b)
      else if p == {} then none
      else some (ofScalar p true [], b)
    | [] => none

/-- The items of a block sequence. -/
def blockItems? : Nat → Build → Option (List Node × Build)
  | 0, _ => none
  | fuel + 1, b =>
    match b.rest with
    | .blockEntry :: next :: _ => do
      let (n, b) ←
        if next == .blockEntry || next == .blockEnd then some (absent, b.drop)
        else build? fuel true false b.drop
      let (ns, b) ← blockItems? fuel b
      return (n :: ns, b)
    | .blockEnd :: _ => some ([], b.drop)
    | _ => none

/-- The items of a sequence at the column of the mapping that it belongs to. -/
def indentlessItems? : Nat → Build → Option (List Node × Build)
  | 0, _ => none
  | fuel + 1, b =>
    match b.rest with
    | .blockEntry :: next :: _ => do
      let (n, b) ←
        if next == .blockEntry || b.drop.atBlockPart then some (absent, b.drop)
        else build? fuel true false b.drop
      let (ns, b) ← indentlessItems? fuel b
      return (n :: ns, b)
    | _ => some ([], b)

/-- The entries of a block mapping. -/
def blockEntries? : Nat → Build → Option (List (Node × Node) × Build)
  | 0, _ => none
  | fuel + 1, b =>
    match b.rest with
    | .key :: _ => do
      let (k, b) ←
        if b.drop.atBlockPart then some (absent, b.drop) else build? fuel true true b.drop
      let (v, b) ←
        if b.rest.head? ≠ some .value then some (absent, b)
        else if b.drop.atBlockPart then some (absent, b.drop)
        else build? fuel true true b.drop
      let (es, b) ← blockEntries? fuel b
      return ((k, v) :: es, b)
    | .blockEnd :: _ => some ([], b.drop)
    | _ => none

/-- The value of a pair inside a flow collection that is closed by `close`. -/
def flowValue? : Nat → Token → Build → Option (Node × Build)
  | 0, _, _ => none
  | fuel + 1, close, b =>
    if b.rest.head? ≠ some .value then some (absent, b)
    else if b.drop.atFlowPart close then some (absent, b.drop)
    else build? fuel false false b.drop

/-- The items of a flow sequence. A pair among them is a mapping of its own. -/
def flowItems? : Nat → Bool → Build → Option (List Node × Build)
  | 0, _, _ => none
  | fuel + 1, first, b =>
    match b.rest with
    | .flowSequenceEnd :: _ => some ([], b.drop)
    | t :: _ =>
      if !first && t ≠ .flowEntry then none
      else
        let b := if first then b else b.drop
        match b.rest with
        | .flowSequenceEnd :: _ => some ([], b.drop)
        | .key :: _ => do
          let b := b.drop
          let (k, b) ←
            if b.rest.head? = some .value || b.atFlowPart .flowSequenceEnd then
              some (absent, b.drop)
            else build? fuel false false b
          let (v, b) ← flowValue? fuel .flowSequenceEnd b
          let (ns, b) ← flowItems? fuel false b
          return (.map [(k, v)] :: ns, b)
        | _ => do
          let (n, b) ← build? fuel false false b
          let (ns, b) ← flowItems? fuel false b
          return (n :: ns, b)
    | [] => none

/-- The entries of a flow mapping. -/
def flowEntries? : Nat → Bool → Build → Option (List (Node × Node) × Build)
  | 0, _, _ => none
  | fuel + 1, first, b =>
    match b.rest with
    | .flowMappingEnd :: _ => some ([], b.drop)
    | t :: _ =>
      if !first && t ≠ .flowEntry then none
      else
        let b := if first then b else b.drop
        match b.rest with
        | .flowMappingEnd :: _ => some ([], b.drop)
        | .key :: _ => do
          let b := b.drop
          let (k, b) ←
            if b.rest.head? = some .value || b.atFlowPart .flowMappingEnd then some (absent, b)
            else build? fuel false false b
          let (v, b) ← flowValue? fuel .flowMappingEnd b
          let (es, b) ← flowEntries? fuel false b
          return ((k, v) :: es, b)
        | _ => do
          let (k, b) ← build? fuel false false b
          let (es, b) ← flowEntries? fuel false b
          return ((k, absent) :: es, b)
    | [] => none

end

end Node

/-! ### Documents -/

/-- What the tags of the language itself begin with. -/
def tagStem : Bytes := Bytes.ascii "tag:yaml.org,2002:"

namespace Document

/-- What handles of tags stand for unless a directive says otherwise. -/
def defaultHandles : List (List Char × Bytes) :=
  [(['!'], Bytes.ascii "!"), (['!', '!'], tagStem)]

/-- The directives of a document: what they say about handles, and the tokens after them. -/
def directives? : Bool → List (List Char × Bytes) → List Token →
    Option (List (List Char × Bytes) × List Token)
  | seen, handles, .version major minor :: ts =>
    if seen || major ≠ 1 || minor ≠ 1 then none else directives? true handles ts
  | seen, handles, .tagHandle h stem :: ts =>
    if (handles.lookup h).isSome then none else directives? seen (handles ++ [(h, stem)]) ts
  | _, handles, ts => some (handles, ts)

/-- Does a document that has been begun end before anything stands in it? -/
def isEmpty : List Token → Bool
  | .version .. :: _ | .tagHandle .. :: _ | .documentStart :: _ | .documentEnd :: _
  | .streamEnd :: _ => true
  | _ => false

/-- How much fuel building a tree from tokens takes. -/
def fuel (ts : List Token) : Nat :=
  4 * ts.length + 4

/-- The document that begins with the first token, and the tokens after it. -/
def build? (handles : List (List Char × Bytes)) (ts : List Token) :
    Option (Document × List Token) := do
  let b : Node.Build := { rest := ts, handles := handles ++ defaultHandles }
  let (root, b) ← Node.build? (fuel ts) true false b
  return ({ root, named := b.named, size := ts.length }, b.rest)

/-- The first document, if there is one, and the tokens after it. -/
def ofTokens? (ts : List Token) : Option (Option Document × List Token) :=
  match ts with
  | .streamEnd :: _ => some (none, ts)
  | .version .. :: _ | .tagHandle .. :: _ | .documentStart :: _ => do
    match ← directives? false [] ts with
    | (handles, .documentStart :: ts) =>
      if isEmpty ts then some (some { root := .absent, size := 0 }, ts)
      else (build? handles ts).map fun (d, ts) => (some d, ts)
    | _ => none
  | ts => (build? [] ts).map fun (d, ts) => (some d, ts)

end Document

/-- The first document of a text, if there is one. A text that is no YAML text gives nothing at
all, but what stands behind the first document need not be one. -/
def read? (text : Bytes) : Option (Option Document) := do
  let s := TokenStream.read (← characters? text)
  let (d, rest) ← Document.ofTokens? s.tokens.toList
  if s.reaches (s.tokens.size - rest.length) then some d else none

end TraceIR.Yaml
