import TraceIR.Yaml.Reading

/-!
# Reading mappings into records

The keys of a mapping are the names of fields. The value of a merge key is another mapping, or
several, whose entries count as far as there are no entries of those names already.

* `Document.readRecord` changes a record as a mapping says.
-/

namespace TraceIR.Yaml

open Reading

namespace Node

/-- Is this the key under which other mappings are merged in? -/
def isMerge : Node → Bool
  | .scalar none plain s => plain && s == Bytes.ascii "<<"
  | .scalar (some tag) _ s =>
    Value.kindOf? tag == some (Bytes.ascii "merge") && s == Bytes.ascii "<<"
  | _ => false

/-- Do two keys count as the same? Scalars and aliases are told apart by their texts, but
collections are not told apart at all. -/
def sameKey : Node → Node → Bool
  | .scalar _ _ s, .scalar _ _ t => s == t
  | .alias _ m _, .alias _ n _ => m == n
  | .list _, .list _ => true
  | .map _, .map _ => true
  | _, _ => false

/-- Are all keys different? -/
def distinctKeys : List (Node × Node) → Bool
  | [] => true
  | (k, _) :: es => es.all (fun e => !k.sameKey e.1) && distinctKeys es

/-- The nodes that are merged in where a node is the value of a merge key. -/
def mergeParts : Node → List Node
  | .list ns => ns
  | n => [n]

end Node

/-- How the values under known names change a record. -/
abbrev Fields (α : Type) := List (Bytes × (Node → α → Reading α))

namespace Document

variable {α : Type}

/-- Is a node a mapping or the alias of one? -/
def isMapping (d : Document) : Node → Bool
  | .map _ => true
  | .alias _ _ i =>
    match d.target i with
    | .map _ => true
    | _ => false
  | _ => false

/-- The names among the keys of a mapping. It cannot have collections as keys. -/
def keyNames (d : Document) : List (Node × Node) → Reading (List Bytes)
  | [] => return []
  | (k, _) :: es => do
    let v ← d.read k fun
      | .scalar tag plain s => (Node.scalar tag plain s).value
      | _ => throw .broken
    let names ← d.keyNames es
    match v with
    | some (.text s) => return s :: names
    | _ => return names

/-- Apply the entries of a mapping one after another, merge keys apart. If the mapping is merged
into another one, `taken` are the names that no longer count; those of the entries are added to
them. Of the known names, none may appear twice in a mapping: `done` are those that have. -/
def readEntries (d : Document) (known : Fields α) :
    Option (List Bytes) → List Bytes → α → List (Node × Node) → Reading (Option (List Bytes) × α)
  | taken, _, a, [] => return (taken, a)
  | taken, done, a, (k, v) :: es => do
    if k.isMerge then d.readEntries known taken done a es
    else
      match ← d.read k Node.name with
      | none => d.readEntries known taken done a es
      | some name =>
        if taken.any (·.contains name) then d.readEntries known taken done a es
        else
          let taken := taken.map (name :: ·)
          match known.lookup name with
          | none => d.readEntries known taken done a es
          | some set =>
            if name ∈ done then
              mistake
              d.readEntries known taken done a es
            else
              let a ← d.read v (set · a)
              d.readEntries known taken (name :: done) a es

/-- Apply a mapping: its own entries, and then what is merged in. -/
def readMapping (d : Document) (known : Fields α) :
    Nat → Option (List Bytes) → α → List (Node × Node) → Reading (Option (List Bytes) × α)
  | 0, _, _, _ => throw .refused
  | fuel + 1, taken, a, es => do
    if !Node.distinctKeys es then
      mistake
      return (taken, a)
    else
      let (taken, a) ← d.readEntries known taken [] a es
      match es.find? (·.1.isMerge) with
      | none => return (taken, a)
      | some (_, v) =>
        let names ← match taken with
          | some names => pure names
          | none => d.keyNames es
        let (names, a) ← v.mergeParts.foldlM
          (fun (names, a) n => do
            if !d.isMapping n then throw .refused
            d.read n fun
              | .map es => d.readMapping known fuel names a es
              | _ => throw .refused)
          (some names, a)
        return (if taken.isSome then names else none, a)

/-- How deep mappings can be merged into one another. Between two aliases the way leads down the
tree, and no alias is followed twice at a time. -/
def mergeDepth (d : Document) : Nat :=
  (d.size + 1) * (d.size + 1)

/-- Change a record as a mapping says. Without a value it stays as it is. -/
def readRecord (d : Document) (known : Fields α) (n : Node) (a : α) : Reading α := do
  match n with
  | .map es => return (← d.readMapping known d.mergeDepth none a es).2
  | n =>
    match ← n.value with
    | none | some .null => return a
    | some _ =>
      mistake
      return a

end Document

end TraceIR.Yaml
