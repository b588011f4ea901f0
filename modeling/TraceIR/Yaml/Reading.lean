import TraceIR.Yaml.Value

/-!
# Reading a document node by node

Where an alias stands, the node that it names is read. A value that does not fit its place is a
mistake: reading goes on, but the document is refused in the end. Other faults end the reading at
once. So does borrowing too much: in a document that is not small, aliases may account for most of
the nodes that are read, but not for nearly all of them.

* `Document.read` reads a node or, through an alias, the node that it names.
* `Document.run` reads a whole document.
-/

namespace TraceIR.Yaml

/-- Why a document cannot be read. -/
inductive Halt where
  /-- Something in it is wrong. -/
  | refused
  /-- Something is merged into a mapping that has a collection among its keys. -/
  | broken
  deriving DecidableEq, Repr, Inhabited

/-- What is known while a document is read. -/
structure Progress where
  /-- The number of nodes visited so far. -/
  visits : Nat := 0
  /-- How many of them were reached through aliases. -/
  borrowed : Nat := 0
  /-- The aliases that are being followed, the innermost first. -/
  followed : List Nat := []
  /-- Has something not fitted its place? -/
  mistaken : Bool := false
  deriving DecidableEq, Repr, Inhabited

/-- The parts of a hundred that can be borrowed. It is 99 up to 400,000 visits, falls from there on
evenly, and is 10 from 4,000,000 visits on. To stay exact, it is counted in parts of 3,600,000. -/
def Progress.share (p : Progress) : Nat :=
  99 * 3600000 - 89 * (min p.visits 4000000 - 400000)

/-- Has too much been borrowed? -/
def Progress.isOverdrawn (p : Progress) : Bool :=
  100 < p.borrowed && 1000 < p.visits && p.visits * p.share < p.borrowed * 100 * 3600000

/-- What can be done while a document is read. -/
abbrev Reading := EStateM Halt Progress

namespace Reading

/-- Count a visit to a node. -/
def visit : Reading Unit := do
  let p ← get
  let p := { p with
    visits := p.visits + 1
    borrowed := if p.followed.isEmpty then p.borrowed else p.borrowed + 1 }
  set p
  if p.isOverdrawn then throw .refused

/-- Something does not fit its place. -/
def mistake : Reading Unit :=
  modify fun p => { p with mistaken := true }

end Reading

open Reading

namespace Document

/-- Named node number `i`. -/
def target (d : Document) (i : Nat) : Node :=
  d.named.getD i .absent

/-- Read a node. In place of an alias, read the node that it names, unless that has led to the
alias itself. -/
def read {α : Type} (d : Document) (n : Node) (f : Node → Reading α) : Reading α := do
  visit
  match n with
  | .alias number _ target =>
    if number ∈ (← get).followed then throw .refused
    modify fun p => { p with followed := number :: p.followed }
    visit
    let a ← f (d.target target)
    modify fun p => { p with followed := p.followed.tail }
    return a
  | n => f n

/-- Read a whole document, which counts as a node itself. -/
def run {α : Type} (d : Document) (f : Node → Reading α) : Except Halt α :=
  match (do visit; d.read d.root f : Reading α) {} with
  | .ok a p => if p.mistaken then .error .refused else .ok a
  | .error e _ => .error e

end Document

namespace Node

/-- The value of a scalar. A collection in its place is a mistake. -/
def value : Node → Reading (Option Value)
  | .scalar tag plain s =>
    match Value.ofScalar? tag plain s with
    | some v => return some v
    | none => throw .refused
  | _ => do
    mistake
    return none

/-- What a scalar says, or the default if it says nothing. -/
def scalarOr {α : Type} (default : α) (f : Value → Option α) (n : Node) : Reading α := do
  match ← n.value with
  | none | some .null => return default
  | some v =>
    match f v with
    | some a => return a
    | none =>
      mistake
      return default

/-- The name that a key stands for. A key without a value has none. -/
def name (n : Node) : Reading (Option Bytes) := do
  match n, ← n.value with
  | _, none | _, some .null => return none
  | _, some (.text s) => return some s
  | .scalar _ _ s, some _ => return some s
  | _, _ => return none

end Node

end TraceIR.Yaml
