import TraceIR.Script.Cursor
import TraceIR.Script.SyntaxError

/-!
# Outcomes of parsers

A parser takes a cursor and either has a result and a later cursor, or an error at some offset. An
error at the offset where the parser began means that it did not get going at all, and then
something else may be tried instead.

* `Outcome.firstOf` is the choice between parsers at one place.
* `Outcome.many` repeats a parser as long as it gets going.
-/

namespace TraceIR.Script

/-- The outcome of a parser. -/
inductive Outcome (α : Type) where
  /-- A result and the cursor after it. -/
  | done (a : α) (next : Cursor)
  /-- An error and its offset, which can lie beyond the end of the text. -/
  | failed (e : SyntaxError) (offset : Nat)
  /-- The parser would repeat itself forever. -/
  | endless
  /-- The parser began outside the text and would look at what is not there. -/
  | outside
  deriving DecidableEq, Repr

namespace Outcome

variable {α β : Type}

/-- Change the result. -/
def map (f : α → β) : Outcome α → Outcome β
  | .done a c => .done (f a) c
  | .failed e o => .failed e o
  | .endless => .endless
  | .outside => .outside

/-- Go on with another parser. -/
def bind (x : Outcome α) (f : α → Cursor → Outcome β) : Outcome β :=
  match x with
  | .done a c => f a c
  | .failed e o => .failed e o
  | .endless => .endless
  | .outside => .outside

/-- Say inside which step an error arose. -/
def during (s : Step) : Outcome α → Outcome α
  | .failed e o => .failed (.inside s e) o
  | x => x

/-- An error at `here` counts as one at `there`: what was passed before it was only preparation. -/
def rebase (here there : Nat) : Outcome α → Outcome α
  | .failed e o => .failed e (if o = here then there else o)
  | x => x

/-- What is left to say after all alternatives: the first error that got going, or that nothing
fits. -/
def firstFailure (start : Nat) (kinds : List ParserKind) :
    List (ParserKind × Outcome α) → Outcome α
  | [] => .failed (.noneOf kinds) start
  | (k, .failed e o) :: xs =>
    if o = start then firstFailure start kinds xs else .failed (.inside (.alternative k) e) o
  | _ :: xs => firstFailure start kinds xs

/-- The first alternative that did not fail. -/
def firstSuccess? : List (ParserKind × Outcome α) → Option (Outcome α)
  | [] => none
  | (_, .failed ..) :: xs => firstSuccess? xs
  | (_, x) :: _ => some x

/-- The choice between alternatives that all begin at `start`: the first success, else the first
error that got going. -/
def firstOf (start : Nat) (xs : List (ParserKind × Outcome α)) : Outcome α :=
  (firstSuccess? xs).getD (firstFailure start (xs.map (·.1)) xs)

/-- Repeat a parser after passing blanks until the text ends or it does not get going, given how
many items came before. An item that takes up nothing would be repeated forever. -/
def manyFrom (sep : Spaces) (item : Cursor → Outcome α) (index : Nat) (c : Cursor) :
    Outcome (List α) :=
  if c.rest.isEmpty then .done [] c
  else
    let first := sep.skip c
    match item first with
    | .failed e o => if o = first.pos then .done [] c else .failed (.inside (.item index) e) o
    | .endless => .endless
    | .outside => .outside
    | .done a next =>
      if next.rest.length < c.rest.length then
        (manyFrom sep item (index + 1) next).map (a :: ·)
      else .endless
termination_by c.rest.length

/-- Repeat a parser. -/
def many (sep : Spaces) (item : Cursor → Outcome α) (c : Cursor) : Outcome (List α) :=
  manyFrom sep item 0 c

end Outcome

end TraceIR.Script
