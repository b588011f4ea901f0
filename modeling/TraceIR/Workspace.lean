import TraceIR.Trace.Basic

/-!
# Several traces

Traces are recorded one after another, and those that belong together share a pool of
floating-point constants. A workspace holds them and knows which pool belongs to which; the current
trace is the one that actions run on.
-/

namespace TraceIR

/-- Traces and the pools they share. -/
structure Workspace where
  pools : Array Pool := #[]
  /-- Every trace with the number of its pool. -/
  traces : Array (Nat × Trace) := #[]
  current : Nat := 0
  deriving Repr, Inhabited

namespace Workspace

/-- The current trace, seeing its pool as it is now. -/
def trace? (w : Workspace) : Option Trace := do
  let (p, t) ← w.traces[w.current]?
  return { t with pool := w.pools.getD p t.pool }

/-- Replace the current trace, and its pool with the one it now sees. -/
def setTrace (w : Workspace) (t : Trace) : Workspace :=
  match w.traces[w.current]? with
  | some (p, _) =>
    { w with
      pools := w.pools.setIfInBounds p t.pool
      traces := w.traces.setIfInBounds w.current (p, t) }
  | none => w

/-- Put a new trace that uses pool number `p` at the end and make it current. -/
def push (w : Workspace) (p : Nat) (t : Trace) : Workspace :=
  { w with traces := w.traces.push (p, t), current := w.traces.size }

/-- A new trace with a pool of its own. -/
def startFresh (w : Workspace) (config : Config) : Except Fault Workspace := do
  let t ← Trace.start config {}
  return { w with pools := w.pools.push t.pool }.push w.pools.size t

/-- A new trace with the pool of the current one. -/
def startShared (w : Workspace) (config : Config) : Except Fault Workspace :=
  match w.traces[w.current]? with
  | some (p, t) => do
    let t ← Trace.start config (w.pools.getD p t.pool)
    return w.push p t
  | none => w.startFresh config

/-- Make trace number `n` current, if there is one. -/
def use? (w : Workspace) (n : Int) : Option Workspace :=
  if 0 ≤ n ∧ n < w.traces.size then some { w with current := n.toNat } else none

/-- Run an action on the current trace. What it did before a failure stays. -/
def run {α : Type} (w : Workspace) (a : Action α) : Except Fault α × Workspace :=
  match w.trace? with
  | none => (.error (.broken .outOfBounds), w)
  | some t =>
    match a.run t with
    | .ok x t => (.ok x, w.setTrace t)
    | .error e t => (.error e, w.setTrace t)

end Workspace

end TraceIR
