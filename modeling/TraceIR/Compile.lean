import TraceIR.Histogram
import TraceIR.Script.Builder
import TraceIR.Script.Source
import TraceIR.Settings
import TraceIR.Trace.DeadCode

/-!
# From a script to a printed trace

* `build` parses a script and records it. Comparisons are folded and instructions are shared on
  the way.
* `compile` then removes dead code and prints the trace.
-/

namespace TraceIR

open Script

/-- Why a script has no trace. -/
inductive CompileError where
  | parse (place : Place) (e : SourceError)
  | build (place : Place) (e : BuildError)
  | fault (f : Fault)
  /-- The parser would repeat itself forever. -/
  | endless
  deriving DecidableEq, Repr, Inhabited

/-- The wording of a compile error. A breach that is not noticed as such has none. -/
def CompileError.message? : CompileError → Option Bytes
  | .parse p e => some ((Bytes.ascii "parse").within (p.text.within e.message))
  | .build p e => some ((Bytes.ascii "build trace").within (p.text.within e.message))
  | .fault f => f.message?
  | .endless => none

/-- A trace ready for a script. -/
def startTrace (config : Config) : Except CompileError Trace :=
  match Trace.start config {} with
  | .ok t => .ok { t with folder := some (.ofConfig t.config) }
  | .error f => .error (.fault f)

/-- Parse a script and record it. -/
def build (s : Settings) (name text : Bytes) : Except CompileError Trace :=
  match parseFile name text with
  | .wrong place e => .error (.parse place e)
  | .endless => .error .endless
  | .tree p => do
    let t ← startTrace s.recording
    match Builder.run p.statements { trace := t } with
    | .ok b => return b.trace
    | .error (_, .broken b) => throw (.fault (.broken b))
    | .error (stmt, .wrong e) => throw (.build ⟨name, Position.ofOffset text stmt.pos⟩ e)

/-- Remove dead code. -/
def optimize (t : Trace) : Except CompileError Trace :=
  match Trace.eliminateDeadCode t with
  | .ok _ t => .ok t
  | .error f _ => .error (.fault f)

/-- Parse a script, record it, remove dead code and print the trace. -/
def compile (s : Settings) (name text : Bytes) : Except CompileError Bytes := do
  let t ← optimize (← build s name text)
  let dump ← (Dump.trace t).mapError fun b => .fault (.broken b)
  let stats ← if s.stats then (Histogram.text t).mapError fun b => .fault (.broken b) else .ok []
  return dump ++ stats

end TraceIR
