import TraceIR.Compile
import TraceIR.Directory
import TraceIR.Invocation
import TraceIR.Script.Outline

/-!
# Commands at work

What the program does, apart from reading files and printing.

* `Command.output` is what a command prints for one script.
* `Invocation.perform` carries a command out, file after file, until one of them fails. How a file
  is read is up to the caller.
* `process` is the whole program: from the arguments to what is printed and the exit code.
-/

namespace TraceIR

open Script

/-- Why a command stops early. -/
inductive Failure where
  /-- The option file cannot be read. -/
  | noConfig (name : Bytes) (e : FileError)
  /-- The option file says nothing sensible. -/
  | badConfig (name : Bytes) (e : Yaml.Halt)
  /-- A script cannot be read. -/
  | noScript (name : Bytes) (e : FileError)
  /-- A script cannot be parsed. -/
  | unparsed (name : Bytes) (place : Place) (e : SourceError)
  /-- A script has no trace. -/
  | untraced (name : Bytes) (e : CompileError)
  deriving DecidableEq, Repr, Inhabited

namespace Command

/-- What a command does to a file, in messages. -/
def activity : Command → Bytes
  | .run => Bytes.ascii "compile"
  | .parse => Bytes.ascii "parse"
  | .stats => Bytes.ascii "build"

/-- A command and the file it is at. -/
def about (c : Command) (name : Bytes) : Bytes :=
  c.activity ++ Bytes.ascii " " ++ name

/-- The wording of a failure of a command. A broken rule of the trace is no answer to a script and
has none, and neither has an option file that breaks the reading. -/
def failureMessage? (c : Command) : Failure → Option Bytes
  | .noConfig n e =>
    some ((Bytes.ascii "config").within ((Bytes.ascii "read config").within (e.message n)))
  | .badConfig _ .broken => none
  | .badConfig n .refused =>
    some ((Bytes.ascii "config").within
      ((Bytes.ascii "parse config " ++ n).within (Bytes.ascii "yaml: unmarshal errors")))
  | .noScript n e =>
    match c with
    | .stats => some ((Bytes.ascii "read " ++ n).within (e.message n))
    | c => some ((c.about n).within ((Bytes.ascii "read file").within (e.message n)))
  | .unparsed n p e => some ((c.about n).within (p.text.within e.message))
  | .untraced _ (.fault (.broken _)) => none
  | .untraced n e => e.message?.map (c.about n).within

/-- The line above the output for a trace. -/
def traceTitle (name : Bytes) : Bytes :=
  Bytes.ascii "---- TRACE " ++ name ++ Bytes.ascii "\n"

/-- The output of a command for one script. -/
def output (c : Command) (s : Settings) (name text : Bytes) : Except Failure Bytes :=
  match c with
  | .run => do
    let dump ← (compile s name text).mapError (.untraced name)
    return traceTitle name ++ dump
  | .parse =>
    match parseFile name text with
    | .tree p => .ok (name ++ Bytes.ascii ": " ++ p.outline)
    | .wrong place e => .error (.unparsed name place e)
    | .endless => .error (.untraced name .endless)
  | .stats => do
    let t ← (build s name text >>= optimize).mapError (.untraced name)
    let table ← (Histogram.text t).mapError fun b => .untraced name (.fault (.broken b))
    return traceTitle name ++ table

end Command

/-- What the program printed, and why it stopped early if it did. -/
structure Report where
  out : Bytes := []
  failure : Option Failure := none
  deriving DecidableEq, Repr, Inhabited

namespace Invocation

/-- The settings of an invocation. -/
def settings {m : Type → Type} [Monad m] (read : Bytes → m (Except FileError Bytes))
    (f : Flags) : m (Except Failure Settings) := do
  if f.config.isEmpty then return .ok (f.apply {})
  else
    match ← read f.config with
    | .error e => return .error (.noConfig f.config e)
    | .ok text =>
      match Settings.ofYaml text with
      | .ok s => return .ok (f.apply s)
      | .error e => return .error (.badConfig f.config e)

/-- Carry a command out for file after file, and stop at the first failure. What was printed
before it stays. -/
def performFiles {m : Type → Type} [Monad m] (read : Bytes → m (Except FileError Bytes))
    (c : Command) (s : Settings) : Report → List Bytes → m Report
  | r, [] => return r
  | r, name :: names => do
    match ← read name with
    | .error e => return { r with failure := some (.noScript name e) }
    | .ok text =>
      match c.output s name text with
      | .ok out => performFiles read c s { r with out := r.out ++ out } names
      | .error e => return { r with failure := some e }

/-- Carry a command out. Parsing needs no settings, so it does not look at the option file. -/
def perform {m : Type → Type} [Monad m] (read : Bytes → m (Except FileError Bytes))
    (i : Invocation) : m Report := do
  if i.command = .parse then performFiles read .parse {} {} i.files
  else
    match ← settings read i.flags with
    | .ok s => performFiles read i.command s {} i.files
    | .error e => return { failure := some e }

end Invocation

/-- What a process leaves behind. -/
structure Exit where
  code : UInt8
  out : Bytes
  err : Bytes
  deriving DecidableEq, Repr, Inhabited

/-- The exit with an error. -/
def Exit.failed (out message : Bytes) : Exit :=
  ⟨1, out, (Bytes.ascii "error").within (message ++ Bytes.ascii "\n")⟩

/-- The exit of a command. A failure without words has a code of its own. -/
def Exit.ofReport (c : Command) (r : Report) : Exit :=
  match r.failure with
  | none => ⟨0, r.out, []⟩
  | some e =>
    match c.failureMessage? e with
    | some m => .failed r.out (c.name.within m)
    | none => ⟨2, r.out, []⟩

/-- The whole program. -/
def process {m : Type → Type} [Monad m] (read : Bytes → m (Except FileError Bytes))
    (args : List Bytes) : m Exit := do
  match Invocation.ofArgs args with
  | .error e => return .failed [] e.message
  | .ok i => return .ofReport i.command (← i.perform read)

end TraceIR
