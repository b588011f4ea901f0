import TraceIR.Settings

/-!
# Command lines

The arguments of the program: a command, the files it is for, and flags before, between or after
them. A flag begins with one or two dashes. Its value stands after `=` or a blank, or, for a flag
that needs one, in the next argument. After `--` there are no more flags.

* `Invocation.ofArgs` reads the arguments.
* `Flags.apply` says what flags do to the options of a file.
-/

namespace TraceIR

/-- What to do with every file. -/
inductive Command where
  /-- Record a script, optimise the trace and print it. -/
  | run
  /-- Print the syntax tree of a script. -/
  | parse
  /-- Print the histogram of an optimised trace. -/
  | stats
  deriving DecidableEq, Repr, Inhabited

namespace Command

def all : List Command := [.run, .parse, .stats]

def name : Command → Bytes
  | .run => Bytes.ascii "run"
  | .parse => Bytes.ascii "parse"
  | .stats => Bytes.ascii "stats"

def ofName? (s : Bytes) : Option Command :=
  all.find? (·.name == s)

end Command

/-! ### Flags -/

/-- The flags. -/
inductive Flag where
  /-- The option file. -/
  | config
  /-- The topics to log. Nothing is logged. -/
  | verbosity
  | noDeadCode
  | noCse
  | noFold
  | stats
  deriving DecidableEq, Repr, Inhabited

namespace Flag

/-- All names of all flags. -/
def names : List (Bytes × Flag) :=
  [("config", config), ("c", config), ("verbosity", verbosity), ("v", verbosity),
    ("no-dce", noDeadCode), ("no-cse", noCse), ("no-fold", noFold),
    ("stats", stats)].map fun (s, f) => (Bytes.ascii s, f)

/-- Does a flag need a value? The others are switches. -/
def wantsValue : Flag → Bool
  | .config | .verbosity => true
  | _ => false

end Flag

/-- What the flags say. -/
structure Flags where
  /-- The name of the option file. An empty one counts as none. -/
  config : Bytes := []
  noDeadCode : Bool := false
  noCse : Bool := false
  noFold : Bool := false
  stats : Bool := false
  deriving DecidableEq, Repr, Inhabited

/-! ### Invocations -/

/-- A command with its flags and files. -/
structure Invocation where
  command : Command
  flags : Flags
  files : List Bytes
  deriving DecidableEq, Repr, Inhabited

/-- What is wrong with a flag. -/
inductive FlagError where
  | unknown
  | missingValue
  | notBool
  deriving DecidableEq, Repr, Inhabited

/-- The wording of what is wrong with a flag. -/
def FlagError.message : FlagError → Bytes
  | .unknown => Bytes.ascii "no such flag"
  | .missingValue => Bytes.ascii "flag value is required"
  | .notBool => Bytes.ascii "not a bool value"

/-- What is wrong with the arguments. -/
inductive UsageError where
  /-- A word that is no command, where one has to stand. -/
  | noSuchCommand (word : Bytes)
  /-- An argument that is no flag, though it looks like one, and the command before it. -/
  | badFlag (command : Option Command) (arg : Bytes) (e : FlagError)
  | noCommand
  deriving DecidableEq, Repr, Inhabited

/-- The wording of an error in the arguments. -/
def UsageError.message : UsageError → Bytes
  | .noSuchCommand s => Bytes.ascii "no args expected, got " ++ s
  | .badFlag c arg e =>
    let m := (Bytes.ascii "parse flag").within (arg.within e.message)
    c.elim m fun c => c.name.within m
  | .noCommand => Bytes.ascii "command expected"

namespace Flags

/-- The words for the positions of a switch. A switch without a word is on. -/
def switchWords : List (Bytes × Bool) :=
  [("", true), ("1", true), ("t", true), ("true", true), ("y", true), ("yes", true), ("0", false),
    ("f", false), ("false", false), ("n", false), ("no", false)].map
    fun (s, b) => (Bytes.ascii s, b)

/-- Turn a switch. -/
def turn (f : Flags) (flag : Flag) (b : Bool) : Flags :=
  match flag with
  | .noDeadCode => { f with noDeadCode := b }
  | .noCse => { f with noCse := b }
  | .noFold => { f with noFold := b }
  | .stats => { f with stats := b }
  | .config | .verbosity => f

/-- Give a flag its value. Words for switches may be written in letters of any case. -/
def assign (f : Flags) (flag : Flag) (value : Bytes) : Except FlagError Flags :=
  match flag with
  | .config => .ok { f with config := value }
  | .verbosity => .ok f
  | flag =>
    match switchWords.lookup value.lower with
    | some b => .ok (f.turn flag b)
    | none => .error .notBool

/-- The name of the flag that an argument gives, without the dashes. -/
def nameOf (arg : Bytes) : Bytes :=
  let name := arg.takeWhile fun c => c != 0x3d && c != 0x20
  match name with
  | 0x2d :: 0x2d :: name => name
  | 0x2d :: name => name
  | name => name

/-- The value that stands in the argument of a flag. -/
def valueOf? (arg : Bytes) : Option Bytes :=
  (arg.dropWhile fun c => c != 0x3d && c != 0x20).tail?

/-- Take the flag that an argument gives, with the argument after it, if there is one. Says also
whether that one is used up as the value. -/
def take (f : Flags) (arg : Bytes) (next : Option Bytes) : Except FlagError (Flags × Bool) :=
  match Flag.names.lookup (nameOf arg), valueOf? arg with
  | none, _ => .error .unknown
  | some flag, some value => return (← f.assign flag value, false)
  | some flag, none =>
    if !flag.wantsValue then return (← f.assign flag [], false)
    else
      match next with
      | none => .error .missingValue
      | some value => return (← f.assign flag value, true)

/-- The settings under these flags. A switch can only add to what the option file says. -/
def apply (f : Flags) (s : Settings) : Settings :=
  { recording := { s.recording with
      deadCode := s.recording.deadCode && !f.noDeadCode
      cse := s.recording.cse && !f.noCse
      fold := s.recording.fold && !f.noFold }
    stats := s.stats || f.stats }

end Flags

namespace Invocation

/-- What the arguments read so far say. -/
structure Draft where
  command : Option Command := none
  flags : Flags := {}
  files : List Bytes := []
  deriving DecidableEq, Repr, Inhabited

namespace Draft

/-- Take a word that is not a flag: the first one is the command. -/
def addWord (d : Draft) (word : Bytes) : Except UsageError Draft :=
  match d.command with
  | some _ => .ok { d with files := d.files ++ [word] }
  | none =>
    match Command.ofName? word with
    | some c => .ok { d with command := some c }
    | none => .error (.noSuchCommand word)

/-- Take words none of which is a flag or a command. -/
def addFiles (d : Draft) (words : List Bytes) : Except UsageError Draft :=
  match d.command, words with
  | none, word :: _ => .error (.noSuchCommand word)
  | _, words => .ok { d with files := d.files ++ words }

/-- Replace the flags. -/
def withFlags (d : Draft) (flags : Flags) : Draft :=
  { d with flags }

/-- Does an argument look like a flag? A single dash does not. -/
def looksLikeFlag (arg : Bytes) : Bool :=
  arg.head? == some 0x2d && arg.length ≠ 1

/-- Read arguments from left to right. -/
def addArgs (d : Draft) : List Bytes → Except UsageError Draft
  | [] => .ok d
  | arg :: args => do
    if arg = Bytes.ascii "--" then d.addFiles args
    else if !looksLikeFlag arg then (← d.addWord arg).addArgs args
    else
      let (flags, usedNext) ← (d.flags.take arg args.head?).mapError (.badFlag d.command arg)
      match usedNext, args with
      | true, _ :: args => (d.withFlags flags).addArgs args
      | _, args => (d.withFlags flags).addArgs args

end Draft

/-- The invocation that the arguments describe. -/
def ofArgs (args : List Bytes) : Except UsageError Invocation := do
  let d ← ({} : Draft).addArgs args
  match d.command with
  | some command => return { command, flags := d.flags, files := d.files }
  | none => throw .noCommand

end Invocation

end TraceIR
