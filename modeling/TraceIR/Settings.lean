import TraceIR.Config
import TraceIR.Yaml.Record

/-!
# Options and option files

An option file is a YAML mapping. Keys that are not there, or have no value, keep the defaults;
unknown keys are ignored; a key that stands twice and a value of the wrong type are errors. A file
without a document says nothing.

* `Settings.ofYaml` reads an option file.
-/

namespace TraceIR

/-- All options. -/
structure Settings where
  recording : Config := {}
  /-- Print a histogram after the trace. -/
  stats : Bool := false
  deriving DecidableEq, Repr, Inhabited

namespace Settings

/-- Texts that stand for a truth value where one is wanted. -/
def boolWords : List (Bytes × Bool) :=
  [("y", true), ("Y", true), ("yes", true), ("Yes", true), ("YES", true), ("on", true),
    ("On", true), ("ON", true), ("n", false), ("N", false), ("no", false), ("No", false),
    ("NO", false), ("off", false), ("Off", false), ("OFF", false)].map
    fun (s, b) => (Bytes.ascii s, b)

/-- The truth value that a value stands for. -/
def bool? : Yaml.Value → Option Bool
  | .bool b => some b
  | .text s => boolWords.lookup s
  | _ => none

/-- The integer part of a fraction. One that does not fit in 64 bits counts as the least number of
them, unless it is greater than all of them. -/
def wholePart? (x : Binary64) : Option Int :=
  let (n, d) := Binary64.ratio x.magnitude
  let k : Int := if x.isNegative then -(n / d : Nat) else (n / d : Nat)
  if !x.isNegative ∧ 0x8000000000000000 * d < n then none
  else if -0x8000000000000000 ≤ k ∧ k < 0x8000000000000000 then some k
  else some (-0x8000000000000000)

/-- The integer that a value stands for. Of a fraction the integer part counts. -/
def int? : Yaml.Value → Option Int
  | .int k => if k < 0x8000000000000000 then some k else none
  | .float x => wholePart? x
  | _ => none

/-- How a number is set. -/
def setInt (get : Config → Int) (set : Config → Int → Config) (n : Yaml.Node) (c : Config) :
    Yaml.Reading Config :=
  return set c (← n.scalarOr (get c) int?)

/-- How a switch is set. -/
def setBool (get : Config → Bool) (set : Config → Bool → Config) (n : Yaml.Node) (c : Config) :
    Yaml.Reading Config :=
  return set c (← n.scalarOr (get c) bool?)

/-- The recording options by name. -/
def recordingFields : Yaml.Fields Config :=
  [("min_ir_size", setInt (·.minSize) fun c k => { c with minSize := k }),
    ("max_ir", setInt (·.maxInstructions) fun c k => { c with maxInstructions := k }),
    ("max_const", setInt (·.maxConstants) fun c k => { c with maxConstants := k }),
    ("dce", setBool (·.deadCode) fun c b => { c with deadCode := b }),
    ("cse", setBool (·.cse) fun c b => { c with cse := b }),
    ("fold", setBool (·.fold) fun c b => { c with fold := b })].map
    fun (s, set) => (Bytes.ascii s, set)

/-- Set the recording options. -/
def setRecording (d : Yaml.Document) (n : Yaml.Node) (s : Settings) : Yaml.Reading Settings :=
  return { s with recording := ← d.readRecord recordingFields n s.recording }

/-- Set whether a histogram is printed. -/
def setStats (n : Yaml.Node) (s : Settings) : Yaml.Reading Settings :=
  return { s with stats := ← n.scalarOr s.stats bool? }

/-- All options by name. -/
def fields (d : Yaml.Document) : Yaml.Fields Settings :=
  [("ir", setRecording d), ("stats", setStats)].map fun (s, set) => (Bytes.ascii s, set)

/-- The options of an option file. -/
def ofYaml (text : Bytes) : Except Yaml.Halt Settings :=
  match Yaml.read? text with
  | none => .error .refused
  | some none => .ok {}
  | some (some d) => d.run fun n => d.readRecord (fields d) n {}

end Settings

end TraceIR
