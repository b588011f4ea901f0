import TraceIR.Command

/-!
# The command line

Reads the files that a command asks for, prints what it says, and ends with its exit code.
-/

open TraceIR

/-- What a failure of the system says about a file. The system's numbers for its errors tell a
directory that is read from a file that is taken for one. -/
def fileError : IO.Error → FileError
  | .inappropriateType _ code _ => if code = 21 then .isDirectory else .notDirectory
  | .invalidArgument .. => .nameTooLong
  | _ => .missing

/-- The contents of a file. -/
def readScript (name : Bytes) : IO (Except FileError Bytes) := do
  match name.toString? with
  | none => return .error .missing
  | some path =>
    try return .ok (← IO.FS.readBinFile path).toList
    catch e => return .error (fileError e)

def main (args : List String) : IO UInt32 := do
  let exit ← process readScript (args.map Bytes.ofString)
  (← IO.getStdout).write ⟨exit.out.toArray⟩
  (← IO.getStderr).write ⟨exit.err.toArray⟩
  return exit.code.toUInt32
