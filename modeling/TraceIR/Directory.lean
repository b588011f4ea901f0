import TraceIR.Bytes

/-!
# Directories

What the program sees of a file system: a file can be read, or there is a reason why not. A
`Directory` is such a file system in memory, the files below one directory in which the program
works. Nothing is known of what lies outside it but that it is made of directories.

* `Directory.read` looks a path up part by part, as a system does: every part but the last has to
  be a directory, and a slash at the end asks for one too.
-/

namespace TraceIR

/-- Why a file cannot be read. -/
inductive FileError where
  /-- There is no such file, or no such directory on the way to it. -/
  | missing
  /-- A file stands where the path needs a directory. -/
  | notDirectory
  /-- The path leads to a directory. -/
  | isDirectory
  /-- The path, or a part of it, is longer than a name can be. -/
  | nameTooLong
  deriving DecidableEq, Repr, Inhabited

/-- The wording of a failure to read a file. A directory can be opened, but not read. -/
def FileError.message (name : Bytes) : FileError → Bytes
  | .missing => Bytes.ascii "open " ++ name ++ Bytes.ascii ": no such file or directory"
  | .notDirectory => Bytes.ascii "open " ++ name ++ Bytes.ascii ": not a directory"
  | .isDirectory => Bytes.ascii "read " ++ name ++ Bytes.ascii ": is a directory"
  | .nameTooLong => Bytes.ascii "open " ++ name ++ Bytes.ascii ": file name too long"

/-- The files below a directory, each with the names on the way to it and its contents. -/
structure Directory where
  files : List (List Bytes × Bytes) := []
  deriving DecidableEq, Repr, Inhabited

namespace Directory

/-- The parts of a path between slashes. -/
def parts : Bytes → List Bytes
  | [] => [[]]
  | c :: cs =>
    match parts cs with
    | [] => [[c]]
    | p :: ps => if c = 0x2f then [] :: p :: ps else (c :: p) :: ps

/-- The part for the directory itself. -/
def dot : Bytes :=
  Bytes.ascii "."

/-- The part for the directory above. -/
def dotDot : Bytes :=
  Bytes.ascii ".."

/-- The longest name of a file. -/
def maxName : Nat := 255

/-- The longest path. -/
def maxPath : Nat := 4095

/-- Add a file. -/
def add (d : Directory) (path contents : Bytes) : Directory :=
  ⟨d.files ++ [((parts path).filter fun p => p ≠ [] ∧ p ≠ dot, contents)]⟩

/-- The contents of the file at a place. -/
def file? (d : Directory) (place : List Bytes) : Option Bytes :=
  d.files.lookup place

/-- Does anything stand at a place? -/
def hasPlace (d : Directory) (place : List Bytes) : Bool :=
  place.isEmpty || d.files.any fun (p, _) => place.isPrefixOf p

/-- Follow the parts of a path from a place. No place is one outside. -/
def follow (d : Directory) :
    Option (List Bytes) → List Bytes → Except FileError (Option (List Bytes))
  | here, [] => .ok here
  | here, part :: rest =>
    if (here.bind d.file?).isSome then .error .notDirectory
    else if maxName < part.length then .error .nameTooLong
    else if part = [] ∨ part = dot then d.follow here rest
    else if part = dotDot then
      d.follow (here.bind fun h => if h.isEmpty then none else some h.dropLast) rest
    else
      match here with
      | none => .error .missing
      | some h =>
        let next := h ++ [part]
        if d.hasPlace next then d.follow (some next) rest else .error .missing

/-- The contents of the file that a path leads to. -/
def read (d : Directory) (path : Bytes) : Except FileError Bytes :=
  if path.isEmpty then .error .missing
  else if maxPath < path.length then .error .nameTooLong
  else
    match d.follow (if path.head? = some 0x2f then none else some []) (parts path) with
    | .error e => .error e
    | .ok here =>
      match here.bind d.file? with
      | some text => .ok text
      | none => .error .isDirectory

end Directory

end TraceIR
