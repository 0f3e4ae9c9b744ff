import FlatC.CommandLine.Run

/-!
# The program

Everything that is computed is computed by `CommandLine.run`; what is left
is to read files and to print. Reading a source says which files it
includes only while it is read, so files are fetched in rounds: the source
is tokenized with the files fetched so far, the files it asked for in vain
are fetched, and this is repeated until it asks for nothing new.
-/

namespace FlatC.Program

/-- The files fetched so far, with what came of each. A file that could not be
read is not fetched again. -/
abbrev Fetched := List (String × Except ReadFailure (List UInt8))

/-- What the files fetched so far answer for a path. One that has not been
fetched is answered for as if it were not there. -/
def answer (fetched : Fetched) : Sources := fun path =>
  (fetched.lookup path).getD (.error .notFound)

/-- Whether a code the system gives is this error number, whose sign it may
have turned. -/
def isCode (code : UInt32) (n : UInt32) : Bool := code == n || code == 0 - n

/-- Why the system could not read a file, as far as the reasons are told apart
here. -/
def failureOf : IO.Error → ReadFailure
  | .noFileOrDirectory .. => .notFound
  | .permissionDenied .. => .denied
  | .inappropriateType _ code _ =>
    if isCode code 21 then .isDirectory else .notDirectory
  | .invalidArgument _ code details =>
    if isCode code 36 then .nameTooLong else .other details
  | e => .other (toString e)

/-- A file fetched. Every failure is caught, since reading goes on without the
file. -/
def fetch (path : String) : IO (Except ReadFailure (List UInt8)) := do
  try
    let bytes ← IO.FS.readBinFile path
    return .ok bytes.toList
  catch e =>
    return .error (failureOf e)

/-- The files a source asks for fetched, in rounds. -/
partial def fetchAll (path : String) (bytes : List UInt8)
    (fetched : Fetched) : IO Fetched := do
  let read := Workspace.empty.tokenize? (answer fetched) bytes path
  let asked := (read.getD Workspace.empty).files.paths
  let missing := asked.filter fun p => (fetched.lookup p).isNone
  if missing.isEmpty then
    return fetched
  let more ← missing.mapM fun p => do
    return (p, ← fetch p)
  fetchAll path bytes (fetched ++ more)

end FlatC.Program

/-- **The program**: the files a command line needs are fetched, the
command line is run against them, and what comes of it is printed. -/
def main (args : List String) : IO UInt32 := do
  let fetched ←
    match (FlatC.Options.parse args).2 with
    | .error _ => pure []
    | .ok options => do
      let source ← FlatC.Program.fetch options.path
      let fetched := [(options.path, source)]
      match source with
      | .error _ => pure fetched
      | .ok bytes => FlatC.Program.fetchAll options.path bytes fetched
  let outcome := FlatC.CommandLine.run (FlatC.Program.answer fetched) args
  (← IO.getStdout).putStr outcome.stdout
  (← IO.getStderr).putStr outcome.stderr
  return outcome.code.toUInt32
