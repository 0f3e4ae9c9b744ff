import FlatC.Bindings

/-!
# Where sources come from

A file to be read is asked for by its path, and either its bytes come back
or the reason why they cannot be had. Who answers is left open: the file
system, or a **store** that holds sources in memory under the exact paths
they are asked for by.
-/

namespace FlatC

/-- **Why a file cannot be read.** For an included file the reason does not
matter; for the file of a command line it is reported. -/
inductive ReadFailure where
  /-- There is no such file. -/
  | notFound
  /-- The file may not be read. -/
  | denied
  /-- The path is that of a directory. -/
  | isDirectory
  /-- The path goes on below a plain file. -/
  | notDirectory
  /-- A part of the path is longer than a file name may be. -/
  | nameTooLong
  /-- A store holds nothing under this path. -/
  | notStored (path : String)
  /-- Another reason, with its wording. -/
  | other (reason : String)
  deriving DecidableEq, Repr

/-- The wording of a failure, with the system's number for it where it has
one. -/
def ReadFailure.reason : ReadFailure → String
  | notFound => "No such file or directory (os error 2)"
  | denied => "Permission denied (os error 13)"
  | isDirectory => "Is a directory (os error 21)"
  | notDirectory => "Not a directory (os error 20)"
  | nameTooLong => "File name too long (os error 36)"
  | notStored path => "no such source: " ++ path
  | other reason => reason

/-- **What answers for paths.** The answer depends on the path alone, so that
asking again brings nothing new. -/
abbrev Sources := String → Except ReadFailure (List UInt8)

/-- **Sources held in memory**, by their exact paths. The spelling matters
here, other than in a table of files. -/
structure SourceStore where
  files : Bindings (List UInt8) := {}
  deriving Repr

namespace SourceStore

/-- The store without sources. -/
def empty : SourceStore := {}

/-- A source put under a path, in place of the one there. -/
def insert (s : SourceStore) (path : String) (bytes : List UInt8) :
    SourceStore :=
  ⟨s.files.insert path bytes⟩

/-- **The source under a path.** -/
def load (s : SourceStore) : Sources := fun path =>
  match s.files.find? path with
  | some bytes => .ok bytes
  | none => .error (.notStored path)

/-- What has been put under a path is found there. -/
@[simp] theorem load_insert_self (s : SourceStore) (path : String)
    (bytes : List UInt8) : (s.insert path bytes).load path = .ok bytes := by
  simp [load, insert]

end SourceStore

end FlatC
