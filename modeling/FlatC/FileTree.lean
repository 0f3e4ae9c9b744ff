import FlatC.Source.Store

/-!
# A tree of files in memory

A command line can be run against a tree of files that is held in memory
and answers as a file system would. A path is followed from the top of the
tree, one part after another: the empty part and `.` stay where they are,
`..` goes up, and a name goes down. It can go down only from a directory,
so a path that goes on after a plain file – even if only by a slash – is
refused, and one that ends at a directory names nothing that can be read.

Above the top lies a directory that holds nothing but what is not known.
-/

namespace FlatC

/-- **Files in directories**, each by the names that lead to it from the top.
A file that was put in later stands in front, and is the one that is read. -/
structure FileTree where
  files : List (List String × List UInt8) := []
  directories : List (List String) := []
  deriving Repr

namespace FileTree

/-- The tree that holds nothing, of which the top is there all the same. -/
def empty : FileTree := {}

/-- The parts of a path: what stands between its slashes. There is always one
at least, which may be empty. -/
def parts (path : List Char) : List (List Char) :=
  match path with
  | [] => [[]]
  | c :: cs =>
    match c == '/', parts cs with
    | true, ps => [] :: ps
    | false, [] => [[c]]
    | false, p :: ps => (c :: p) :: ps

/-- The names a path leads through, from the top. Going up from the top stays
there; this is for putting files in, not for following a path. -/
def names (path : String) : List String :=
  (parts path.toList).foldl (fun names p =>
    if p.isEmpty || p == ['.'] then names
    else if p == ['.', '.'] then names.dropLast
    else names ++ [String.ofList p]) []

/-- The directories that names lead through, from the top down, the last one
included. -/
def leading (names : List String) : List (List String) :=
  (List.range (names.length + 1)).map fun n => names.take n

/-- A directory put into the tree, with those it lies in. -/
def addDirectory (t : FileTree) (path : String) : FileTree :=
  { t with directories := leading (names path) ++ t.directories }

/-- **A file put into the tree**, with the directories it lies in. -/
def addFile (t : FileTree) (path : String) (bytes : List UInt8) : FileTree :=
  let names := names path
  { files := (names, bytes) :: t.files
    directories := leading names.dropLast ++ t.directories }

/-- The longest a name may be, in bytes, as is usual for file systems. -/
def maxName : Nat := 255

/-- The longest a path may be, in bytes, whatever its parts are. -/
def maxPath : Nat := 4095

/-- The file or failure at the end of a path, followed from a directory of the
tree, or from outside of it. A part of the path is looked at only when what is
before it was found to be a directory. -/
def follow (t : FileTree) : Option (List String) → List (List Char) →
    Except ReadFailure (List UInt8)
  | _, [] => .error .isDirectory
  | place, p :: ps =>
    if p.isEmpty || p == ['.'] then t.follow place ps
    else if p == ['.', '.'] then
      match place with
      | none => t.follow none ps
      | some [] => t.follow none ps
      | some here => t.follow (some here.dropLast) ps
    else
      let name := String.ofList p
      if maxName < name.utf8ByteSize then .error .nameTooLong
      else
        match place with
        | none => .error .notFound
        | some here =>
          let next := here ++ [name]
          if t.directories.contains next then t.follow (some next) ps
          else
            match t.files.lookup next with
            | none => .error .notFound
            | some bytes => if ps.isEmpty then .ok bytes else .error .notDirectory

/-- **What the tree answers for a path.** A path that begins with a slash is
followed from outside of the tree, where nothing is known. -/
def read (t : FileTree) : Sources := fun path =>
  if path.isEmpty then .error .notFound
  else if maxPath < path.utf8ByteSize then .error .nameTooLong
  else
    let start := if path.toList.head? = some '/' then none else some []
    t.follow start (parts path.toList)

/-- The empty path names nothing, in no tree. -/
@[simp] theorem read_empty_path (t : FileTree) :
    t.read "" = .error .notFound := rfl

end FileTree

end FlatC
