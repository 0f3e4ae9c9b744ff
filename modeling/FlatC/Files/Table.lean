import FlatC.Files.Name
import FlatC.Token.Basic

/-!
# The table of files

The files read so far, in the order they were first met; a file's number
is its place in that order and never changes, since files are only ever
added. A path is added only if no path of the same file is there, so the
paths of a table that was built by adding are of different files. There are
never more numbers than paths that were added, so a word of 32 bits holds them
for fewer than `2 ^ 32` paths.
-/

namespace FlatC

/-- **The files read so far**, by the path each was met under. A file that
could not be read is among them, so that it is not asked for again. -/
structure FileTable where
  paths : List String := []
  deriving DecidableEq, Repr

namespace FileTable

/-- The table without files. -/
def empty : FileTable := {}

/-- **The number of the file a path is of**, if it is in the table. It is the
first path of that file which counts. -/
def find? (t : FileTable) (path : String) : Option FileId :=
  (t.paths.findIdx? fun known => FileName.same known path).map FileId.mk

/-- **A path added** under the next number, or nothing if its file is in the
table. The table is not changed then. -/
def register? (t : FileTable) (path : String) : Option (FileId × FileTable) :=
  match t.find? path with
  | some _ => none
  | none => some (⟨t.paths.length⟩, ⟨t.paths ++ [path]⟩)

/-- The table with a path added, unless its file is there. -/
def add (t : FileTable) (path : String) : FileTable :=
  match t.register? path with
  | some (_, added) => added
  | none => t

/-- The path of a file number, as it was first spelled. -/
def path? (t : FileTable) (id : FileId) : Option String := t.paths[id.index]?

/-- How many files the table holds. -/
def size (t : FileTable) : Nat := t.paths.length

@[simp] theorem find?_empty (path : String) : empty.find? path = none := rfl

/-- Paths of one file lead to the same number, so a file can be asked for in
any spelling. -/
theorem find?_congr (t : FileTable) {path other : String}
    (h : FileName.same path other = true) :
    t.find? path = t.find? other := by
  have hfold := FileName.same_iff.mp h
  simp only [find?, FileName.same, hfold]

/-- A path can be added exactly when its file is not in the table. -/
theorem register?_eq_none_iff {t : FileTable} {path : String} :
    t.register? path = none ↔ (t.find? path).isSome = true := by
  unfold register?
  cases t.find? path <;> simp

/-- The number a path is added under is the size the table had, and no number
there was becomes another's. -/
theorem register?_eq_some {t added : FileTable} {path : String} {id : FileId}
    (h : t.register? path = some (id, added)) :
    id.index = t.size ∧ added.paths = t.paths ++ [path] := by
  unfold register? at h
  split at h
  · cases h
  · cases h
    exact ⟨rfl, rfl⟩

/-- A file is not in the table when no known path is of it, in whatever
spelling. -/
theorem find?_eq_none_iff {t : FileTable} {path : String} :
    t.find? path = none
      ↔ ∀ known ∈ t.paths, FileName.same known path = false := by
  rw [find?, Option.map_eq_none_iff, List.findIdx?_eq_none_iff]

/-- **A path that is added** gets the next number. -/
theorem find?_added {t : FileTable} {path : String}
    (h : t.find? path = none) :
    (⟨t.paths ++ [path]⟩ : FileTable).find? path = some ⟨t.size⟩ := by
  rw [find?, Option.map_eq_none_iff] at h
  simp [find?, List.findIdx?_append, h, List.findIdx?_cons, size]

theorem path?_added (t : FileTable) (path : String) :
    (⟨t.paths ++ [path]⟩ : FileTable).path? ⟨t.size⟩ = some path := by
  simp [path?, size]

/-- A new path is added at the end. -/
theorem add_of_find?_eq_none {t : FileTable} {path : String}
    (h : t.find? path = none) : t.add path = ⟨t.paths ++ [path]⟩ := by
  rw [add, register?, h]

/-- More paths behind those of a table leave the numbers of its files as they
are. All that reading does to a table is to put paths behind. -/
theorem path?_of_prefix {t t' : FileTable} {id : FileId} {path : String}
    (h : t.paths <+: t'.paths) (hid : t.path? id = some path) :
    t'.path? id = some path := by
  obtain ⟨more, hmore⟩ := h
  have hlt := (List.getElem?_eq_some_iff.mp hid).1
  rw [path?, ← hmore, List.getElem?_append_left hlt]
  exact hid

/-- They hide none of its files either. -/
theorem find?_of_prefix {t t' : FileTable} {id : FileId} {path : String}
    (h : t.paths <+: t'.paths) (hid : t.find? path = some id) :
    t'.find? path = some id := by
  obtain ⟨more, hmore⟩ := h
  obtain ⟨i, hi, rfl⟩ := Option.map_eq_some_iff.mp hid
  rw [find?, ← hmore, List.findIdx?_append, hi]
  rfl

end FileTable

end FlatC
