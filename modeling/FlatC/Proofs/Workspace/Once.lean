import FlatC.Proofs.Workspace.Reader

/-!
# Each file is read at most once

A file can come up again and again: it is included by several others, it
includes itself by way of others, its name is spelled in another case or
with other separators, or it is named by a later call. Its path is **entered**
in the table the first time a reader comes to it, whether or not there is
anything to read under it, and this is the only way into the table
(`Reader.paths_run`). Since a reader looks for a path before it enters it, no
two paths it enters are of one file, nor is any of them of a file that was
known before.

So each file is read at most once, by whatever number of calls
(`Workspace.readsOnce`). A path that is skipped for being too deep is not
entered, and may be entered later.
-/

namespace FlatC

namespace Reader

variable {sources : Sources} {r : Reader} {m : Move} {path : String}

/-- The path that the next step enters, if it enters one. -/
def entered? (r : Reader) : Option String := r.next?.bind Move.entered?

/-- **The paths entered** in so many steps, in order. -/
def entered (sources : Sources) (r : Reader) (n : Nat) : List String :=
  (List.range n).filterMap fun k => (r.run sources k).entered?

/-- One more step enters one more path, or none. -/
theorem entered_succ (sources : Sources) (r : Reader) (n : Nat) :
    r.entered sources (n + 1)
      = r.entered sources n ++ (r.run sources n).entered?.toList := by
  rw [entered, List.range_succ, List.filterMap_append]
  cases h : (r.run sources n).entered? <;> simp [entered, h]

/-! ## A step -/

/-- **A path is looked for** before it is entered, and is not found. -/
theorem find?_of_next? (h : r.next? = some m)
    (hm : m.entered? = some path) : r.workspace.files.find? path = none := by
  have hfits := fits_of_next? h
  cases m with
  | accept call =>
    cases hm
    exact hfits.2
  | ask path =>
    cases hm
    exact hfits.2.1
  | _ => cases hm

/-- **A move puts in the table the path it enters**, and no other. A path that
is asked for is put in whether or not its source is there, and one that is
skipped is not. -/
theorem files_make (h : r.next? = some m) :
    (r.make sources m).workspace.files
      = ⟨r.workspace.files.paths ++ m.entered?.toList⟩ := by
  cases m with
  | refuse call => simp [make, Move.entered?]
  | accept call => rfl
  | leave path => simp [make, Move.entered?]
  | skip path => simp [make, Move.entered?]
  | ask path =>
    have hfind := find?_of_next? h rfl
    rw [make]
    cases sources path with
    | ok bytes => rfl
    | error failure => exact FileTable.add_of_find?_eq_none hfind
  | turn s b rest => simp [make, Move.entered?]
  | finish s =>
    rw [make]
    split <;> simp [Move.entered?]

/-- A step puts in the table the path it enters, and no other. -/
theorem files_step (sources : Sources) (r : Reader) :
    (r.step sources).workspace.files
      = ⟨r.workspace.files.paths ++ r.entered?.toList⟩ := by
  rw [step, entered?]
  cases h : r.next? with
  | none => simp
  | some m => exact files_make h

/-- **A path just entered is known**, under the next number, so it is not
entered again. -/
theorem find?_step (h : r.entered? = some path) :
    (r.step sources).workspace.files.find? path
      = some ⟨r.workspace.files.size⟩ := by
  obtain ⟨m, hm, hpath⟩ := Option.bind_eq_some_iff.mp h
  rw [files_step, h]
  exact FileTable.find?_added (find?_of_next? hm hpath)

/-- The path just entered is the one under the next number, spelled as it was
met. -/
theorem path?_step (h : r.entered? = some path) :
    (r.step sources).workspace.files.path? ⟨r.workspace.files.size⟩
      = some path := by
  rw [files_step, h]
  exact FileTable.path?_added _ path

/-! ## A run -/

/-- **The table holds what was known and what was entered.** -/
theorem paths_run (sources : Sources) (r : Reader) (n : Nat) :
    (r.run sources n).workspace.files.paths
      = r.workspace.files.paths ++ r.entered sources n := by
  induction n with
  | zero => simp [run, entered]
  | succ n ih =>
    rw [run_succ, files_step, ih, entered_succ, List.append_assoc]

/-- Numbers that have been given keep their paths. -/
theorem prefix_run (sources : Sources) (r : Reader) (n k : Nat) :
    (r.run sources n).workspace.files.paths
      <+: (r.run sources (n + k)).workspace.files.paths := by
  rw [run_add, paths_run sources (r.run sources n) k]
  exact List.prefix_append _ _

/-- **No path is entered** that is of a known file, or of one entered before.
The induction is on the steps, with the table told by the paths entered so
far. -/
theorem distinct_run (sources : Sources) (r : Reader) (n : Nat) :
    (∀ p ∈ r.workspace.files.paths, ∀ q ∈ r.entered sources n,
        FileName.same p q = false)
      ∧ (r.entered sources n).Pairwise
        fun p q => FileName.same p q = false := by
  induction n with
  | zero => simp [entered]
  | succ n ih =>
    obtain ⟨hknown, hdistinct⟩ := ih
    rw [entered_succ]
    cases h : (r.run sources n).entered? with
    | none =>
      rw [Option.toList_none, List.append_nil]
      exact ⟨hknown, hdistinct⟩
    | some path =>
      obtain ⟨m, hm, hpath⟩ := Option.bind_eq_some_iff.mp h
      -- The path was looked for in the table, and that is all there was
      -- before.
      have hnew := FileTable.find?_eq_none_iff.mp (find?_of_next? hm hpath)
      rw [paths_run] at hnew
      rw [Option.toList_some]
      refine ⟨fun p hp q hq => ?_, List.pairwise_append.mpr
        ⟨hdistinct, List.pairwise_singleton _ _, fun p hp q hq => ?_⟩⟩
      · rcases List.mem_append.mp hq with hq | hq
        · exact hknown p hp q hq
        · rw [List.mem_singleton.mp hq]
          exact hnew p (List.mem_append_left _ hp)
      · rw [List.mem_singleton.mp hq]
        exact hnew p (List.mem_append_right _ hp)

/-- **Each file entered at most once**, in the work of a reader: what is known
of a path when it is entered, and of all that have been entered. -/
structure EntersOnce (sources : Sources) (r : Reader) : Prop where
  /-- No path of the same file is in the table when a path is entered. -/
  unknown : ∀ n path, (r.run sources n).entered? = some path →
    ∀ known ∈ (r.run sources n).workspace.files.paths,
      FileName.same known path = false
  /-- Right afterwards the path is there, whatever the sources answered. -/
  known : ∀ n path, (r.run sources n).entered? = some path →
    ∃ id, (r.run sources (n + 1)).workspace.files.find? path = some id
      ∧ (r.run sources (n + 1)).workspace.files.path? id = some path
  /-- The table holds what was known and what was entered, in order. -/
  paths : ∀ n, (r.run sources n).workspace.files.paths
    = r.workspace.files.paths ++ r.entered sources n
  /-- The paths entered are of different files. -/
  distinct : ∀ n, (r.entered sources n).Pairwise
    fun p q => FileName.same p q = false
  /-- None is of a file that was known before. -/
  new : ∀ n, ∀ p ∈ r.workspace.files.paths, ∀ q ∈ r.entered sources n,
    FileName.same p q = false
  /-- A file stays in the table, under its number. -/
  kept : ∀ n k id path,
    (r.run sources n).workspace.files.path? id = some path →
    (r.run sources (n + k)).workspace.files.path? id = some path
  /-- A path leads to its file's number from then on. -/
  found : ∀ n k id path,
    (r.run sources n).workspace.files.find? path = some id →
    (r.run sources (n + k)).workspace.files.find? path = some id
  /-- A path that is skipped for being too deep is not in the table, and is
  not put there. -/
  skipped : ∀ n path, (r.run sources n).next? = some (.skip path) →
    (r.run sources n).workspace.files.find? path = none
      ∧ (r.run sources (n + 1)).workspace.files
        = (r.run sources n).workspace.files

/-- **A reader enters each file at most once**, from whatever it starts with. -/
theorem entersOnce (sources : Sources) (r : Reader) :
    r.EntersOnce sources where
  unknown := fun n path h => by
    obtain ⟨m, hm, hpath⟩ := Option.bind_eq_some_iff.mp h
    exact FileTable.find?_eq_none_iff.mp (find?_of_next? hm hpath)
  known := fun n path h => by
    rw [run_succ]
    exact ⟨_, find?_step h, path?_step h⟩
  paths := paths_run sources r
  distinct := fun n => (distinct_run sources r n).2
  new := fun n => (distinct_run sources r n).1
  kept := fun n k id path =>
    FileTable.path?_of_prefix (prefix_run sources r n k)
  found := fun n k id path =>
    FileTable.find?_of_prefix (prefix_run sources r n k)
  skipped := fun n path h => by
    rw [run_succ, step_of_next? h]
    exact ⟨(fits_of_next? h).2.1, rfl⟩

end Reader

namespace Workspace

/-- **Each file read at most once**, in answering calls. A reader that is
given the calls enters a path when it takes a call for it or asks the
sources for it. -/
structure ReadsOnce (sources : Sources) (calls : List Call)
    (w : Workspace) : Prop where
  /-- The reader comes to the end, and leaves what tokenizing leaves. -/
  ends : ∃ n, (Reader.start calls w).run sources n
    = .done (w.tokenizeAll sources calls).2 (w.tokenizeAll sources calls).1
  /-- Tokenizing makes use of no path but those the reader asks for. -/
  asks : ∀ sources' : Sources,
    (∀ n path, ((Reader.start calls w).run sources n).next?
      = some (.ask path) → sources' path = sources path) →
    w.tokenizeAll sources' calls = w.tokenizeAll sources calls
  /-- The reader enters each file at most once. -/
  once : (Reader.start calls w).EntersOnce sources
  /-- A call for a known file is refused, and changes nothing. -/
  refused : ∀ (v : Workspace) (call : Call) (id : FileId),
    v.files.find? call.path = some id →
    v.tokenize sources call = (false, v)

/-- **Each file is read at most once**, whatever the sources, the calls and
what is known before. Files that include each other, and calls for a file that
has been included, are among these. -/
theorem readsOnce (sources : Sources) (calls : List Call)
    (w : Workspace) : ReadsOnce sources calls w where
  ends := Reader.reaches_tokenizeAll sources calls w []
  asks := fun _ h => tokenizeAll_congr h
  once := Reader.entersOnce sources (.start calls w)
  refused := fun _ _ _ h => tokenize_of_find?_eq_some h

/-- A file that is included under two spellings and includes the file it is
included by, one that is not there, and a second call. -/
example :
    let ascii : String → List UInt8 := fun s =>
      s.toList.map fun c => UInt8.ofNat c.toNat
    let sources : Sources := fun path =>
      if path = "b.h" then .ok (ascii "#include \x22A.c\x22\n")
      else .error .notFound
    let calls : List Call :=
      [⟨ascii
          "#include \x22b.h\x22\n#include \x22B.H\x22\n#include \x22no.h\x22",
          "a.c"⟩,
        ⟨[], "B.h"⟩]
    let reader := Reader.start calls .empty
    reader.entered sources 14 = ["a.c", "b.h", "no.h"]
      ∧ (reader.run sources 14).answers = [true, false] := by
  decide

end Workspace

end FlatC
