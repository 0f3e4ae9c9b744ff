/-!
# File names

Include paths are spelled by people on different platforms, so two names
are taken for one file when they differ only in the case of ASCII letters
and in which of the two separators `/` and `\` they use. `fold` brings a
name to one spelling, and being the same file is having equal folds, which
makes it an equivalence at once.

An include target is looked for where the including file lies: it is put
behind that file's directory, which is everything up to the last separator
of either kind.
-/

namespace FlatC.FileName

/-- Whether a character separates directories, on one platform or another. -/
def isSeparator (c : Char) : Bool := c == '/' || c == '\\'

/-- A character in the one spelling names are compared in. Letters outside of
ASCII stay as they are. -/
def foldChar (c : Char) : Char := if c == '\\' then '/' else c.toLower

/-- A name in the one spelling names are compared in, character by character,
so that it is as long as the name. -/
def fold (name : String) : List Char := name.toList.map foldChar

/-- **Whether two names are of the same file.** Parts such as `.` and `..` are
not resolved: `a/../b.h` and `b.h` are different files here. -/
def same (a b : String) : Bool := fold a == fold b

/-- **The directory of a path**: everything up to the last separator, and
nothing when there is none. The separator is part of it, so a target can be
put right behind. -/
def directory : List Char → List Char
  | [] => []
  | c :: cs =>
    match directory cs with
    | [] => if isSeparator c then [c] else []
    | d :: ds => c :: d :: ds

/-- **Where an include target lies**, seen from the including file. An
absolute target is put behind the directory like any other. -/
def resolve (including target : String) : String :=
  String.ofList (directory including.toList ++ target.toList)

theorem same_iff {a b : String} : same a b = true ↔ fold a = fold b := by
  rw [same, beq_iff_eq]

/-- A name is of the same file as itself. -/
@[simp] theorem same_refl (a : String) : same a a = true :=
  same_iff.mpr rfl

/-- The order of two names does not matter. -/
theorem same_comm (a b : String) : same a b = same b a := by
  rw [Bool.eq_iff_iff, same_iff, same_iff]
  exact eq_comm

/-- Names of the same file as a third are of the same file. -/
theorem same_trans {a b c : String} (hab : same a b = true)
    (hbc : same b c = true) : same a c = true :=
  same_iff.mpr ((same_iff.mp hab).trans (same_iff.mp hbc))

@[simp] theorem directory_nil : directory [] = [] := rfl

/-- A path without separators lies in no directory. -/
theorem directory_eq_nil {cs : List Char}
    (h : ∀ c ∈ cs, isSeparator c = false) : directory cs = [] := by
  induction cs with
  | nil => rfl
  | cons c cs ih =>
    have hc : isSeparator c = false := h c (List.mem_cons_self ..)
    have hcs : directory cs = [] :=
      ih fun d hd => h d (List.mem_cons_of_mem c hd)
    simp [directory, hcs, hc]

end FlatC.FileName
