import FlatC.Proofs.Files.Naming

/-!
# Numbers of files

Paths are registered one after another, and each either is of a file that is
in the table or gets the next number. Since it is looked for before it is
added, no two paths of a table that was made so are of one file
(`Distinct.registerAll`). So it makes no difference that a path is looked for
from the front: there is at most one place where it can be found
(`Distinct.find?_eq_some_iff`). Paths are added at the end only, and a number,
once given, stays with its path (`registered`).

All of it rests on being of the same file as an equivalence. It is one for all
names, as names are of the same file exactly if they are alike byte by byte.
-/

namespace FlatC.FileTable

variable {t : FileTable} {path : String} {paths : List String} {id : FileId}
variable {i : Nat}

/-! ## One path -/

/-- **One more path** is put at the end if it is not found, and makes no
difference if it is. So a table only grows at its end, and by one path at a
time. -/
theorem add_cases (t : FileTable) (path : String) :
    t.add path = t
      ∨ t.find? path = none ∧ (t.add path).paths = t.paths ++ [path] := by
  cases h : t.find? path with
  | some id => exact .inl (by rw [add, register?, h])
  | none => exact .inr ⟨rfl, by rw [add_of_find?_eq_none h]⟩

/-- One more path leaves the numbers that there are. -/
theorem prefix_add (t : FileTable) (path : String) :
    t.paths <+: (t.add path).paths := by
  rcases add_cases t path with hadd | ⟨-, hadd⟩
  · simp [hadd]
  · rw [hadd]
    exact List.prefix_append _ _

/-- **A table that holds each file once**, under one of its names. Paths count
as the same file by what they are folded to, so the table may hold a name that
is not the one being looked for. -/
def Distinct (t : FileTable) : Prop :=
  t.paths.Pairwise fun p q => FileName.same p q = false

/-- A table without paths holds each of its files once. -/
theorem distinct_empty : Distinct .empty := List.Pairwise.nil

/-- **A path is looked for before it is added**, so no file gets in twice. -/
theorem Distinct.add (h : t.Distinct) (path : String) :
    (t.add path).Distinct := by
  rcases add_cases t path with hadd | ⟨hfind, hadd⟩
  · rwa [hadd]
  · rw [Distinct, hadd, List.pairwise_append]
    refine ⟨h, List.pairwise_singleton _ _, fun p hp q hq => ?_⟩
    rw [List.mem_singleton.mp hq]
    exact find?_eq_none_iff.mp hfind p hp

/-- Paths of one file have one number, in a table that holds each file once. -/
theorem Distinct.eq_of_same {id' : FileId} {p q : String} (h : t.Distinct)
    (hp : t.path? id = some p) (hq : t.path? id' = some q)
    (hsame : FileName.same p q = true) : id = id' := by
  obtain ⟨hlt, rfl⟩ := List.getElem?_eq_some_iff.mp hp
  obtain ⟨hlt', rfl⟩ := List.getElem?_eq_some_iff.mp hq
  have hpair := List.pairwise_iff_getElem.mp h
  rcases Nat.lt_trichotomy id.index id'.index with hlt | heq | hlt
  · rw [hpair _ _ _ _ hlt] at hsame
    cases hsame
  · cases id
    cases id'
    exact congrArg FileId.mk heq
  · rw [FileName.same_comm, hpair _ _ _ _ hlt] at hsame
    cases hsame

/-- A number is found only if the path under it is of the file that is looked
for. -/
theorem exists_path?_of_find? (h : t.find? path = some id) :
    ∃ known, t.path? id = some known ∧ FileName.same known path = true := by
  obtain ⟨i, hi, rfl⟩ := Option.map_eq_some_iff.mp h
  obtain ⟨hlt, hsame, -⟩ := List.findIdx?_eq_some_iff_getElem.mp hi
  exact ⟨_, List.getElem?_eq_getElem hlt, hsame⟩

/-- **The number a path leads to** is that of the one path of its file. If the
table has no such path then no number is found. -/
theorem Distinct.find?_eq_some_iff (h : t.Distinct) : t.find? path = some id
    ↔ ∃ known, t.path? id = some known
      ∧ FileName.same known path = true := by
  refine ⟨exists_path?_of_find?, fun ⟨known, hknown, hsame⟩ => ?_⟩
  cases hfind : t.find? path with
  | none =>
    have hmem := List.mem_of_getElem? hknown
    rw [find?_eq_none_iff.mp hfind known hmem] at hsame
    cases hsame
  | some first =>
    -- the path that is found is of the same file, so it is the one known
    obtain ⟨other, hother, hsame'⟩ := exists_path?_of_find? hfind
    rw [FileName.same_comm] at hsame'
    rw [h.eq_of_same hknown hother (FileName.same_trans hsame hsame')]

/-! ## Many paths -/

/-- **Paths registered one after another**: the number each one is given, if
it is given one, and the table there is then. A path of a file that is known
already gets no number. -/
def registerAll (t : FileTable) :
    List String → List (Option FileId) × FileTable
  | [] => ([], t)
  | path :: paths =>
    let given := (t.register? path).map Prod.fst
    let (more, t) := (t.add path).registerAll paths
    (given :: more, t)

/-- The table in the end is that of adding the paths one by one, without
looking at the answers. -/
theorem snd_registerAll (t : FileTable) (paths : List String) :
    (t.registerAll paths).2 = paths.foldl add t := by
  induction paths generalizing t with
  | nil => rfl
  | cons path paths ih => exact ih (t.add path)

/-- There is an answer for each path. -/
theorem length_fst_registerAll (t : FileTable) (paths : List String) :
    (t.registerAll paths).1.length = paths.length := by
  induction paths generalizing t with
  | nil => rfl
  | cons path paths ih => exact congrArg (· + 1) (ih (t.add path))

/-- A table keeps holding each file once, whatever is registered. -/
theorem Distinct.registerAll (h : t.Distinct) (paths : List String) :
    (t.registerAll paths).2.Distinct := by
  rw [snd_registerAll]
  induction paths generalizing t with
  | nil => exact h
  | cons path paths ih => exact ih (h.add path)

/-- Whatever is registered, numbers given before keep their paths. -/
theorem prefix_registerAll (t : FileTable) (paths : List String) :
    t.paths <+: (t.registerAll paths).2.paths := by
  rw [snd_registerAll]
  induction paths generalizing t with
  | nil => exact List.prefix_refl _
  | cons path paths ih => exact (prefix_add t path).trans (ih (t.add path))

/-- **A number is given to a path at most once**, so numbers stay below the
number of paths that were registered, and a word that can tell those apart
holds all of them. -/
theorem size_registerAll_le (t : FileTable) (paths : List String) :
    (t.registerAll paths).2.size ≤ t.size + paths.length := by
  rw [snd_registerAll]
  induction paths generalizing t with
  | nil => exact Nat.le_refl _
  | cons path paths ih =>
    have hone : (t.add path).size ≤ t.size + 1 := by
      rcases add_cases t path with hadd | ⟨-, hadd⟩
      · rw [hadd]
        exact Nat.le_succ _
      · rw [size, hadd, List.length_append]
        exact Nat.le_refl _
    have hothers := ih (t.add path)
    rw [List.foldl_cons, List.length_cons]
    omega

/-- **The table that so many of the paths leave**, the first ones. It is the
table that the next path is looked up in. -/
def after (paths : List String) (n : Nat) : FileTable :=
  (empty.registerAll (paths.take n)).2

/-- The table after one more path is the one before with this path added. -/
theorem after_succ (h : paths[i]? = some path) :
    after paths (i + 1) = (after paths i).add path := by
  rw [after, after, snd_registerAll, snd_registerAll, List.take_add_one, h,
    Option.toList_some, List.foldl_append]
  rfl

/-- The tables on the way are where the one at the end begins, so what has a
number on the way has it in the end. -/
theorem prefix_after (paths : List String) (n : Nat) :
    (after paths n).paths <+: (empty.registerAll paths).2.paths := by
  have hrest : paths.foldl add empty
      = (paths.drop n).foldl add (after paths n) := by
    rw [after, snd_registerAll, ← List.foldl_append, List.take_append_drop]
  rw [snd_registerAll, hrest, ← snd_registerAll]
  exact prefix_registerAll _ _

/-- **The answer to a path** is that of the table before it. This gives each
answer by itself, without the ones before it. -/
theorem fst_registerAll (h : paths[i]? = some path) :
    (empty.registerAll paths).1[i]?
      = some (((after paths i).register? path).map Prod.fst) := by
  have key : ∀ t : FileTable, (t.registerAll paths).1[i]?
      = some (((t.registerAll (paths.take i)).2.register? path).map
        Prod.fst) := by
    induction paths generalizing i with
    | nil => cases h
    | cons first paths ih =>
      intro t
      cases i with
      | zero =>
        cases h
        rfl
      | succ i => exact ih h (t.add first)
  exact key empty

/-- **Paths registered one after another**, told by the answers that were
given and the table there is in the end. Nothing is said about the tables on
the way but what can be seen of them in these. -/
structure Registered (paths : List String)
    (r : List (Option FileId) × FileTable) : Prop where
  /-- There is an answer for each path. -/
  length_eq : r.1.length = paths.length
  /-- No two paths of the table are of one file. -/
  distinct : r.2.paths.Pairwise fun p q => FileName.same p q = false
  /-- A path leads to a number exactly if the path under this number is of its
  file. -/
  found_iff : ∀ (path : String) (id : FileId), r.2.find? path = some id
    ↔ ∃ known, r.2.path? id = some known ∧ FileName.same known path = true
  /-- There is at most one such number. -/
  unique : ∀ (path known known' : String) (id id' : FileId),
    r.2.path? id = some known → FileName.same known path = true →
    r.2.path? id' = some known' → FileName.same known' path = true → id = id'
  /-- A path is refused exactly if it leads to a number already. -/
  refused_iff : ∀ (i : Nat) (path : String), paths[i]? = some path →
    (r.1[i]? = some none ↔ ∃ id, (after paths i).find? path = some id)
  /-- Then the table stays as it is. -/
  refused : ∀ i : Nat, r.1[i]? = some none →
    after paths (i + 1) = after paths i
  /-- Otherwise it is given the next number, and put there. -/
  given : ∀ (i : Nat) (path : String), paths[i]? = some path →
    (after paths i).find? path = none →
    r.1[i]? = some (some ⟨(after paths i).size⟩)
      ∧ (after paths (i + 1)).paths = (after paths i).paths ++ [path]
  /-- The path under a number never changes. -/
  kept : ∀ (n : Nat) (id : FileId) (path : String),
    (after paths n).path? id = some path → r.2.path? id = some path

/-- **Each file has one number**, whatever is registered. To be of the same
file is an equivalence of names, and means that they are alike byte by byte. A
path is given a number if it is the first one of its file, and all paths of
the file lead to this number from then on. -/
theorem registered (paths : List String) :
    (Equivalence fun a b => FileName.same a b = true)
      ∧ (∀ a b, FileName.same a b = true
        ↔ List.Forall₂ FileName.Alike (Utf8.encode a) (Utf8.encode b))
      ∧ Registered paths (empty.registerAll paths) := by
  have hdistinct := distinct_empty.registerAll paths
  refine ⟨⟨FileName.same_refl, fun h => (FileName.same_comm _ _).trans h,
    FileName.same_trans⟩, fun _ _ => FileName.same_iff_alike, ?_⟩
  exact {
    length_eq := length_fst_registerAll empty paths
    distinct := hdistinct
    found_iff := fun _ _ => hdistinct.find?_eq_some_iff
    unique := fun path known known' id id' hid hsame hid' hsame' => by
      rw [FileName.same_comm] at hsame'
      exact hdistinct.eq_of_same hid hid' (FileName.same_trans hsame hsame')
    refused_iff := fun i path hpath => by
      rw [fst_registerAll hpath, Option.some_inj, Option.map_eq_none_iff,
        register?_eq_none_iff, Option.isSome_iff_exists]
    refused := fun i hi => by
      obtain ⟨hlt, -⟩ := List.getElem?_eq_some_iff.mp hi
      rw [length_fst_registerAll] at hlt
      have hpath := List.getElem?_eq_getElem hlt
      rw [fst_registerAll hpath, Option.some_inj, Option.map_eq_none_iff] at hi
      rw [after_succ hpath, add, hi]
    given := fun i path hpath hfind => by
      rw [fst_registerAll hpath, after_succ hpath, add_of_find?_eq_none hfind,
        register?, hfind]
      exact ⟨rfl, rfl⟩
    kept := fun n _ _ => path?_of_prefix (prefix_after paths n) }

end FlatC.FileTable
