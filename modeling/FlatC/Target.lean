import FlatC.TypeSizes

/-!
# Target machines

The sizes of the builtin types and of pointers differ from machine to
machine, so they are a parameter of everything that needs them. Nothing is
asked of them but that a type takes a byte at least (`Target.Positive`).

The sizes of the machine that the program runs on are known to it when it is
built. What is said of command lines is said of any such **host**; the one
that stands for it where none is named is a 64-bit machine on which `long` has
the size of a pointer.
-/

namespace FlatC

/-- **The sizes in bytes a target machine gives its builtin types.** Whether a
type has a sign makes no difference to its size. -/
structure Target where
  char : Nat := 1
  short : Nat := 2
  int : Nat := 4
  long : Nat := 8
  float : Nat := 4
  double : Nat := 8
  /-- The size of any pointer. -/
  pointer : Nat := 8
  deriving DecidableEq, Repr

namespace Target

/-- The machine the program runs on, unless another is named. What is proved
of command lines is proved of every host that can be. -/
def host : Target := {}

/-- The builtin types with their sizes, in the order in which a table of sizes
begins with them. -/
def builtins (t : Target) : List (String × Nat) :=
  [("char", t.char), ("short", t.short), ("int", t.int), ("long", t.long),
    ("float", t.float), ("double", t.double)]

/-- **A target that can be**: all of its sizes are positive. A size of 0 would
be taken for one that is not known. -/
def Positive (t : Target) : Prop :=
  (∀ builtin ∈ t.builtins, 0 < builtin.2) ∧ 0 < t.pointer

instance (t : Target) : Decidable t.Positive :=
  inferInstanceAs (Decidable (_ ∧ _))

/-- The host is one that can be. -/
theorem host_positive : host.Positive := by
  decide

/-- **The sizes known before any source is looked at.** The size of a pointer
is no type's and is kept apart. -/
def typeSizes (t : Target) : TypeSizes :=
  t.builtins.foldl (fun sizes (name, size) => sizes.insert name size)
    TypeSizes.empty

end Target

end FlatC
