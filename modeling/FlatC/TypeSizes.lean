import FlatC.Bindings

/-!
# Sizes of types

The sizes in bytes of the types a program names. A type nobody gave a size
has size 0, which no type really has.
-/

namespace FlatC

/-- **The sizes of types**, by name. A type has one size, whatever scope it
stands in. -/
structure TypeSizes where
  bindings : Bindings Nat := {}
  deriving Repr

namespace TypeSizes

/-- No sizes. -/
def empty : TypeSizes := {}

/-- A type given a size, in place of the one it had. -/
def insert (s : TypeSizes) (name : String) (size : Nat) : TypeSizes :=
  ⟨s.bindings.insert name size⟩

/-- **The size of a type**, 0 if it was given none. The two cannot be told
apart in a table that gives a type the size 0. -/
def sizeOf (s : TypeSizes) (name : String) : Nat :=
  (s.bindings.find? name).getD 0

/-- How many types were given a size, counted once each. -/
def size (s : TypeSizes) : Nat := s.bindings.size

@[simp] theorem sizeOf_empty (name : String) : empty.sizeOf name = 0 := rfl

@[simp] theorem sizeOf_insert_self (s : TypeSizes) (name : String)
    (n : Nat) : (s.insert name n).sizeOf name = n := by
  simp [sizeOf, insert]

/-- Giving one type a size leaves the others alone. -/
theorem sizeOf_insert_of_ne (s : TypeSizes) {name other : String} (n : Nat)
    (h : other ≠ name) : (s.insert name n).sizeOf other = s.sizeOf other := by
  simp [sizeOf, insert, Bindings.find?_insert_of_ne _ _ h]

end TypeSizes

end FlatC
