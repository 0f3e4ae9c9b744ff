/-!
# Bindings

A table from names to values, in the order the names were first bound. A
name is bound at most once: binding it again replaces its value and keeps
its place, so the number of entries is the number of names.
-/

namespace FlatC

/-- **Names bound to values**, each name with one entry at most. Entries are
in the order in which their names were first bound, which is the order a
listing of the table gives. -/
structure Bindings (α : Type) where
  entries : List (String × α) := []
  deriving Repr

namespace Bindings

variable {α : Type}

/-- The table without names, with which every session begins. -/
def empty : Bindings α := {}

/-- The entries with a name bound: in its place if it is there, at the end if
not. Only the first entry of a name is ever looked at, and there is no second. -/
def insertEntry (name : String) (value : α) :
    List (String × α) → List (String × α)
  | [] => [(name, value)]
  | (n, v) :: rest =>
    if n = name then (n, value) :: rest
    else (n, v) :: insertEntry name value rest

/-- **A name bound to a value.** -/
def insert (b : Bindings α) (name : String) (value : α) : Bindings α :=
  ⟨insertEntry name value b.entries⟩

/-- The value an entry of this name holds. -/
def findEntry? (name : String) : List (String × α) → Option α
  | [] => none
  | (n, v) :: rest => if n = name then some v else findEntry? name rest

/-- **The value a name is bound to**, the latest one where it was bound more
than once. -/
def find? (b : Bindings α) (name : String) : Option α :=
  findEntry? name b.entries

/-- How many names are bound. A name that is bound again is not counted again. -/
def size (b : Bindings α) : Nat := b.entries.length

/-- The bound names, in the order they were first bound. -/
def names (b : Bindings α) : List String := b.entries.map Prod.fst

/-- In the table without names none is bound. -/
@[simp] theorem find?_empty (name : String) :
    (empty : Bindings α).find? name = none := rfl

@[simp] theorem size_empty : (empty : Bindings α).size = 0 := rfl

/-- A name that has just been bound has the value it was bound to. -/
@[simp] theorem find?_insert_self (b : Bindings α) (name : String) (v : α) :
    (b.insert name v).find? name = some v := by
  obtain ⟨entries⟩ := b
  show findEntry? name (insertEntry name v entries) = some v
  induction entries with
  | nil => simp [insertEntry, findEntry?]
  | cons e rest ih =>
    obtain ⟨n, w⟩ := e
    by_cases h : n = name <;> simp [insertEntry, findEntry?, h, ih]

/-- Binding a name leaves every other name alone, also where it is put at the
end. -/
theorem find?_insert_of_ne (b : Bindings α) {name other : String} (v : α)
    (h : other ≠ name) : (b.insert name v).find? other = b.find? other := by
  obtain ⟨entries⟩ := b
  show findEntry? other (insertEntry name v entries)
    = findEntry? other entries
  induction entries with
  | nil => simp [insertEntry, findEntry?, Ne.symm h]
  | cons e rest ih =>
    obtain ⟨n, w⟩ := e
    by_cases hn : n = name
    · subst hn
      simp [insertEntry, findEntry?, Ne.symm h]
    · by_cases ho : n = other <;> simp [insertEntry, findEntry?, hn, h, ho, ih]

/-- **What a name is bound to after a name has been bound.** With this one
equation a table is used as a function from names, and its entries need not be
looked at. -/
theorem find?_insert (b : Bindings α) (name other : String) (v : α) :
    (b.insert name v).find? other
      = if other = name then some v else b.find? other := by
  split
  · next h => rw [h, find?_insert_self]
  · next h => exact find?_insert_of_ne b v h

end Bindings

end FlatC
