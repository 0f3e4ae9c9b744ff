import FlatC.Chain.Basic

/-!
# Searching the chain

A search looks for a run of consecutive tokens with given texts, where the
empty text stands for any token. Each token from the start on is tried in
turn, and the search gives up as soon as one of them runs off the end of
the chain with every text so far in place: the runs that start later are
shorter, so none of them can be complete either.

What is searched is a list of slots, and a slot's text is looked up where
it is needed, so an attempt reads no further than the run it tries.
-/

namespace FlatC

/-- How the attempt to find a run at one place ends. That the places ended is
told apart from a text that differs, since it ends the search as a whole. -/
inductive Attempt where
  /-- Every text is in place. -/
  | found
  /-- Some text differs. -/
  | differs
  /-- The places end first. -/
  | ranOut
  deriving DecidableEq, Repr

/-- **One attempt**: the wanted texts held against the texts from one place
on. It is over with the first text that differs, so what comes after that
place is not read. -/
def Attempt.run {α : Type} (text : α → String) :
    List String → List α → Attempt
  | [], _ => .found
  | _ :: _, [] => .ranOut
  | want :: wanted, place :: places =>
    if want.isEmpty || want == text place then
      Attempt.run text wanted places
    else .differs

/-- **The first place at which a run starts.** An attempt that runs off the
end ends the search as well: a later one would have fewer places still. -/
def searchRun? {α : Type} (text : α → String) (wanted : List String) :
    List α → Option α
  | [] => none
  | place :: places =>
    match Attempt.run text wanted (place :: places) with
    | .found => some place
    | .ranOut => none
    | .differs => searchRun? text wanted places

/-- An attempt at no texts is found at once. -/
@[simp] theorem Attempt.run_nil {α : Type} (text : α → String)
    (places : List α) : Attempt.run text [] places = .found := by
  cases places <;> rfl

/-- A run that is found is no longer than what it was found in. So a wanted
text that stands for any token still stands for one that is there. -/
theorem Attempt.length_le_of_found {α : Type} {text : α → String}
    {wanted : List String} {places : List α}
    (h : Attempt.run text wanted places = .found) :
    wanted.length ≤ places.length := by
  induction wanted generalizing places with
  | nil => exact Nat.zero_le _
  | cons want wanted ih =>
    cases places with
    | nil => cases h
    | cons place places =>
      rw [Attempt.run] at h
      split at h
      · exact Nat.succ_le_succ (ih h)
      · cases h

/-- Nothing is found in no places. -/
@[simp] theorem searchRun?_nil {α : Type} (text : α → String)
    (wanted : List String) : searchRun? text wanted [] = none := rfl

namespace TokenChain

/-- **The first slot, from a start on, at which a run starts.** The slots
looked at are as many as a run that starts in any of them can reach. -/
def find? (c : TokenChain) (start : Option TokenId) (wanted : List String) :
    Option TokenId :=
  searchRun? c.text wanted (c.walk (c.nodes.size + wanted.length + 1) start)

@[simp] theorem find?_none (c : TokenChain) (wanted : List String) :
    c.find? none wanted = none := by
  simp [find?]

end TokenChain

end FlatC
