import FlatC.Chain.Search
import FlatC.Proofs.Chain.Cyclic

/-!
# The earliest run

A search tries one slot after another, and it gives up for good as soon as an
attempt runs off the end of the chain (`Attempt.ranOut`), though later slots
have not been tried. Nothing is lost by that. A run needs as many slots as
there are texts, and what is too short from one slot on is too short from any
later one on as well (`not_runAt_of_length_lt`).

The search is told here in three ways. `Hunts` follows the links as they are,
from one candidate to the next, and ends where the search does. `findEach?`
tries every slot, whatever came of the attempts before. Neither of them says
what is looked for, and that is left to `RunAt`: each wanted text is that of
the token so many places on, unless it is empty. On a chain all three come to
the same (`Laid.found_earliest`): the first slot, from the start on, at which
there is a run, and nothing if there is none.
-/

namespace FlatC

variable {α : Type} {text : α → String} {wanted : List String}
variable {places : List α}

/-- An attempt that runs off the end had too few places. This is what makes
giving up right. -/
theorem Attempt.length_lt_of_ranOut
    (h : Attempt.run text wanted places = .ranOut) :
    places.length < wanted.length := by
  induction wanted generalizing places with
  | nil =>
    rw [Attempt.run_nil] at h
    cases h
  | cons want wanted ih =>
    cases places with
    | nil => exact Nat.succ_pos _
    | cons place places =>
      rw [Attempt.run] at h
      split at h
      · exact Nat.succ_lt_succ (ih h)
      · cases h

namespace TokenChain

open Cell (entry slots)

variable {c : TokenChain} {cells : List Cell} {id later : TokenId}
variable {start : Option TokenId}

/-! ## Runs -/

/-- **A run at a slot**: so many places on there is a token for each wanted
text, and it has that text unless any token will do. -/
def RunAt (c : TokenChain) (wanted : List String) (id : TokenId) : Prop :=
  ∀ (i : Nat) (want : String), wanted[i]? = some want →
    ∃ place, c.nth? id i = some place ∧ (want = "" ∨ want = c.text place)

/-- No texts are a run at every slot. -/
theorem runAt_nil (c : TokenChain) (id : TokenId) : c.RunAt [] id :=
  fun _ _ h => nomatch h

/-- **A run goes on**: its first text is at the slot, and the others are a run
at the next one, if there are others. -/
theorem runAt_cons_iff {want : String} : c.RunAt (want :: wanted) id
    ↔ (want = "" ∨ want = c.text id)
      ∧ (wanted = [] ∨ ∃ next, c.next? id = some next ∧ c.RunAt wanted next) := by
  constructor
  · intro h
    obtain ⟨place, hplace, htext⟩ := h 0 want rfl
    obtain rfl := Option.some.inj hplace
    refine ⟨htext, ?_⟩
    cases wanted with
    | nil => exact Or.inl rfl
    | cons second wanted =>
      right
      obtain ⟨place, hplace, -⟩ := h 1 second rfl
      obtain ⟨next, hnext, -⟩ := Option.bind_eq_some_iff.mp hplace
      refine ⟨next, hnext, fun i want hi => ?_⟩
      obtain ⟨place, hplace, htext⟩ := h (i + 1) want hi
      rw [nth?, hnext] at hplace
      exact ⟨place, hplace, htext⟩
  · rintro ⟨htext, hrest⟩ i want' hi
    cases i with
    | zero =>
      obtain rfl := Option.some.inj hi
      exact ⟨id, rfl, htext⟩
    | succ i =>
      rw [List.getElem?_cons_succ] at hi
      rcases hrest with rfl | ⟨next, hnext, hrun⟩
      · cases hi
      · obtain ⟨place, hplace, htext⟩ := hrun i want' hi
        exact ⟨place, by rw [nth?, hnext]; exact hplace, htext⟩

/-- **The slot so many places on** from a start. -/
def Ahead (c : TokenChain) (start : Option TokenId) (k : Nat)
    (id : TokenId) : Prop :=
  ∃ first, start = some first ∧ c.nth? first k = some id

/-! ## Searches along the links -/

/-- **An attempt along the links**, one slot for each wanted text, as far as
the texts agree. -/
def attempt (c : TokenChain) : List String → Option TokenId → Attempt
  | [], _ => .found
  | _ :: _, none => .ranOut
  | want :: wanted, some id =>
    if want.isEmpty || want == c.text id then c.attempt wanted (c.next? id)
    else .differs

/-- **A search along the links**, from one candidate to the next, and what it
ends with. There is no bound on its steps in this; that it ends is shown by
giving the steps. -/
inductive Hunts (c : TokenChain) (wanted : List String) :
    Option TokenId → Option TokenId → Prop
  /-- There is no candidate left. -/
  | ended : Hunts c wanted none none
  | found {id : TokenId} : c.attempt wanted (some id) = .found →
    Hunts c wanted (some id) (some id)
  /-- The chain ends within an attempt, and the search with it. -/
  | ranOut {id : TokenId} : c.attempt wanted (some id) = .ranOut →
    Hunts c wanted (some id) none
  | differs {id : TokenId} {answer : Option TokenId} :
    c.attempt wanted (some id) = .differs →
    Hunts c wanted (c.next? id) answer → Hunts c wanted (some id) answer

/-- **A search that tries every slot** from a start on, whatever came of the
attempts before. It does not give up early, and is what the search is held
against. -/
def findEach? (c : TokenChain) (start : Option TokenId)
    (wanted : List String) : Option TokenId :=
  (c.walk c.nodes.size start).find? fun id =>
    c.attempt wanted (some id) == .found

/-- **An attempt succeeds where there is a run.** Both follow the links, the
one until a text differs, the other to each place. -/
theorem attempt_eq_found_iff :
    c.attempt wanted (some id) = .found ↔ c.RunAt wanted id := by
  induction wanted generalizing id with
  | nil => exact iff_of_true rfl (runAt_nil c id)
  | cons want wanted ih =>
    have htext : (want.isEmpty || want == c.text id) = true
        ↔ (want = "" ∨ want = c.text id) := by
      rw [Bool.or_eq_true, String.isEmpty_iff, beq_iff_eq]
    rw [runAt_cons_iff, ← htext, attempt]
    split
    · next h =>
      rw [h, eq_self_iff_true, true_and]
      cases hnext : c.next? id with
      | none => cases wanted <;> simp [attempt]
      | some next =>
        rw [ih]
        constructor
        · exact fun hrun => Or.inr ⟨next, rfl, hrun⟩
        · rintro (rfl | ⟨_, ⟨⟩, hrun⟩)
          · exact runAt_nil c next
          · exact hrun
    · next h =>
      exact iff_of_false (fun he => nomatch he) fun he => h he.1

/-! ## Searches of a chain -/

namespace Spelled

variable (h : c.Spelled cells none)
include h

/-- So many places on from the first cell is the slot at that place. -/
theorem ahead_iff {k : Nat} :
    c.Ahead (entry cells none) k id ↔ (slots cells)[k]? = some id := by
  unfold Ahead
  induction cells generalizing k with
  | nil => exact iff_of_false (fun ⟨_, hfirst, _⟩ => nomatch hfirst) nofun
  | cons cell rest ih =>
    simp only [entry, Option.some_inj, exists_eq_left']
    cases k with
    | zero => rfl
    | succ k =>
      rw [nth?, next?_of_node? h.1]
      refine Iff.trans ?_ (ih h.2)
      exact Option.bind_eq_some_iff

/-- An attempt along the links is one at the slots, in the order in which the
chain has them. -/
theorem attempt_entry (wanted : List String) :
    c.attempt wanted (entry cells none)
      = Attempt.run c.text wanted (slots cells) := by
  induction wanted generalizing cells with
  | nil => rw [Attempt.run_nil, attempt]
  | cons want wanted ih =>
    cases cells with
    | nil => rfl
    | cons cell rest =>
      show (if _ then c.attempt wanted (c.next? cell.slot) else _) = _
      rw [next?_of_node? h.1, ih h.2]
      rfl

/-- Behind each slot that is spelled out are those of the cells from there
on. -/
theorem exists_suffix (hid : id ∈ slots cells) :
    ∃ ahead, ahead <:+ cells ∧ c.Spelled ahead none
      ∧ entry ahead none = some id := by
  obtain ⟨cell, hcell, rfl⟩ := List.mem_map.mp hid
  obtain ⟨before, rest, rfl⟩ := List.append_of_mem hcell
  exact ⟨cell :: rest, List.suffix_append _ _, (spelled_append.mp h).2, rfl⟩

/-- **What is too short for a run holds none**: not at its first slot, and not
at a later one. So a search can give up with the first attempt that runs off
the end. -/
theorem not_runAt_of_length_lt (hlt : cells.length < wanted.length)
    (hid : id ∈ slots cells) : ¬ c.RunAt wanted id := by
  obtain ⟨ahead, hahead, hspelled, hentry⟩ := h.exists_suffix hid
  rw [← attempt_eq_found_iff, ← hentry, hspelled.attempt_entry]
  intro hfound
  have hle := Attempt.length_le_of_found hfound
  rw [slots, List.length_map] at hle
  exact absurd (Nat.le_trans hle hahead.length_le) (Nat.not_le_of_lt hlt)

omit h in
/-- A search tries the first cell, and goes on if some text differs there. -/
theorem searchRun?_cons {cell : Cell} {rest : List Cell}
    (h : c.Spelled (cell :: rest) none) (wanted : List String) :
    searchRun? c.text wanted (slots (cell :: rest))
      = match c.attempt wanted (some cell.slot) with
        | .found => some cell.slot
        | .ranOut => none
        | .differs => searchRun? c.text wanted (slots rest) := by
  rw [show some cell.slot = entry (cell :: rest) none from rfl,
    h.attempt_entry]
  rfl

/-- **Giving up early loses nothing**: the search ends with what it ends with
if every slot is tried. -/
theorem searchRun?_eq (wanted : List String) :
    searchRun? c.text wanted (slots cells)
      = (slots cells).find? fun id => c.attempt wanted (some id) == .found := by
  induction cells with
  | nil => rfl
  | cons cell rest ih =>
    have hslots : slots (cell :: rest) = cell.slot :: slots rest := rfl
    rw [h.searchRun?_cons, hslots, List.find?_cons]
    cases hrun : c.attempt wanted (some cell.slot) with
    | found => rfl
    | differs => exact ih h.2
    | ranOut =>
      rw [show some cell.slot = entry (cell :: rest) none from rfl,
        h.attempt_entry] at hrun
      have hlt := Attempt.length_lt_of_ranOut hrun
      rw [slots, List.length_map] at hlt
      refine (List.find?_eq_none.mpr fun id hid => ?_).symm
      rw [beq_iff_eq, attempt_eq_found_iff]
      exact h.not_runAt_of_length_lt hlt (List.mem_cons_of_mem _ hid)

/-- **The links lead through the search**, and to its end. -/
theorem hunts (wanted : List String) : c.Hunts wanted (entry cells none)
    (searchRun? c.text wanted (slots cells)) := by
  induction cells with
  | nil => exact .ended
  | cons cell rest ih =>
    rw [h.searchRun?_cons]
    cases hrun : c.attempt wanted (some cell.slot) with
    | found => exact .found hrun
    | ranOut => exact .ranOut hrun
    | differs =>
      refine .differs hrun ?_
      rw [next?_of_node? h.1]
      exact ih h.2

/-- **What is found** is the first slot at which there is a run: at none of
the slots before it there is one. -/
theorem searchRun?_eq_some_iff :
    searchRun? c.text wanted (slots cells) = some id
      ↔ c.RunAt wanted id ∧ ∃ k, c.Ahead (entry cells none) k id
        ∧ ∀ j < k, ∀ earlier, c.Ahead (entry cells none) j earlier →
          ¬ c.RunAt wanted earlier := by
  simp only [h.searchRun?_eq, List.find?_eq_some_iff_getElem, beq_iff_eq,
    attempt_eq_found_iff, h.ahead_iff, Bool.not_eq_true', beq_eq_false_iff_ne,
    ne_eq, List.getElem?_eq_some_iff]
  refine and_congr_right fun _ => exists_congr fun k => ?_
  constructor
  · rintro ⟨hk, hid, hfirst⟩
    refine ⟨⟨hk, hid⟩, ?_⟩
    rintro j hj _ ⟨_, rfl⟩
    exact hfirst j hj
  · rintro ⟨⟨hk, hid⟩, hfirst⟩
    exact ⟨hk, hid, fun j hj => hfirst j hj _ ⟨_, rfl⟩⟩

/-- Nothing is found where there is no run. -/
theorem searchRun?_eq_none_iff :
    searchRun? c.text wanted (slots cells) = none
      ↔ ∀ k later, c.Ahead (entry cells none) k later →
        ¬ c.RunAt wanted later := by
  simp only [h.searchRun?_eq, List.find?_eq_none, beq_iff_eq,
    attempt_eq_found_iff, h.ahead_iff, List.mem_iff_getElem?]
  exact ⟨fun hnone k later hk => hnone later ⟨k, hk⟩,
    fun hnone later ⟨k, hk⟩ => hnone k later hk⟩

end Spelled

/-- **What a search finds** from a start on, told of the steps along the
links, of the search that tries every slot, and of the runs themselves. -/
structure Found (c : TokenChain) (wanted : List String)
    (start answer : Option TokenId) : Prop where
  /-- The search along the links ends, with this answer. -/
  hunts : c.Hunts wanted start answer
  /-- It is the answer of the search that tries every slot. -/
  each : answer = c.findEach? start wanted
  /-- It is a slot exactly if there is a run at that slot, so many places on
  from the start, and none fewer places on. -/
  some_iff : ∀ id, answer = some id ↔ c.RunAt wanted id
    ∧ ∃ k, c.Ahead start k id
      ∧ ∀ j < k, ∀ earlier, c.Ahead start j earlier →
        ¬ c.RunAt wanted earlier
  /-- It is none exactly if there is no run from the start on. -/
  none_iff : answer = none
    ↔ ∀ k later, c.Ahead start k later → ¬ c.RunAt wanted later

/-- **The first run is found**, whatever the texts, from any slot of a chain
on; and nothing where there is no slot to start at. -/
theorem Laid.found_earliest (h : c.Laid c.cells)
    (hstart : ∀ id, start = some id → id ∈ c.ids) (wanted : List String) :
    c.Found wanted start (c.find? start wanted) := by
  -- the cells from the start on
  obtain ⟨ahead, hahead, hspelled, rfl⟩ : ∃ ahead, ahead <:+ c.cells
      ∧ c.Spelled ahead none ∧ entry ahead none = start := by
    cases start with
    | none => exact ⟨[], List.nil_suffix, trivial, rfl⟩
    | some id =>
      exact h.spelled.exists_suffix (h.ids_eq ▸ hstart id rfl)
  have hsize := Nat.le_trans hahead.length_le h.length_le_size
  have hwalk : ahead.length ≤ c.nodes.size + wanted.length + 1 := by omega
  rw [find?, hspelled.walk hwalk]
  refine ⟨hspelled.hunts wanted, ?_, fun id => hspelled.searchRun?_eq_some_iff,
    hspelled.searchRun?_eq_none_iff⟩
  rw [hspelled.searchRun?_eq, findEach?, hspelled.walk hsize]

/-- On a chain that comes back to a freed slot, any token between two given
ones is found from the second slot on, not from the first; and five tokens
that begin with the last but one are not. -/
theorem found_earliest_after_reuse :
    let t : String → Token := fun s => ⟨s, 1, .first⟩
    let c := (ChainOp.run act empty
      [.pushBack (t "x"), .pushBack (t "a"), .pushBack (t "b"),
        .pushBack (t "c"), .removeHead, .pushBack (t "a"), .pushBack (t "d"),
        .pushBack (t "c")]).2
    c.Laid c.cells
      ∧ c.find? (some ⟨2⟩) ["a", "", "c"] = some ⟨0⟩
      ∧ c.Found ["a", "", "c"] (some ⟨2⟩) (some ⟨0⟩)
      ∧ c.Found ["d", "", "", "", ""] (some ⟨2⟩) none := by
  intro t c
  have hlaid : c.Laid c.cells := laid_empty.run _
  have hstart : ∀ id, some (TokenId.mk 2) = some id → id ∈ c.ids := by
    rintro _ ⟨⟩
    decide
  have hsome : c.find? (some ⟨2⟩) ["a", "", "c"] = some ⟨0⟩ := by
    decide +kernel
  have hnone : c.find? (some ⟨2⟩) ["d", "", "", "", ""] = none := by
    decide +kernel
  exact ⟨hlaid, hsome, hsome ▸ hlaid.found_earliest hstart ["a", "", "c"],
    hnone ▸ hlaid.found_earliest hstart ["d", "", "", "", ""]⟩

end TokenChain

end FlatC
