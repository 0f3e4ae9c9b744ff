import Mathlib.Data.List.Rotate
import FlatC.Proofs.Chain.Relay
import FlatC.Proofs.Chain.Runs

/-!
# Copies by their places

Where copies go and what they hold is a matter of two places on the chain,
that of the destination and that of the source, and of how many are asked
for. The copies stand behind the destination, in slots that held nothing.
The `i`-th of them is a copy of

* the token `i` places behind the source, if the source comes after the
  destination, as long as there is one;
* the token `i` places behind the source with `i` counted round the stretch
  from the source to the destination, if it comes at or before it
  (`getElem?_cycle`). There is always one, so all that are asked for are
  put in.

Everything else is as it was (`CopiedBehind`): the cells before and behind
the copies, the head, and every slot but the destination's, on the chain or
beside it, with what it held and where it led.
-/

namespace FlatC

variable {ts : List Token} {n i : Nat}

/-! ## Round a stretch -/

/-- A stretch that is not empty gives as many tokens as are asked for. -/
theorem length_cycle (h : ts ≠ []) (n : Nat) : (cycle n ts).length = n := by
  induction n generalizing ts with
  | zero => rfl
  | succ n ih =>
    cases ts with
    | nil => exact absurd rfl h
    | cons t ts => rw [cycle, List.length_cons, ih (by simp)]

/-- **Over and over is round and round**: the token at a place is the one of
the stretch at that place, counted round. -/
theorem getElem?_cycle (h : i < n) (ts : List Token) :
    (cycle n ts)[i]? = ts[i % ts.length]? := by
  induction n generalizing ts i with
  | zero => exact absurd h (Nat.not_lt_zero i)
  | succ n ih =>
    cases ts with
    | nil => simp [cycle]
    | cons t ts =>
      cases i with
      | zero => simp [cycle]
      | succ i =>
        have hrotate : ts ++ [t] = (t :: ts).rotate 1 := by simp
        rw [cycle, List.getElem?_cons_succ, ih (Nat.lt_of_succ_lt_succ h),
          hrotate, List.length_rotate,
          List.getElem?_rotate (Nat.mod_lt i (by simp)), Nat.mod_add_mod]

/-- The cells from a place on are entered by the slot at that place. -/
theorem Cell.entry_drop (cells : List Cell) (s : Nat) :
    entry (cells.drop s) none = (slots cells)[s]? := by
  have hhead : ∀ xs : List Cell, entry xs none = xs.head?.map Cell.slot :=
    fun xs => by cases xs <;> rfl
  rw [hhead, List.head?_drop, List.getElem?_map]

/-! ## What copying leaves alone -/

namespace TokenChain

open Cell (entry slots)

variable {c : TokenChain} {r : Option TokenId × TokenChain}
variable {copies : List Cell} {dest src id : TokenId} {d s : Nat}

/-- **A slot that held something** holds it afterwards and leads where it
led, unless it is the destination. -/
theorem Accounted.node?_copyAfter (h : c.Accounted)
    (hlive : (c.node? id).isSome = true) (hid : id ≠ dest)
    (src : TokenId) (n : Nat) :
    (c.copyAfter dest src n).2.node? id = c.node? id := by
  induction n generalizing c dest src with
  | zero => rfl
  | succ n ih =>
    cases ht : c.get? src with
    | none => rw [copyAfter_of_get?_eq_none ht]
    | some t =>
      have hnew : id ≠ c.pool.take.1 := by
        rintro rfl
        rw [h.node?_take] at hlive
        cases hlive
      have hins : (c.insertAfter dest t).2.node? id = c.node? id := by
        rw [h.node?_insertAfter, if_neg hnew, if_neg hid]
      rw [copyAfter_succ ht]
      split
      · exact hins
      · exact (ih (h.insertAfter dest t) (hins ▸ hlive) hnew _).trans hins

/-- **The slots that copies are put in** held nothing, so no token is
overwritten. -/
theorem Accounted.node?_of_mem_copy (h : c.Accounted) (ts : List Token)
    {x : Cell} (hx : x ∈ (c.pool.copy ts).1) : c.node? x.slot = none := by
  refine Option.not_isSome_iff_eq_none.mp fun hlive => ?_
  have hcount := c.pool.stock_copy ts x.slot
  rw [h.stock_pool_eq_zero hlive] at hcount
  have hpos : 0 < (slots (c.pool.copy ts).1).count x.slot :=
    List.count_pos_iff.mpr (List.mem_map_of_mem hx)
  omega

/-! ## Copies by their places -/

/-- **Tokens copied along a chain**, `n` of them if there are as many: from
place `s` on, to behind the slot `dest` at place `d`. Which tokens these are
depends on which of the two places comes first. -/
structure CopiedBehind (c : TokenChain) (dest : TokenId) (d s n : Nat)
    (copies : List Cell) (r : Option TokenId × TokenChain) : Prop where
  /-- The copies stand behind the destination, and the other cells where
  they stood. -/
  cells : r.2.cells
    = c.cells.take (d + 1) ++ (copies ++ c.cells.drop (d + 1))
  /-- From at or before the destination, all that are asked for are put in:
  the stretch from the source to the destination, over and over. -/
  cyclic : s ≤ d → copies.length = n ∧ ∀ i < n,
    (copies.map Cell.token)[i]? = c.tokens[s + i % (d - s + 1)]?
  /-- From behind the destination, as many are put in as there are. -/
  straight : d < s → copies.length = min n (c.tokens.length - s)
    ∧ copies.map Cell.token = (c.tokens.drop s).take n
  /-- They are in slots that held nothing. -/
  fresh : ∀ x ∈ copies, c.node? x.slot = none
  /-- Every other slot holds what it held, and all but the destination lead
  where they led. -/
  kept : ∀ id, (c.node? id).isSome = true →
    r.2.get? id = c.get? id ∧ (id ≠ dest → r.2.next? id = c.next? id)
  head : r.2.head = c.head
  /-- The tail moves to the last copy if it was the destination and there is
  a copy, and stays otherwise. -/
  tail : r.2.tail = if c.tail = some dest ∧ copies ≠ [] then
    copies.getLast?.map Cell.slot else c.tail
  len : r.2.len = c.len + copies.length
  /-- The last copy is the answer, -/
  answer : r.1 = copies.getLast?.map Cell.slot
  /-- and there is none only if none are asked for. -/
  answer_none : r.1 = none ↔ n = 0
  /-- What is left is a chain again. -/
  laid : r.2.Laid r.2.cells

namespace Laid

variable {before rest : List Cell} {cell : Cell} {ts : List Token}

/-- The tail moves on with cells that are put in behind it, and stays
otherwise. -/
theorem tail_spliced (h : c.Laid (before ++ cell :: rest))
    (hr : r.2.Laid (before ++ cell :: (copies ++ rest))) :
    r.2.tail = if c.tail = some cell.slot ∧ copies ≠ [] then
      copies.getLast?.map Cell.slot else c.tail := by
  rw [hr.tail, h.tail]
  obtain rfl | ⟨rest, last, rfl⟩ := List.eq_nil_or_concat rest
  · obtain rfl | ⟨copies, copy, rfl⟩ := List.eq_nil_or_concat copies
    · simp
    · simp [List.getLast?_cons, List.getLast?_append]
  · -- behind the destination there is a cell, and that is the last one
    have hne : last.slot ≠ cell.slot := by
      intro he
      exact (Cell.notMem_of_nodup h.nodup).2 (by simp [slots, ← he])
    simp [List.getLast?_cons, List.getLast?_append, hne]

/-- **Copies put in behind a cell**, told by its place. The two ways of
reading the source are left as hypotheses, of which one is void. -/
theorem copiedBehind_of_copies (h : c.Laid c.cells) (n : Nat)
    (hcells : c.cells = before ++ cell :: rest)
    (hr : c.Copies (c.copyAfter cell.slot src n) ts (before ++ [cell]) rest)
    (hcyclic : s ≤ before.length → ts.length = n ∧ ∀ i < n,
      ts[i]? = c.tokens[s + i % (before.length - s + 1)]?)
    (hstraight : before.length < s → ts = (c.tokens.drop s).take n)
    (hnil : ts = [] ↔ n = 0) :
    c.CopiedBehind cell.slot before.length s n (c.pool.copy ts).1
      (c.copyAfter cell.slot src n) := by
  have hold : c.Laid (before ++ cell :: rest) := hcells ▸ h
  have hnew : (c.copyAfter cell.slot src n).2.Laid
      (before ++ cell :: ((c.pool.copy ts).1 ++ rest)) := by
    simpa using hr.laid
  have hlength : (c.pool.copy ts).1 = [] ↔ n = 0 := by
    rw [← hnil, ← List.length_eq_zero_iff, SlotPool.length_copy,
      List.length_eq_zero_iff]
  constructor
  · rw [hnew.cells_eq, hcells, List.take_length_add_append,
      List.drop_length_add_append]
    simp
  · intro hle
    rw [SlotPool.length_copy, SlotPool.map_token_copy]
    exact hcyclic hle
  · intro hlt
    rw [SlotPool.length_copy, SlotPool.map_token_copy, hstraight hlt,
      List.length_take, List.length_drop]
    exact ⟨rfl, rfl⟩
  · exact fun x hx => h.accounted.node?_of_mem_copy ts hx
  · intro id hlive
    by_cases hid : id = cell.slot
    · subst hid
      exact ⟨(hnew.get?_of_mem (by simp)).trans
        (hold.get?_of_mem (by simp)).symm, fun hne => absurd rfl hne⟩
    · have hnode := h.accounted.node?_copyAfter hlive hid src n
      exact ⟨by rw [get?, get?, hnode], fun _ => by rw [next?, next?, hnode]⟩
  · rw [hnew.head, hold.head, Cell.entry_append, Cell.entry_append]
    rfl
  · exact hold.tail_spliced hnew
  · rw [hr.len, SlotPool.length_copy]
  · exact hr.answer
  · rw [hr.answer, Option.map_eq_none_iff, List.getLast?_eq_none_iff, hlength]
  · exact hnew.cells_eq.symm ▸ hnew

/-- A slot at its place, between what comes before and after it. -/
theorem exists_cell (h : c.Laid c.cells) (hdest : c.ids[d]? = some dest) :
    ∃ before cell rest, cell.slot = dest
      ∧ c.cells = before ++ cell :: rest ∧ before.length = d := by
  rw [h.ids_eq, slots, List.getElem?_map, Option.map_eq_some_iff] at hdest
  obtain ⟨cell, hcell, hslot⟩ := hdest
  obtain ⟨hlt, rfl⟩ := List.getElem?_eq_some_iff.mp hcell
  refine ⟨c.cells.take d, _, c.cells.drop (d + 1), hslot, ?_,
    List.length_take_of_le (Nat.le_of_lt hlt)⟩
  rw [List.getElem_cons_drop, List.take_append_drop]

/-- **Copying, told by places.** Let a chain have one slot at place `d` and
one at place `s`. Whatever number of tokens is copied from the second to
behind the first, what comes of it is told by `CopiedBehind`. -/
theorem copiedBehind (h : c.Laid c.cells) (hdest : c.ids[d]? = some dest)
    (hsrc : c.ids[s]? = some src) (n : Nat) :
    ∃ copies, c.CopiedBehind dest d s n copies (c.copyAfter dest src n) := by
  obtain ⟨before, cell, rest, rfl, hcells, rfl⟩ := h.exists_cell hdest
  have hlaid : c.Laid (before ++ cell :: rest) := hcells ▸ h
  rw [h.ids_eq, ← Cell.entry_drop, hcells] at hsrc
  rcases Nat.lt_or_ge before.length s with hlt | hle
  · -- the source comes behind the destination
    obtain ⟨k, rfl⟩ := Nat.exists_eq_add_of_lt hlt
    have hdrop : (before ++ cell :: rest).drop (before.length + k + 1)
        = rest.drop k := by
      rw [Nat.add_assoc, List.drop_length_add_append, List.drop_succ_cons]
    rw [hdrop] at hsrc
    rw [← List.take_append_drop k rest] at hlaid
    have hr := hlaid.copyAfter_of_behind hsrc n
    rw [List.take_append_drop] at hr
    refine ⟨_, h.copiedBehind_of_copies n hcells hr
      (fun hle => absurd hle (Nat.not_le_of_lt hlt)) (fun _ => ?_) ?_⟩
    · rw [tokens, hcells, ← List.map_drop, hdrop]
    · rw [List.take_eq_nil_iff, List.map_eq_nil_iff]
      refine or_iff_left fun hnil => ?_
      rw [hnil] at hsrc
      cases hsrc
  · -- the source comes at or before the destination
    have hdrop : (before ++ cell :: rest).drop s
        = (before.drop s ++ [cell]) ++ rest := by
      rw [List.drop_append_of_le_length hle]
      simp
    have hentry : entry (before.drop s ++ [cell]) none = some src := by
      rw [hdrop, Cell.entry_append] at hsrc
      rw [← hsrc]
      cases before.drop s <;> rfl
    have hsplit : c.Laid (before.take s ++ (before.drop s ++ cell :: rest)) := by
      rwa [← List.append_assoc, List.take_append_drop]
    have hr := hsplit.copyAfter_of_stretch hentry n
    rw [← List.append_assoc, List.take_append_drop] at hr
    have hlength : (before.drop s ++ [cell]).length = before.length - s + 1 := by
      simp
    refine ⟨_, h.copiedBehind_of_copies n hcells hr (fun _ => ⟨?_, ?_⟩)
      (fun hlt => absurd hle (Nat.not_le_of_lt hlt)) ?_⟩
    · exact length_cycle (by simp) n
    · intro i hi
      have htokens : c.tokens.drop s = (before.drop s ++ [cell]).map Cell.token
          ++ rest.map Cell.token := by
        rw [tokens, hcells, ← List.map_drop, hdrop, List.map_append]
      have hlt : i % (before.length - s + 1)
          < ((before.drop s ++ [cell]).map Cell.token).length := by
        rw [List.length_map, hlength]
        exact Nat.mod_lt i (Nat.succ_pos _)
      rw [getElem?_cycle hi, ← List.getElem?_drop, htokens,
        List.getElem?_append_left hlt, List.length_map, hlength]
    · rw [← List.length_eq_zero_iff, length_cycle (by simp)]

end Laid

/-- A chain on which a freed slot is the last one, copied along from the
second place to behind the third: the copies end in the middle of the
stretch. -/
theorem copiedBehind_after_reuse :
    let t : String → Token := fun s => ⟨s, 1, .first⟩
    let c := (ChainOp.run act empty
      [.pushBack (t "x"), .pushBack (t "a"), .pushBack (t "b"),
        .pushBack (t "c"), .removeHead, .pushBack (t "d")]).2
    let r := c.copyAfter ⟨3⟩ ⟨2⟩ 5
    c.ids[2]? = some ⟨3⟩
      ∧ c.ids[1]? = some ⟨2⟩
      ∧ r.2.tokens.map Token.text
        = ["a", "b", "c", "b", "c", "b", "c", "b", "d"]
      ∧ ∃ copies, c.CopiedBehind ⟨3⟩ 2 1 5 copies r := by
  intro t c r
  have hlaid : c.Laid c.cells := laid_empty.run _
  have hdest : c.ids[2]? = some ⟨3⟩ := by decide
  have hsrc : c.ids[1]? = some ⟨2⟩ := by decide
  exact ⟨hdest, hsrc, by decide, hlaid.copiedBehind hdest hsrc 5⟩

end TokenChain

end FlatC
