import Mathlib.Logic.Function.Iterate
import FlatC.Proofs.Chain.InPlace
import FlatC.Proofs.Edit.Unsigned

/-!
# Dropping `unsigned` along the links

`unsigned` is dropped by two loops over the links of a chain. The first one
drops the head for as long as it is an `unsigned` with something behind it.
The second one goes on from the head that is left, and drops what follows a
slot on the same terms. Here the two are told as one **walk**
(`Unsigned.Walk`), which at each step looks at one token, the next one that
no step has looked at: it drops the token, or it moves on behind it.

So the walk ends one step after it has looked at each token once, and what
it leaves is the chain that the pass lays down (`Unsigned.Walk.On.iterate`),
with the slots that were freed given back in the same order. What the pass
leaves is told without a walk (`cells_dropUnsigned`): every cell in front of
the last one that does not hold `unsigned`, and the last one.
-/

namespace FlatC

open Cell (entry)

/-! ## What is left -/

section Equations

variable {c d : Cell} {rest : List Cell} {pool : SlotPool}

/-- An `unsigned` in front of something is dropped. -/
theorem dropUnsigned_of_dropped (hc : c.text = "unsigned") :
    dropUnsigned (c :: d :: rest) pool
      = (dropUnsigned (d :: rest) (pool.give c.slot)).plus 1 := by
  rw [dropUnsigned, if_pos (beq_iff_eq.mpr hc)]

/-- Any other cell is passed, an `unsigned` at the very end among them. -/
theorem dropUnsigned_of_passed (hc : c.text = "unsigned" → rest = []) :
    dropUnsigned (c :: rest) pool = (dropUnsigned rest pool).cons c := by
  cases rest with
  | nil => rfl
  | cons d rest =>
    have hne : c.text ≠ "unsigned" := fun he => List.cons_ne_nil d rest (hc he)
    rw [dropUnsigned, if_neg (fun he => hne (eq_of_beq he))]

end Equations

/-- **What is left**: all cells in front of the last one but those that hold
`unsigned`, and the last one whatever it holds. -/
theorem cells_dropUnsigned (cells : List Cell) (pool : SlotPool) :
    (dropUnsigned cells pool).cells
      = (cells.dropLast.filter fun c => c.text != "unsigned")
        ++ cells.getLast?.toList := by
  fun_induction dropUnsigned cells pool with
  | case1 pool => rfl
  | case2 c pool => rfl
  | case3 c d rest pool htext ih =>
    rw [Edit.cells_plus, ih, List.dropLast_cons_cons,
      List.filter_cons_of_neg (by simpa using htext), List.getLast?_cons_cons]
  | case4 c d rest pool htext ih =>
    rw [Edit.cells_cons, ih, List.dropLast_cons_cons,
      List.filter_cons_of_pos (by simpa using htext), List.getLast?_cons_cons]
    rfl

/-- **What is counted**: the cells in front of the last one that hold
`unsigned`. -/
theorem count_dropUnsigned (cells : List Cell) (pool : SlotPool) :
    (dropUnsigned cells pool).count
      = Cell.occurrences "unsigned" cells.dropLast := by
  fun_induction dropUnsigned cells pool with
  | case1 pool => rfl
  | case2 c pool => rfl
  | case3 c d rest pool htext ih =>
    rw [Edit.count_plus, ih, List.dropLast_cons_cons, Nat.add_comm]
    simp only [Cell.occurrences, List.countP_cons, htext, if_true]
  | case4 c d rest pool htext ih =>
    rw [Edit.count_cons, ih, List.dropLast_cons_cons]
    simp only [Cell.occurrences, List.countP_cons, htext, Bool.false_eq_true,
      if_false, Nat.add_zero]

/-! ## Walks -/

namespace Unsigned

variable {passed rest : List Cell} {c d : Cell}

/-- **What a walk looks at next**: the head, what follows a slot, or nothing
any more. The first is the place of the first loop, the second that of the
second. -/
inductive Place where
  | atHead
  | behind (id : TokenId)
  | ended
  deriving DecidableEq, Repr

/-- The place behind some cells, which is the head where there are none. -/
def Place.after (passed : List Cell) : Place :=
  match passed.getLast? with
  | none => atHead
  | some last => behind last.slot

theorem Place.after_nil : after [] = atHead := rfl

theorem Place.after_concat (passed : List Cell) (last : Cell) :
    after (passed ++ [last]) = behind last.slot := by
  rw [after, List.getLast?_concat]

/-- **A walk along the links**: the chain as it stands, the place reached and
how many tokens have been dropped. -/
structure Walk where
  chain : TokenChain
  place : Place
  dropped : Nat

/-- Whether a slot holds `unsigned` and leads on, read off the chain as it
stands. -/
def Qualifies (c : TokenChain) (id : TokenId) : Bool :=
  c.text id == "unsigned" && (c.next? id).isSome

namespace Walk

/-- A walk that has not begun. -/
def start (c : TokenChain) : Walk := ⟨c, .atHead, 0⟩

/-- **The next step**: what is looked at is dropped, or the walk moves on
behind it; it ends where there is nothing to be looked at. -/
def step (w : Walk) : Walk :=
  match w.place with
  | .atHead =>
    match w.chain.head with
    | none => { w with place := .ended }
    | some id =>
      if Qualifies w.chain id then
        ⟨w.chain.removeHead.2, .atHead, w.dropped + 1⟩
      else { w with place := .behind id }
  | .behind last =>
    match w.chain.next? last with
    | none => { w with place := .ended }
    | some id =>
      if Qualifies w.chain id then
        ⟨(w.chain.removeNext last).2, .behind last, w.dropped + 1⟩
      else { w with place := .behind id }
  | .ended => w

/-- **A walk on the way**: it has passed some cells, and stands behind them,
with others ahead. The slot it stands at is that of the last one passed, and
is live. -/
structure On (w : Walk) (passed ahead : List Cell) : Prop where
  laid : w.chain.Laid (passed ++ ahead)
  place : w.place = .after passed

variable {w : Walk} {ahead : List Cell}

/-- A walk on the way has not ended. -/
theorem On.ne_ended (h : w.On passed ahead) : w.place ≠ .ended := by
  rw [h.place, Place.after]
  split <;> exact Place.noConfusion

/-- **What a step looks at** is the first cell ahead, at the head and behind a
slot alike. -/
theorem On.step_eq (h : w.On passed ahead) :
    w.step = match entry ahead none with
      | none => { w with place := .ended }
      | some id =>
        if Qualifies w.chain id then
          ⟨match w.place with
            | .behind last => (w.chain.removeNext last).2
            | _ => w.chain.removeHead.2, w.place, w.dropped + 1⟩
        else { w with place := .behind id } := by
  have hplace := h.place
  obtain rfl | ⟨passed, last, rfl⟩ := List.eq_nil_or_concat passed
  · have hhead : w.chain.head = entry ahead none := h.laid.head
    rw [Place.after_nil] at hplace
    rw [step, hplace, ← hhead]
  · rw [List.concat_eq_append] at hplace h
    have hnext : w.chain.next? last.slot = entry ahead none := by
      have hlaid := h.laid
      rw [List.append_assoc] at hlaid
      exact hlaid.next?_mem
    rw [Place.after_concat] at hplace
    rw [step, hplace]
    dsimp only
    rw [hnext]

/-- **Whether a cell ahead qualifies**: it holds `unsigned` and is not the
last one. -/
theorem On.qualifies (h : w.On passed (c :: rest)) :
    Qualifies w.chain c.slot = (c.text == "unsigned" && !rest.isEmpty) := by
  have htext : w.chain.text c.slot = c.text := by
    rw [TokenChain.text, h.laid.get?_of_mem (by simp)]
    rfl
  have hnext : w.chain.next? c.slot = entry rest none := h.laid.next?_mem
  rw [Qualifies, htext, hnext]
  cases rest <;> rfl

/-- **What a walk comes to**: what is ahead is gone over by the pass, and laid
down behind what has been passed. A step does not change this. -/
def outcome (w : Walk) (passed ahead : List Cell) : Walk :=
  let r := dropUnsigned ahead w.chain.pool
  ⟨w.chain.relay (passed ++ r.cells) r.pool, .ended, w.dropped + r.count⟩

/-- A walk with nothing ahead ends at its next step. -/
theorem On.step_nil (h : w.On passed []) :
    w.step = w.outcome passed [] := by
  have hself : w.chain.relay (passed ++ []) w.chain.pool = w.chain :=
    h.laid.relay_self
  rw [h.step_eq, outcome, dropUnsigned, Edit.cells_unchanged,
    Edit.pool_unchanged, hself]
  rfl

/-- **What is dropped** was in front of something else, and its slot is given
back at once. -/
theorem On.step_drop (h : w.On passed (c :: d :: rest))
    (hc : c.text = "unsigned") :
    w.step = ⟨w.chain.relay (passed ++ d :: rest) (w.chain.pool.give c.slot),
      w.place, w.dropped + 1⟩ := by
  have hq : Qualifies w.chain c.slot = true := by
    rw [h.qualifies, hc]
    rfl
  have hplace := h.place
  have hlaid := h.laid
  rw [h.step_eq, entry]
  dsimp only
  rw [if_pos hq]
  obtain rfl | ⟨passed, last, rfl⟩ := List.eq_nil_or_concat passed
  · rw [Place.after_nil] at hplace
    rw [hplace]
    exact congrArg (Walk.mk · _ _) hlaid.removeHead_eq_relay
  · rw [List.concat_eq_append] at hplace hlaid ⊢
    rw [Place.after_concat] at hplace
    rw [List.append_assoc] at hlaid ⊢
    rw [hplace]
    exact congrArg (Walk.mk · _ _) hlaid.removeNext_eq_relay

/-- **What is not dropped is passed.** -/
theorem On.step_pass (h : w.On passed (c :: rest))
    (hc : c.text = "unsigned" → rest = []) :
    w.step = { w with place := .behind c.slot } := by
  have hq : Qualifies w.chain c.slot = false := by
    rw [h.qualifies, Bool.and_eq_false_iff, Bool.not_eq_false',
      List.isEmpty_iff, beq_eq_false_iff_ne]
    exact Classical.or_iff_not_imp_left.mpr fun hne =>
      hc (not_not.mp hne)
  rw [h.step_eq, entry]
  dsimp only
  rw [if_neg (Bool.eq_false_iff.mp hq)]

/-- A cell that is passed is left where it is. -/
theorem On.pass (h : w.On passed (c :: rest))
    (hc : c.text = "unsigned" → rest = []) :
    w.step.On (passed ++ [c]) rest
      ∧ w.step.outcome (passed ++ [c]) rest = w.outcome passed (c :: rest) := by
  have hpassed : passed ++ c :: rest = passed ++ [c] ++ rest := by simp
  rw [h.step_pass hc]
  refine ⟨⟨hpassed ▸ h.laid, (Place.after_concat passed c).symm⟩, ?_⟩
  rw [outcome, outcome, dropUnsigned_of_passed hc]
  dsimp only [Edit.cells_cons, Edit.pool_cons, Edit.count_cons]
  rw [List.append_assoc, List.singleton_append]

/-- A cell that is dropped gives its slot back before the others do. To lay
down what is left, and then what the others leave, is to lay down the latter. -/
theorem On.drop (h : w.On passed (c :: d :: rest))
    (hc : c.text = "unsigned") :
    w.step.On passed (d :: rest)
      ∧ w.step.outcome passed (d :: rest)
        = w.outcome passed (c :: d :: rest) := by
  have hgone : Row.Exchanged ⟨passed ++ c :: d :: rest, w.chain.pool⟩
      ⟨passed ++ d :: rest, w.chain.pool.give c.slot⟩ :=
    (Row.Exchanged.dropped [c] (d :: rest) w.chain.pool).append passed _ rfl
  have hnext := (sound_dropUnsigned.exchanged (d :: rest)
    (w.chain.pool.give c.slot)).append passed passed rfl
  have hpool : (w.chain.relay (passed ++ d :: rest)
      (w.chain.pool.give c.slot)).pool = w.chain.pool.give c.slot :=
    TokenChain.pool_relay hgone.size_le _
  rw [h.step_drop hc]
  refine ⟨⟨h.laid.relay hgone, h.place⟩, ?_⟩
  rw [outcome, outcome, dropUnsigned_of_dropped hc, hpool]
  dsimp only [Edit.cells_plus, Edit.pool_plus, Edit.count_plus]
  rw [h.laid.relay_relay hgone hnext, Nat.add_assoc]

/-- **A step looks at one cell**, and leaves what the walk comes to as it
is. -/
theorem On.step_cons (h : w.On passed (c :: rest)) :
    ∃ passed', w.step.On passed' rest
      ∧ w.step.outcome passed' rest = w.outcome passed (c :: rest) := by
  by_cases hc : c.text = "unsigned" → rest = []
  · exact ⟨_, h.pass hc⟩
  · obtain ⟨htext, hrest⟩ := Classical.not_imp.mp hc
    obtain ⟨d, rest, rfl⟩ := List.exists_cons_of_ne_nil hrest
    exact ⟨_, h.drop htext⟩

/-- **A walk is at its end** one step after it has looked at each cell ahead,
and not sooner. -/
theorem On.iterate (h : w.On passed ahead) :
    step^[ahead.length + 1] w = w.outcome passed ahead
      ∧ ∀ k ≤ ahead.length, (step^[k] w).place ≠ .ended := by
  -- each step takes one of the cells ahead, whatever becomes of it
  induction ahead generalizing w passed with
  | nil =>
    refine ⟨h.step_nil, fun k hk => ?_⟩
    obtain rfl := Nat.le_zero.mp hk
    exact h.ne_ended
  | cons c rest ih =>
    obtain ⟨passed', hon, houtcome⟩ := h.step_cons
    obtain ⟨hends, hgoes⟩ := ih hon
    rw [← houtcome]
    refine ⟨hends, fun k hk => ?_⟩
    cases k with
    | zero => exact h.ne_ended
    | succ k => exact hgoes k (Nat.le_of_succ_le_succ hk)

end Walk

end Unsigned

/-! ## The pass -/

namespace TokenChain

variable {c : TokenChain}

/-- **`unsigned` dropped**, told of the chain before and after, and of the
number of tokens dropped. The walk says how it is done, and the rest what has
come of it. -/
structure UnsignedDropped (c : TokenChain) (n : Nat) (c' : TokenChain) :
    Prop where
  /-- The walk along the links ends, with this chain and this number. -/
  ends : Unsigned.Walk.step^[c.cells.length + 1] (.start c) = ⟨c', .ended, n⟩
  /-- Before that it has not ended: it takes one step for each token, and
  one to see that there is no other. -/
  goes_on : ∀ k ≤ c.cells.length,
    (Unsigned.Walk.step^[k] (.start c)).place ≠ .ended
  /-- All tokens in front of the last one are left but those that are
  `unsigned`, and so is the last one, whatever it is. Each is in its slot,
  with its text and its place in the source, and they are in order. -/
  cells : c'.cells = (c.cells.dropLast.filter fun x => x.text != "unsigned")
    ++ c.cells.getLast?.toList
  /-- The number is that of the tokens left out, -/
  count : n = Cell.occurrences "unsigned" c.cells.dropLast
  /-- by which the chain has become shorter. -/
  len : c'.len + n = c.len
  /-- What is left is laid down as a chain again. -/
  laid : c'.Laid c'.cells

/-- **`unsigned` is dropped wherever something comes after it**, and
nothing else is. -/
theorem Laid.unsignedDropped (h : c.Laid c.cells) :
    c.UnsignedDropped (c.edit dropUnsigned).1 (c.edit dropUnsigned).2 := by
  have hon : (Unsigned.Walk.start c).On [] c.cells := ⟨h, rfl⟩
  have hlaid := h.edit sound_dropUnsigned
  have hlen : (c.edit dropUnsigned).2.len + c.cells.length
      = c.len + (dropUnsigned c.cells c.pool).cells.length :=
    h.len_relay_add _ _
  constructor
  · rw [hon.iterate.1, Unsigned.Walk.outcome]
    exact congrArg (Unsigned.Walk.mk _ _) (Nat.zero_add _)
  · exact hon.iterate.2
  · rw [hlaid.cells_eq, cells_dropUnsigned]
  · exact count_dropUnsigned _ _
  · have := length_dropUnsigned c.cells c.pool
    show _ + (dropUnsigned c.cells c.pool).count = _
    omega
  · exact hlaid.cells_eq.symm ▸ hlaid

/-- `unsigned` twice at the head, twice in the middle and twice at the
end, where one is left. -/
theorem unsignedDropped_of_texts :
    let texts := ["unsigned", "unsigned", "int", "f", "(", "unsigned",
      "unsigned", "long", "x", ")", "unsigned", "unsigned"]
    let c := (ChainOp.run act .empty
      (texts.map fun s => .pushBack ⟨s, 1, .first⟩)).2
    let r := c.edit dropUnsigned
    c.Laid c.cells
      ∧ r.2.tokens.map Token.text
        = ["int", "f", "(", "long", "x", ")", "unsigned"]
      ∧ r.1 = 5
      ∧ c.UnsignedDropped r.1 r.2 := by
  intro texts c r
  have hlaid : c.Laid c.cells := laid_empty.run _
  exact ⟨hlaid, by decide +kernel, by decide +kernel, hlaid.unsignedDropped⟩

end TokenChain

end FlatC
