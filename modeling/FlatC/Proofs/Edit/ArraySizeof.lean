import FlatC.Edit.ArraySizeof
import FlatC.Proofs.Edit.Unsigned

/-!
# Evaluating `sizeof` of arrays

The pass drops cells and writes numbers, so it is sound and brings no
`unsigned` back.
-/

namespace FlatC

variable {xs ys : List Cell} {sizes : TypeSizes}

namespace ArraySizeof

/-- What is declared is read off the texts. -/
theorem declared?_of_alike (h : Cell.Alike xs ys) :
    declared? sizes xs = declared? sizes ys := by
  have hopens := h.opens
  rcases h.forall₂ with _ | ⟨h₁, _ | ⟨h₂, _ | ⟨h₃, _ | ⟨h₄, _⟩⟩⟩⟩
  · rfl
  · rfl
  · rfl
  · rfl
  · rw [declared?, declared?, hopens, Cell.text_eq h₁, Cell.text_eq h₂,
      Cell.text_eq h₄]

/-- What is a use is read off the texts. -/
theorem isUse_of_alike (name : String) (h : Cell.Alike xs ys) :
    isUse name xs = isUse name ys := by
  have hopens := h.opens
  rcases h.forall₂ with _ | ⟨h₁, _ | ⟨h₂, _ | ⟨h₃, _⟩⟩⟩
  · rfl
  · rfl
  · rfl
  · rw [isUse, isUse, hopens, Cell.text_eq h₃]

/-- What becomes of a first cell, case by case: a block opens, a block closes,
a use is replaced, or the cell is passed. -/
theorem replaceUses_cons (name total : String) (depth : Nat) (c : Cell)
    (rest : List Cell) (pool : SlotPool) :
    replaceUses name total depth (c :: rest) pool
      = if Token.startsWithAny ['{'] c.text then
          (replaceUses name total (depth + 1) rest pool).cons c
        else if Token.startsWithAny ['}'] c.text then
          match depth with
          | 0 => .unchanged (c :: rest) pool
          | depth + 1 => (replaceUses name total depth rest pool).cons c
        else if isUse name (c :: rest) then
          ((replaceUses name total depth (rest.drop 3)
            (pool.giveAll (rest.take 3))).cons (c.withText total)).plus 1
        else (replaceUses name total depth rest pool).cons c :=
  replaceUses.eq_def name total depth (c :: rest) pool

/-- A use that is replaced gives three slots back, and none is taken. -/
theorem exchanged_replaceUses (name total : String) (depth : Nat)
    (cells : List Cell) (pool : SlotPool) :
    Row.Exchanged ⟨cells, pool⟩
      (replaceUses name total depth cells pool).row := by
  fun_induction replaceUses name total depth cells pool with
  | case1 depth pool => exact Row.Exchanged.refl _
  | case2 depth pool c rest _ ih => exact ih.cons rfl
  | case3 pool c rest => exact Row.Exchanged.refl _
  | case4 pool c rest _ _ depth ih => exact ih.cons rfl
  | case5 depth pool c rest _ _ _ ih =>
    exact ((Row.Exchanged.taken 3 rest pool).trans ih).cons rfl
  | case6 depth pool c rest _ _ _ ih => exact ih.cons rfl

/-- Replacing uses does to the tokens what depends on the tokens alone. The
depth is counted from the texts too, so both sides leave the scope at the same
place. -/
theorem alike_replaceUses (name total : String) (depth : Nat)
    (p q : SlotPool) (h : Cell.Alike xs ys) :
    (replaceUses name total depth xs p).Alike
      (replaceUses name total depth ys q) := by
  fun_induction replaceUses name total depth xs p generalizing ys q with
  | case1 depth p =>
    obtain rfl := h.eq_nil
    rw [replaceUses]
    exact .unchanged h p q
  | case2 depth p c rest hopen ih =>
    obtain ⟨d, ys, rfl, hc, hys⟩ := h.exists_cons
    rw [Cell.text_eq hc] at hopen
    rw [replaceUses_cons, if_pos hopen]
    exact (ih _ hys).cons hc
  | case3 p c rest hopen hclose =>
    obtain ⟨d, ys, rfl, hc, hys⟩ := h.exists_cons
    rw [Cell.text_eq hc] at hopen hclose
    rw [replaceUses_cons, if_neg hopen, if_pos hclose]
    exact .unchanged h p q
  | case4 p c rest hopen hclose depth ih =>
    obtain ⟨d, ys, rfl, hc, hys⟩ := h.exists_cons
    rw [Cell.text_eq hc] at hopen hclose
    rw [replaceUses_cons, if_neg hopen, if_pos hclose]
    exact (ih _ hys).cons hc
  | case5 depth p c rest hopen hclose huse ih =>
    obtain ⟨d, ys, rfl, hc, hys⟩ := h.exists_cons
    rw [Cell.text_eq hc] at hopen hclose
    rw [isUse_of_alike name h] at huse
    rw [replaceUses_cons, if_neg hopen, if_neg hclose, if_pos huse]
    exact ((ih _ (hys.drop 3)).cons (Cell.token_withText_eq hc total)).plus rfl
  | case6 depth p c rest hopen hclose huse ih =>
    obtain ⟨d, ys, rfl, hc, hys⟩ := h.exists_cons
    rw [Cell.text_eq hc] at hopen hclose
    rw [isUse_of_alike name h] at huse
    rw [replaceUses_cons, if_neg hopen, if_neg hclose, if_neg huse]
    exact (ih _ hys).cons hc

/-- A declaration that is carried out only gives slots back. -/
theorem exchanged_apply (sizes : TypeSizes) (c : Cell) (rest : List Cell)
    (pool : SlotPool) :
    Row.Exchanged ⟨rest, pool⟩ (apply sizes c rest pool).row := by
  unfold apply
  split
  · next name total _ =>
    have h := (exchanged_replaceUses name (Numeral.text total) 0
      (rest.drop 4) pool).append (rest.take 4) _ rfl
    rwa [List.take_append_drop] at h
  · exact Row.Exchanged.refl _

theorem alike_apply (sizes : TypeSizes) {c d : Cell} (p q : SlotPool)
    (hc : c.token = d.token) (h : Cell.Alike xs ys) :
    (apply sizes c xs p).Alike (apply sizes d ys q) := by
  rw [apply, apply, declared?_of_alike (h.cons hc)]
  split
  · exact (alike_replaceUses _ _ 0 p q (h.drop 4)).prepend (h.take 4)
  · exact .unchanged h p q

end ArraySizeof

/-- Evaluating the sizes of arrays is a sound pass: at each cell, what a
declaration there does to the rest is sound, and the pass goes on in that. -/
theorem sound_evalArraySizeof (sizes : TypeSizes) :
    Pass.Sound (evalArraySizeof sizes) where
  exchanged := fun cells pool => by
    fun_induction evalArraySizeof sizes cells pool with
    | case1 pool => exact Row.Exchanged.refl _
    | case2 pool c rest r ih =>
      exact ((ArraySizeof.exchanged_apply sizes c rest pool).trans ih).cons rfl
  alike := fun {xs ys} p q h => by
    fun_induction evalArraySizeof sizes xs p generalizing ys q with
    | case1 p =>
      obtain rfl := h.eq_nil
      rw [evalArraySizeof]
      exact .unchanged h p q
    | case2 p c rest r =>
      rename_i ih
      obtain ⟨d, ys, rfl, hc, hys⟩ := h.exists_cons
      have happly := ArraySizeof.alike_apply sizes p q hc hys
      rw [evalArraySizeof]
      exact ((ih _ happly.cells).cons hc).plus happly.count

/-! ## No `unsigned` comes back -/

namespace ArraySizeof

/-- What is written for a use is a number, so no `unsigned` comes in front of
another token. -/
theorem unsigned_settled_replaceUses (name : String) (total depth : Nat)
    {cells : List Cell} (pool : SlotPool)
    (h : Cell.Everywhere Unsigned.Settled cells) :
    Cell.Everywhere Unsigned.Settled
      (replaceUses name (Numeral.text total) depth cells pool).cells := by
  -- a cell that stays is at the end afterwards if it was
  have kept : ∀ {c : Cell} {rest : List Cell} {depth : Nat} {pool : SlotPool},
      Cell.Everywhere Unsigned.Settled (c :: rest) →
      Unsigned.Settled c.text
        (replaceUses name (Numeral.text total) depth rest pool).cells := by
    intro c rest depth pool h hc
    obtain rfl := h.1 hc
    rw [replaceUses]
    rfl
  fun_induction replaceUses name (Numeral.text total) depth cells pool with
  | case1 depth pool => trivial
  | case2 depth pool c rest _ ih => exact ⟨kept h, ih h.2⟩
  | case3 pool c rest => exact h
  | case4 pool c rest _ _ depth ih => exact ⟨kept h, ih h.2⟩
  | case5 depth pool c rest _ _ _ ih =>
    exact ⟨Unsigned.settled_of_ne (Unsigned.text_ne total) _, ih (h.2.drop 3)⟩
  | case6 depth pool c rest _ _ _ ih => exact ⟨kept h, ih h.2⟩

theorem unsigned_settled_apply (c : Cell) {rest : List Cell}
    (pool : SlotPool) (h : Cell.Everywhere Unsigned.Settled rest) :
    Cell.Everywhere Unsigned.Settled (apply sizes c rest pool).cells := by
  unfold apply
  split
  · next name total _ =>
    have hafter := unsigned_settled_replaceUses name total 0 pool (h.drop 4)
    rw [← List.take_append_drop 4 rest] at h
    refine Unsigned.everywhere_append _ h (fun hnil => ?_) hafter
    rw [hnil, replaceUses]
    rfl
  · exact h

end ArraySizeof

/-- Evaluating the sizes of arrays leaves no `unsigned` in front of another
token if there was none. -/
theorem unsigned_settled_evalArraySizeof (sizes : TypeSizes)
    {cells : List Cell} (pool : SlotPool)
    (h : Cell.Everywhere Unsigned.Settled cells) :
    Cell.Everywhere Unsigned.Settled
      (evalArraySizeof sizes cells pool).cells := by
  fun_induction evalArraySizeof sizes cells pool with
  | case1 pool => trivial
  | case2 pool c rest r ih =>
    refine ⟨fun hc => ?_, ih (ArraySizeof.unsigned_settled_apply c pool h.2)⟩
    obtain rfl := h.1 hc
    have hnil : r.cells = [] :=
      List.length_eq_zero_iff.mp (Nat.le_zero.mp
        (ArraySizeof.length_apply_le sizes c [] pool))
    rw [hnil, evalArraySizeof]
    rfl

end FlatC
