import FlatC.Proofs.Edit.Brackets
import FlatC.Proofs.Workspace.Layout

/-!
# Brackets are kept

Nothing that is done to a chain after it was read takes its brackets apart:
not fusing operators, from whatever token on, not expanding typedef names,
and not simplifying, for whatever target. The curly brackets stay in their
cells, so blocks are where they were. Parentheses may be dropped or become
square brackets, but only in pairs, so what was properly nested is so
afterwards. It is not made so either: a chain that does not nest does not
come to nest.
-/

namespace FlatC

open Cell (NestAlike)

namespace TokenChain

variable {c d : TokenChain} {cells : List Cell} {pass : Pass}

/-- **The brackets of a chain kept**: the curly ones are the same cells in
the same order, and the brackets of all three kinds nest properly if and
only if they did. -/
structure BracketsKept (c d : TokenChain) : Prop where
  braces : Cell.braces d.cells = Cell.braces c.cells
  nested : Delimiter.Nested (Cell.brackets d.cells)
    ↔ Delimiter.Nested (Cell.brackets c.cells)

/-- Cells that nest alike keep the brackets of their chains. -/
theorem bracketsKept_of_nestAlike (h : NestAlike c.cells d.cells) :
    c.BracketsKept d :=
  ⟨h.braces, h.nested_iff⟩

/-- **A stretch of a chain edited** keeps the brackets if the pass does. What
is in front of the stretch is the same, so to nest alike is enough also where
brackets are open at its start. -/
theorem Laid.bracketsKept_editFrom (h : c.Laid c.cells)
    (hpass : pass.Sound)
    (hkept : ∀ cells pool, NestAlike cells (pass cells pool).cells)
    (start : Option TokenId) : c.BracketsKept (c.editFrom start pass).2 := by
  rw [editFrom]
  dsimp only
  split
  · exact bracketsKept_of_nestAlike (.refl c.cells)
  · next cell rest hdrop =>
    have hcells := List.takeWhile_append_dropWhile
      (p := fun cell : Cell => some cell.slot != start) (l := c.cells)
    rw [hdrop] at hcells
    have hrow := (hpass.exchanged (cell :: rest) c.pool).append
      (c.cells.takeWhile fun cell => some cell.slot != start) _ rfl
    rw [hcells] at hrow
    refine bracketsKept_of_nestAlike ?_
    dsimp only
    rw [(h.relay hrow).cells_eq]
    have hnest := (hkept (cell :: rest) c.pool).append
      (c.cells.takeWhile fun cell => some cell.slot != start)
    rwa [hcells] at hnest

end TokenChain

namespace Workspace

/-- **No stage takes brackets apart**: not fusing and not expanding, from
wherever they start, and not simplifying, for any target. -/
theorem bracketsKept (target : Target) (w : Workspace)
    (h : w.chain.Laid w.chain.cells) (start : Option TokenId) :
    w.chain.BracketsKept (w.chain.editFrom start fuseOperators).2
      ∧ w.chain.BracketsKept (w.chain.editFrom start expandTypedefs).2
      ∧ w.chain.BracketsKept (w.simplify target).2.chain := by
  have hlaid := h.relay (exchanged_simplifyCells target w.chain.cells
    w.chain.pool)
  have hsimple := nestAlike_simplifyCells target w.chain.cells w.chain.pool
  refine ⟨h.bracketsKept_editFrom sound_fuseOperators nestAlike_fuseOperators
      start,
    h.bracketsKept_editFrom sound_expandTypedefs nestAlike_expandTypedefs
      start, TokenChain.bracketsKept_of_nestAlike ?_⟩
  exact hlaid.cells_eq.symm ▸ hsimple

/-- A chain on which all three stages find something to do: operators to
fuse, a name to expand, parentheses to drop and others to make square. -/
theorem bracketsKept_of_texts :
    let texts := ["typedef", "int", "word", ";", "void", "f", "(", ")",
      "\x7b", "word", "a", "=", "sizeof", "(", "int", ")", ";", "a", "+", "=",
      "*", "(", "p", "+", "1", ")", ";", "x", "=", "*", "(", "p", "+", "1",
      ")", ";", "\x7d"]
    let c := (ChainOp.run TokenChain.act .empty
      (texts.map fun s => .pushBack ⟨s, 1, .first⟩)).2
    let w : Workspace := { chain := c }
    c.tokens.map Token.text = texts
      ∧ c.BracketsKept (c.editFrom c.head fuseOperators).2
      ∧ c.BracketsKept (c.editFrom c.head expandTypedefs).2
      ∧ c.BracketsKept (w.simplify .host).2.chain := by
  intro texts c w
  refine ⟨by decide +kernel, ?_⟩
  exact bracketsKept .host w (TokenChain.laid_empty.run _) c.head

end Workspace

end FlatC
