import FlatC.Proofs.Edit.Splitting
import FlatC.Proofs.Workspace.Layout

/-!
# Simplified chains are settled

Four of the passes leave nothing behind that they would change themselves:
dropping `unsigned`, folding arithmetic, writing subscripts and splitting
declarations. Each of them is complete when it has run once, and what the
passes after it do brings nothing back. So a simplified chain is a fixed
point of all four.
-/

namespace FlatC

/-- **Cells with nothing left to do** for four of the passes, each by what it
looks for. -/
structure Cell.Simple (cells : List Cell) : Prop where
  unsigned : Cell.Everywhere Unsigned.Settled cells
  arithmetic : Cell.Everywhere Arithmetic.Settled cells
  subscripts : Cell.Everywhere Subscript.Settled cells
  declarations : Cell.Everywhere Declaration.Settled cells

/-- **Simplified cells are simple**: each pass settles its own matter, and
those after it leave the matter settled. The order of the passes is what makes
this true. -/
theorem simple_simplifyCells (target : Target) (cells : List Cell)
    (pool : SlotPool) :
    Cell.Simple (simplifyCells target cells pool).cells where
  unsigned := splittable_unsigned.everywhere_splitDeclarations
    (unsigned_settled_writeSubscripts _ <|
      unsigned_settled_foldArithmetic _ <|
      unsigned_settled_evalArraySizeof _ _ <|
      unsigned_settled_evalSizeof _ _ _ <|
      unsigned_settled_inlineConstants _ <|
      unsigned_settled_dropUnsigned cells pool) _
  arithmetic := splittable_arithmetic.everywhere_splitDeclarations
    (arithmetic_settled_writeSubscripts _ <|
      arithmetic_settled_foldArithmetic _ _) _
  subscripts := splittable_subscript.everywhere_splitDeclarations
    (subscript_settled_writeSubscripts _ _) _
  declarations := declaration_settled_splitDeclarations _ _

namespace TokenChain

variable {c : TokenChain} {cells : List Cell} {pass : Pass}

/-- **A pass leaves a chain alone**: it counts nothing, and the chain stays
as it is, slot by slot. -/
def Fixed (c : TokenChain) (pass : Pass) : Prop :=
  c.edit pass = (0, c)

/-- A chain is left alone by a pass that leaves its cells alone, its links
included. -/
theorem Laid.fixed (h : c.Laid cells)
    (hpass : ∀ pool, pass cells pool = .unchanged cells pool) :
    c.Fixed pass := by
  rw [Fixed, TokenChain.edit, h.cells_eq, hpass]
  exact Prod.ext rfl h.relay_self

/-- **Four passes leave a chain of simple cells alone**, whatever slots are
free beside it. -/
theorem Laid.fixed_of_simple (h : c.Laid cells) (hsimple : Cell.Simple cells) :
    c.Fixed dropUnsigned ∧ c.Fixed foldArithmetic ∧ c.Fixed writeSubscripts
      ∧ c.Fixed splitDeclarations :=
  ⟨h.fixed (dropUnsigned_eq_unchanged hsimple.unsigned),
    h.fixed (foldArithmetic_eq_unchanged hsimple.arithmetic),
    h.fixed (writeSubscripts_eq_unchanged hsimple.subscripts),
    h.fixed (splitDeclarations_eq_unchanged hsimple.declarations)⟩

end TokenChain

namespace Workspace

/-- **A simplified chain is a fixed point** of dropping `unsigned`, of
folding arithmetic, of writing subscripts and of splitting declarations,
for whatever target it was simplified. -/
theorem fixed_simplify (target : Target) (w : Workspace)
    (h : w.chain.Laid w.chain.cells) :
    (w.simplify target).2.chain.Fixed dropUnsigned
      ∧ (w.simplify target).2.chain.Fixed foldArithmetic
      ∧ (w.simplify target).2.chain.Fixed writeSubscripts
      ∧ (w.simplify target).2.chain.Fixed splitDeclarations :=
  have hlaid := h.relay (exchanged_simplifyCells target w.chain.cells
    w.chain.pool)
  hlaid.fixed_of_simple (simple_simplifyCells target _ _)

/-- A chain on which each of the four passes finds something to do, and that
ends in an initializer without an end. -/
theorem fixed_simplify_of_texts :
    let texts := [";", "unsigned", "int", "a", "=", "2", "*", "3", ",", "b",
      ";", "c", "=", "*", "(", "p", "+", "1", ")", ";", "int", "d", "=", "e"]
    let c := (ChainOp.run TokenChain.act .empty
      (texts.map fun s => .pushBack ⟨s, 1, .first⟩)).2
    let w : Workspace := { chain := c }
    c.tokens.map Token.text = texts
      ∧ (w.simplify .host).2.chain.Fixed dropUnsigned
      ∧ (w.simplify .host).2.chain.Fixed foldArithmetic
      ∧ (w.simplify .host).2.chain.Fixed writeSubscripts
      ∧ (w.simplify .host).2.chain.Fixed splitDeclarations := by
  intro texts c w
  refine ⟨by decide +kernel, ?_⟩
  exact fixed_simplify .host w (TokenChain.laid_empty.run _)

end Workspace

end FlatC
