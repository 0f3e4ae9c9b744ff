import FlatC.Workspace.Simplifying
import FlatC.Proofs.Chain.Runs
import FlatC.Proofs.Edit.Arithmetic
import FlatC.Proofs.Edit.ArraySizeof
import FlatC.Proofs.Edit.Constant
import FlatC.Proofs.Edit.Declaration
import FlatC.Proofs.Edit.Fusion
import FlatC.Proofs.Edit.Sizeof
import FlatC.Proofs.Edit.Subscript
import FlatC.Proofs.Edit.Typedef
import FlatC.Proofs.Edit.Unsigned
import FlatC.Proofs.Links.Stages

/-!
# The layout of a chain makes no difference

Two chains can hold the same tokens and have nothing else in common: not
the slots the tokens are in, not the free slots, not what stands beside the
chain. Every stage that edits a chain makes the same of both.

There are two halves to it. Of the recursions on cells it holds because every
pass is sound: of a stage that is one pass, and of the simplification, whose
seven passes are sound one after another and whose sizes of types are read
off the tokens. Of the loops that hold slots and follow links it holds
because each of them has a result on either chain, and this is what the
recursion makes of it. A loop that came to a slot that had been freed would
be stuck there and have no result.
-/

namespace FlatC

/-! ## Simplifying cells -/

section Cells

variable {xs ys : List Cell}

/-- Simplifying exchanges slots: every slot is in the chain or in the pool,
before and after. -/
theorem exchanged_simplifyCells (target : Target) (cells : List Cell)
    (pool : SlotPool) :
    Row.Exchanged ⟨cells, pool⟩
      ⟨(simplifyCells target cells pool).cells,
        (simplifyCells target cells pool).pool⟩ :=
  (sound_dropUnsigned.exchanged cells pool).trans <|
    (sound_inlineConstants.exchanged _ _).trans <|
    ((sound_evalSizeof _ _).exchanged _ _).trans <|
    ((sound_evalArraySizeof _).exchanged _ _).trans <|
    (sound_foldArithmetic.exchanged _ _).trans <|
    (sound_writeSubscripts.exchanged _ _).trans <|
    sound_splitDeclarations.exchanged _ _

/-- **What simplifying makes of the tokens** depends on the tokens alone, and
so do the sizes and the tally. The passes are gone through in their order,
with what each of them is given. -/
theorem alike_simplifyCells (target : Target) (p q : SlotPool)
    (h : Cell.Alike xs ys) :
    Cell.Alike (simplifyCells target xs p).cells
        (simplifyCells target ys q).cells
      ∧ (simplifyCells target xs p).typeSizes
        = (simplifyCells target ys q).typeSizes
      ∧ (simplifyCells target xs p).tally
        = (simplifyCells target ys q).tally := by
  have hdropped := sound_dropUnsigned.alike p q h
  have hinlined := sound_inlineConstants.alike (dropUnsigned xs p).pool
    (dropUnsigned ys q).pool hdropped.cells
  have hinForce := TypeSizes.addNamed_of_alike target.typeSizes hinlined.cells
  unfold simplifyCells TypeSizes.inForce
  dsimp only
  rw [hinForce]
  generalize TypeSizes.addNamed target.typeSizes _ = inForce
  generalize inlineConstants (dropUnsigned xs p).cells _ = x at hinlined ⊢
  generalize inlineConstants (dropUnsigned ys q).cells _ = y at hinlined ⊢
  have hsized := (sound_evalSizeof inForce.1 target.pointer).alike
    x.pool y.pool hinlined.cells
  have hcount := hinlined.count
  generalize evalSizeof inForce.1 target.pointer x.cells x.pool = x₁
    at hsized ⊢
  generalize evalSizeof inForce.1 target.pointer y.cells y.pool = y₁
    at hsized ⊢
  have harrays := (sound_evalArraySizeof inForce.1).alike x₁.pool y₁.pool
    hsized.cells
  generalize evalArraySizeof inForce.1 x₁.cells x₁.pool = x₂ at harrays ⊢
  generalize evalArraySizeof inForce.1 y₁.cells y₁.pool = y₂ at harrays ⊢
  have hfolded := sound_foldArithmetic.alike x₂.pool y₂.pool harrays.cells
  generalize foldArithmetic x₂.cells x₂.pool = x₃ at hfolded ⊢
  generalize foldArithmetic y₂.cells y₂.pool = y₃ at hfolded ⊢
  have hsubs := sound_writeSubscripts.alike x₃.pool y₃.pool hfolded.cells
  generalize writeSubscripts x₃.cells x₃.pool = x₄ at hsubs ⊢
  generalize writeSubscripts y₃.cells y₃.pool = y₄ at hsubs ⊢
  have hsplit := sound_splitDeclarations.alike x₄.pool y₄.pool hsubs.cells
  refine ⟨hsplit.cells, rfl, ?_⟩
  rw [hdropped.count, hcount, hsized.count, harrays.count, hfolded.count,
    hsubs.count, hsplit.count]

end Cells

/-! ## Chains with the same tokens -/

namespace TokenChain

variable {c d : TokenChain} {pass : Pass}

/-- **Two chains edited to the same end**: the answers are the same, the
tokens are the same, and each chain still lays down its cells, and is tidy if
it was. Nothing is said about slots, which may differ as much as before. -/
structure SameEdit {α : Type} (c d : TokenChain) (r s : α × TokenChain) :
    Prop where
  answer : r.1 = s.1
  tokens : r.2.tokens = s.2.tokens
  laid : r.2.Laid r.2.cells ∧ s.2.Laid s.2.cells
  tidy : (c.Tidy → r.2.Tidy) ∧ (d.Tidy → s.2.Tidy)

variable (hc : c.Laid c.cells) (hd : d.Laid d.cells)
include hc hd

/-- Rows that were exchanged for those of the chains and hold the same tokens,
laid down, are two chains edited to the same end. -/
theorem sameEdit_relay {α : Type} {a b : α} {xs ys : List Cell}
    {p q : SlotPool} (hab : a = b) (htokens : Cell.Alike xs ys)
    (hx : Row.Exchanged c.row ⟨xs, p⟩) (hy : Row.Exchanged d.row ⟨ys, q⟩) :
    SameEdit c d (a, c.relay xs p) (b, d.relay ys q) := by
  have hcx := hc.relay hx
  have hdy := hd.relay hy
  refine ⟨hab, ?_, ⟨?_, ?_⟩, hc.tidy_relay hx, hd.tidy_relay hy⟩
  · show (c.relay xs p).cells.map _ = (d.relay ys q).cells.map _
    rw [hcx.cells_eq, hdy.cells_eq, htokens]
  · exact hcx.cells_eq.symm ▸ hcx
  · exact hdy.cells_eq.symm ▸ hdy

variable (h : c.tokens = d.tokens)
include h

/-- A sound pass edits two chains that hold the same tokens to the same end. -/
theorem sameEdit_edit (hpass : pass.Sound) :
    SameEdit c d (c.edit pass) (d.edit pass) :=
  have halike := hpass.alike c.pool d.pool h
  sameEdit_relay hc hd halike.count halike.cells
    (hpass.exchanged c.cells c.pool) (hpass.exchanged d.cells d.pool)

/-- So it does from the first token on, where there may be none. -/
theorem sameEdit_editFrom (hpass : pass.Sound) :
    SameEdit c d (c.editFrom c.head pass) (d.editFrom d.head pass) := by
  have hedit := sameEdit_edit hc hd h hpass
  have halike : Cell.Alike c.cells d.cells := h
  cases hcells : c.cells with
  | nil =>
    rw [hcells] at halike
    have hc' : c.Laid [] := hcells ▸ hc
    have hd' : d.Laid [] := halike.eq_nil ▸ hd
    rw [hc'.editFrom_head_nil, hd'.editFrom_head_nil]
    exact ⟨rfl, h, ⟨hc, hd⟩, id, id⟩
  | cons cell rest =>
    rw [hcells] at halike
    obtain ⟨_, _, hdcells, -⟩ := halike.exists_cons
    have hc' : c.Laid (cell :: rest) := hcells ▸ hc
    have hd' : d.Laid (_ :: _) := hdcells ▸ hd
    rwa [hc'.editFrom_head, hd'.editFrom_head]

end TokenChain

/-! ## Workspaces -/

namespace Workspace

open TokenChain (SameEdit)

/-- **A program comes to the same on two chains**: it has a result on either
of them, so that it ends and is nowhere stuck, and they are edited to the same
end. -/
structure SameRun {α : Type} (program : Links α) (c d : TokenChain)
    (r s : α × TokenChain) : Prop where
  first : program c = .some r
  second : program d = .some s
  same : SameEdit c d r s

/-- **The layout of a chain makes no difference.** Let two workspaces have
chains that hold the same tokens, in whatever slots, with whatever free
slots and whatever beside them, and let anything else about them differ.
The programs along the links that fuse operators from the head, expand typedef
names from the head and simplify for a target come to the same on both. Their
results are those of editing the chain and of simplifying the workspace, the
sizes of types that simplifying leaves included. -/
theorem layout_irrelevant (target : Target) (v w : Workspace)
    (hv : v.chain.Laid v.chain.cells) (hw : w.chain.Laid w.chain.cells)
    (h : v.chain.tokens = w.chain.tokens) :
    SameRun Links.fuseAll v.chain w.chain
        (v.chain.editFrom v.chain.head fuseOperators)
        (w.chain.editFrom w.chain.head fuseOperators)
      ∧ SameRun Links.expandAll v.chain w.chain
        (v.chain.editFrom v.chain.head expandTypedefs)
        (w.chain.editFrom w.chain.head expandTypedefs)
      ∧ SameRun (Links.simplify target) v.chain w.chain
        (((v.simplify target).1, (v.simplify target).2.typeSizes),
          (v.simplify target).2.chain)
        (((w.simplify target).1, (w.simplify target).2.typeSizes),
          (w.simplify target).2.chain) := by
  obtain ⟨hcells, hsizes, htally⟩ :=
    alike_simplifyCells target v.chain.pool w.chain.pool h
  refine ⟨⟨Links.fuseAll_eq hv, Links.fuseAll_eq hw, ?_⟩,
    ⟨Links.expandAll_eq hv, Links.expandAll_eq hw, ?_⟩,
    ⟨Links.simplify_eq target v hv, Links.simplify_eq target w hw, ?_⟩⟩
  · exact TokenChain.sameEdit_editFrom hv hw h sound_fuseOperators
  · exact TokenChain.sameEdit_editFrom hv hw h sound_expandTypedefs
  · exact TokenChain.sameEdit_relay hv hw (Prod.ext htally hsizes) hcells
      (exchanged_simplifyCells target _ _) (exchanged_simplifyCells target _ _)

/-- A chain that was built token by token, and one whose first token went
to a slot that had been freed, with a token beside it. -/
theorem layout_irrelevant_after_reuse :
    let t : String → Token := fun s => ⟨s, 1, .first⟩
    let c := (ChainOp.run TokenChain.act .empty
      [.pushBack (t "int"), .pushBack (t "a"), .pushBack (t ","),
        .pushBack (t "b"), .pushBack (t ";")]).2
    let d := (ChainOp.run TokenChain.act .empty
      [.pushBack (t "x"), .pushBack (t "y"), .removeHead, .removeHead,
        .insertAfter ⟨7⟩ (t "z"), .pushBack (t "int"), .pushBack (t ";"),
        .insertAfter ⟨0⟩ (t "b"), .insertAfter ⟨0⟩ (t ","),
        .insertAfter ⟨0⟩ (t "a")]).2
    let v : Workspace := { chain := c }
    let w : Workspace := { chain := d, typeSizes := Target.host.typeSizes }
    c.ids ≠ d.ids
      ∧ SameRun (Links.simplify .host) c d
        (((v.simplify .host).1, (v.simplify .host).2.typeSizes),
          (v.simplify .host).2.chain)
        (((w.simplify .host).1, (w.simplify .host).2.typeSizes),
          (w.simplify .host).2.chain) := by
  intro t c d v w
  refine ⟨by decide, ?_⟩
  exact (layout_irrelevant .host v w (TokenChain.laid_empty.run _)
    (TokenChain.laid_empty.run _) (by decide)).2.2

end Workspace

end FlatC
