import FlatC.Proofs.Edit.Greedy
import FlatC.Proofs.Links.Declarations
import FlatC.Proofs.Links.Names
import FlatC.Proofs.Links.Rewrites
import FlatC.Proofs.Links.Sizes
import FlatC.Workspace.Simplifying
import FlatC.Workspace.Tokenizing

/-!
# The stages in place

Fusing operators, expanding typedef names and simplifying are put together
from the loops, each of which begins at the head as it is then. On a chain
that lays down its cells, all three of them have a result, and it is that of
the recursions on cells. So they end, and no slot that one of them holds or
follows is free at that point.

When a source has been tokenized, its operators are fused and its typedef
names expanded from one slot on, which was read before both. Fusing drops only
what comes after a slot, so that slot is still the head.
-/

namespace FlatC

namespace Links

open Cell (entry slots)

variable {α : Type} {m : Links α} {a : α} {s : Row} {c : TokenChain}
variable {before rest : List Cell} {cell : Cell}
variable {program : Option TokenId → Links Nat} {pass : Pass}

/-! ## Programs run on chains -/

/-- **A program run on a chain** that lays down its cells: the result is
there, and is what the rules say of the row. -/
theorem Makes.run (h : Makes m c.row a s) (hc : c.Laid c.cells) :
    m c = .some (a, c.relay s.cells s.pool) :=
  (h c hc rfl).2

/-- **A program that does the work of a pass**, run from a slot of a chain on,
comes to what the pass makes from that slot on. -/
theorem Does.run (h : Does program pass) (hpass : pass.Sound)
    (hc : c.Laid (before ++ cell :: rest)) :
    program (some cell.slot) c = .some (c.editFrom (some cell.slot) pass) := by
  have hmakes := h before (cell :: rest) c.pool
  rw [← hc.cells_eq] at hmakes
  rw [(hc.editFrom_slot hpass).1]
  exact hmakes.run (hc.cells_eq.symm ▸ hc)

/-- The same from the head on, where there may be none. -/
theorem Does.run_head (h : Does program pass) (hpass : pass.Sound)
    (hnone : program none = pure 0) (hc : c.Laid c.cells) :
    (head >>= program) c = .some (c.editFrom c.head pass) := by
  have hrun : (head >>= program) c = program c.head c :=
    Part.bind_some (c.head, c) fun x => program x.1 x.2
  rw [hrun]
  cases hcells : c.cells with
  | nil =>
    have hc' : c.Laid [] := hcells ▸ hc
    rw [hc'.editFrom_head_nil, hc'.head]
    exact congrFun hnone c
  | cons cell rest =>
    have hc' : c.Laid ([] ++ cell :: rest) := hcells ▸ hc
    rw [hc'.head]
    exact h.run hpass hc'

/-- From the head on, with nothing passed. -/
theorem Does.makes (h : Does program pass) (cells : List Cell)
    (p : SlotPool) :
    Makes (head >>= program) ⟨cells, p⟩ (pass cells p).count
      (pass cells p).row :=
  (makes_head _).bind (h [] cells p)

/-! ## Tokenizing -/

/-- **Operators fused** from the head on. -/
def fuseAll : Links Nat := head >>= fuse

/-- **Typedef names expanded** from the head on. -/
def expandAll : Links Nat := head >>= expand

/-- **A chain put in order**, both times from the slot that was its head at
the beginning. It is read once, and tokens are dropped before it is used
again. -/
def arrange : Links Nat := do
  let start ← head
  let fused ← fuse start
  let expanded ← expand start
  return fused + expanded

theorem does_expand : Does expand expandTypedefs := steps_expanding.does

/-- Fusing from the head on has a result, which is that of the pass. -/
theorem fuseAll_eq (hc : c.Laid c.cells) :
    fuseAll c = .some (c.editFrom c.head fuseOperators) :=
  does_fuse.run_head sound_fuseOperators
    (by rw [fuse, along_none, along_none, pure_bind, pure_bind]) hc

/-- Expanding from the head on has a result, which is that of the pass. -/
theorem expandAll_eq (hc : c.Laid c.cells) :
    expandAll c = .some (c.editFrom c.head expandTypedefs) :=
  does_expand.run_head sound_expandTypedefs (along_none _) hc

/-- Fusing keeps the slot of the first token, since of each pair the second
one is dropped. -/
theorem entry_fuseOperators (cells : List Cell) (p : SlotPool) :
    entry (fuseOperators cells p).cells none = entry cells none := by
  rw [← entry_join cells p, fuseOperators, Fusion.dotted]
  cases (Fusion.join cells p).cells with
  | nil => rfl
  | cons c cells =>
    rw [Cell.rename, List.map_cons]
    split <;> rfl

/-- **A chain put in order in place.** The slot held from before the operators
were fused is still the head when typedef names are expanded. -/
theorem arrange_eq (hc : c.Laid c.cells) :
    arrange c = .some (c.edit FlatC.arrange) := by
  have hfused : Makes (fuse (entry c.cells none)) c.row
      (fuseOperators c.cells c.pool).count
      (fuseOperators c.cells c.pool).row := does_fuse [] c.cells c.pool
  have hexpanded := does_expand [] (fuseOperators c.cells c.pool).cells
    (fuseOperators c.cells c.pool).pool
  rw [entry_fuseOperators] at hexpanded
  have harranged : Makes arrange c.row _ _ :=
    (makes_head c.row).bind (hfused.bind (hexpanded.bind (makes_pure _ _)))
  exact harranged.run hc

/-! ## Simplifying -/

/-- **The stages of a simplification**, one after another. Each of them begins
at the head as it is then, and the sizes that are found in one are what the
later ones go by. -/
def simplify (target : Target) : Links (Tally × TypeSizes) := do
  let dropped ← dropInPlace
  let inlined ← head >>= inline
  let (sizes, named) ← head >>= addNamed target.typeSizes
  let sized ← head >>= along (evaluating sizes target.pointer)
  let arrays ← head >>= along (evaluatingArray sizes)
  let folded ← foldInPlace
  let subscripts ← head >>= along subscripting
  let split ← head >>= along splitting
  let tally : Tally :=
    { unsignedDropped := dropped
      constantsInlined := inlined
      typesNamed := named
      sizeofEvaluated := sized
      arraySizeofEvaluated := arrays
      arithmeticFolded := folded
      subscriptsWritten := subscripts
      declarationsSplit := split }
  return (tally, sizes)

/-- **Simplifying in place** makes what simplifying cells does: of each stage
it is known, and they are put together. -/
theorem makes_simplify (target : Target) (cells : List Cell) (p : SlotPool) :
    let done := simplifyCells target cells p
    Makes (simplify target) ⟨cells, p⟩ (done.tally, done.typeSizes)
      ⟨done.cells, done.pool⟩ := by
  intro done
  refine (makes_dropInPlace cells p).bind ?_
  refine (steps_inlining.does.makes _ _).bind ?_
  refine ((makes_head _).bind (makes_addNamed target.typeSizes [] _ _)).bind ?_
  refine ((steps_evaluating _ target.pointer).does.makes _ _).bind ?_
  refine ((steps_evaluatingArray _).does.makes _ _).bind ?_
  refine (makes_foldInPlace _ _).bind ?_
  refine (steps_subscripting.does.makes _ _).bind ?_
  refine (steps_splitting.does.makes _ _).bind ?_
  exact makes_pure _ _

/-- **A workspace simplified in place.** The program has a result, so it comes
to an end and is at no slot that was freed, and the result is what the
workspace is given. -/
theorem simplify_eq (target : Target) (w : Workspace)
    (hw : w.chain.Laid w.chain.cells) :
    simplify target w.chain
      = .some (((w.simplify target).1, (w.simplify target).2.typeSizes),
        (w.simplify target).2.chain) :=
  (makes_simplify target w.chain.cells w.chain.pool).run hw

end Links

end FlatC
