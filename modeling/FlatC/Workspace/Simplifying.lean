import FlatC.Edit.Arithmetic
import FlatC.Edit.ArraySizeof
import FlatC.Edit.Constant
import FlatC.Edit.Declaration
import FlatC.Edit.Sizeof
import FlatC.Edit.Subscript
import FlatC.Edit.Unsigned
import FlatC.Workspace.Basic

/-!
# Simplifying a token stream

Simplification brings the tokens into a form in which what a check looks
for is a fixed run of tokens. Seven passes follow one another, each
working on what the one before has left:

1. `unsigned` is dropped;
2. constants are inlined;
3. `sizeof` of types is evaluated, by the sizes in force at that point;
4. `sizeof` of arrays is evaluated;
5. arithmetic is folded;
6. subscripts are written;
7. declarations are split.

The order matters: a constant has to be a number before it can be the
bound of an array, and a bound has to be a number before arithmetic on
sizes can be carried out.

All seven work on cells and a pool of slots, so a chain is read once and
laid down once. What each of them counted is kept in a tally.
-/

namespace FlatC

/-- **What a simplification counted**, pass by pass. -/
structure Tally where
  /-- Tokens `unsigned` dropped. -/
  unsignedDropped : Nat := 0
  /-- Names of constants replaced. -/
  constantsInlined : Nat := 0
  /-- Times a class or structure is named. -/
  typesNamed : Nat := 0
  /-- `sizeof` of types evaluated. -/
  sizeofEvaluated : Nat := 0
  /-- `sizeof` of arrays evaluated. -/
  arraySizeofEvaluated : Nat := 0
  /-- Factors dropped and operations carried out. -/
  arithmeticFolded : Nat := 0
  /-- Sums written as subscripts. -/
  subscriptsWritten : Nat := 0
  /-- Declarators split off or freed of their initializer. -/
  declarationsSplit : Nat := 0
  deriving DecidableEq, Repr

/-- All changes together. Naming a type changes nothing and is not counted. -/
def Tally.changes (t : Tally) : Nat :=
  t.unsignedDropped + t.constantsInlined + t.sizeofEvaluated
    + t.arraySizeofEvaluated + t.arithmeticFolded + t.subscriptsWritten
    + t.declarationsSplit

/-- **The outcome of a simplification.** The cells and the pool are laid down
as a chain, and the sizes are kept in the workspace. -/
structure Simplified where
  cells : List Cell
  pool : SlotPool
  typeSizes : TypeSizes
  tally : Tally
  deriving Repr

/-- **Some cells simplified** for a target machine. The sizes in force are
read off the cells after constants have been inlined, and are the same for
both kinds of `sizeof`. -/
def simplifyCells (target : Target) (cells : List Cell) (pool : SlotPool) :
    Simplified :=
  let dropped := dropUnsigned cells pool
  let inlined := inlineConstants dropped.cells dropped.pool
  let inForce := TypeSizes.inForce target inlined.cells
  let sizes := inForce.1
  let sized := evalSizeof sizes target.pointer inlined.cells inlined.pool
  let arrays := evalArraySizeof sizes sized.cells sized.pool
  let folded := foldArithmetic arrays.cells arrays.pool
  let subscripts := writeSubscripts folded.cells folded.pool
  let split := splitDeclarations subscripts.cells subscripts.pool
  { cells := split.cells
    pool := split.pool
    typeSizes := sizes
    tally :=
      { unsignedDropped := dropped.count
        constantsInlined := inlined.count
        typesNamed := inForce.2
        sizeofEvaluated := sized.count
        arraySizeofEvaluated := arrays.count
        arithmeticFolded := folded.count
        subscriptsWritten := subscripts.count
        declarationsSplit := split.count } }

namespace Workspace

/-- **A workspace simplified** for a target machine, and the tally. The files
and macros stay as they are, so that more can be read into it. -/
def simplify (target : Target) (w : Workspace) : Tally × Workspace :=
  let s := simplifyCells target w.chain.cells w.chain.pool
  (s.tally,
    { w with
      chain := w.chain.relay s.cells s.pool
      typeSizes := s.typeSizes })

@[simp] theorem files_simplify (target : Target) (w : Workspace) :
    (w.simplify target).2.files = w.files := rfl

@[simp] theorem macros_simplify (target : Target) (w : Workspace) :
    (w.simplify target).2.macros = w.macros := rfl

end Workspace

end FlatC
