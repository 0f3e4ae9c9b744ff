import FlatC.Edit.Fusion
import FlatC.Edit.Typedef
import FlatC.Workspace.Reading

/-!
# From a source to its token stream

Reading leaves the symbols of a source apart and its typedefs unused.
Tokenizing a source is reading it and then going over **the whole chain**,
first to fuse operators and then to expand typedef names, so that the
typedefs of sources read earlier reach this one.
-/

namespace FlatC

/-- **A chain put in order**: operators fused, then typedef names expanded.
What was put in order before is gone over again. -/
def arrange : Pass := fun cells pool =>
  let fused := fuseOperators cells pool
  (expandTypedefs fused.cells fused.pool).plus fused.count

namespace Workspace

/-- **A source tokenized** with all it includes. Nothing comes back if its
file was read before, and then nothing else is done either. -/
def tokenize? (sources : Sources) (bytes : List UInt8) (path : String)
    (w : Workspace) : Option Workspace :=
  (w.read? sources bytes path).map fun w =>
    { w with chain := (w.chain.edit arrange).2 }

/-- A source is tokenized exactly when its file is not known. There is no
source at which tokenizing fails. -/
theorem tokenize?_eq_none_iff {sources : Sources} {bytes : List UInt8}
    {path : String} {w : Workspace} :
    w.tokenize? sources bytes path = none
      ↔ (w.files.find? path).isSome = true := by
  rw [tokenize?, Option.map_eq_none_iff, read?, enter?_eq_none_iff]

end Workspace

end FlatC
