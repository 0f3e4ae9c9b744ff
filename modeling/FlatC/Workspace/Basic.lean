import FlatC.Chain.Cells
import FlatC.Files.Table
import FlatC.Macros
import FlatC.TypeSizes

/-!
# The workspace

All that is known about the sources read so far: their tokens in one
chain, the files they came from, the macros that are defined and the sizes
of types. Every stage takes a workspace and gives one back; nothing is
kept anywhere else.

A text becomes a token in one way. If a macro has that name, the token
holds the macro's number; a hexadecimal literal becomes decimal; any other
text stands as it is. The empty text becomes no token.
-/

namespace FlatC

/-- **What is known about the sources read so far.** The sizes of types are
those of the last simplification; the next one begins anew. -/
structure Workspace where
  chain : TokenChain := {}
  files : FileTable := {}
  macros : Macros := {}
  typeSizes : TypeSizes := {}
  deriving Repr

namespace Workspace

/-- The workspace nothing has been read into. -/
def empty : Workspace := {}

/-- **The text a token gets** for a text in the source. A macro comes first,
so a name such as `0x1` could be one; what a macro stands for is not looked up
again. -/
def spelling (w : Workspace) (text : String) : String :=
  match w.macros.find? text with
  | some number => number
  | none => (Hex.toDecimal? text).getD text

/-- **A text put at the end of the chain** as a token. This is the one way in
which what was read becomes tokens. -/
def append (w : Workspace) (file : FileId) (line : Nat) (text : String) :
    Workspace :=
  if text.isEmpty then w
  else { w with chain := (w.chain.pushBack ⟨w.spelling text, line, file⟩).2 }

/-- Texts put at the end of the chain one after another, all from the same
place. -/
def appendAll (w : Workspace) (file : FileId) (line : Nat)
    (texts : List String) : Workspace :=
  texts.foldl (fun w text => w.append file line text) w

/-- The path of the file a slot's token came from, empty if there is no such
file. -/
def fileName (w : Workspace) (id : TokenId) : String :=
  (w.files.path? (w.chain.file id)).getD ""

/-- **All that is known forgotten**, the files as well, so that they can be
read again. -/
def clear (_ : Workspace) : Workspace := empty

@[simp] theorem append_empty (w : Workspace) (file : FileId) (line : Nat) :
    w.append file line "" = w := rfl

@[simp] theorem files_append (w : Workspace) (file : FileId) (line : Nat)
    (text : String) : (w.append file line text).files = w.files := by
  unfold append
  split <;> rfl

@[simp] theorem macros_append (w : Workspace) (file : FileId) (line : Nat)
    (text : String) : (w.append file line text).macros = w.macros := by
  unfold append
  split <;> rfl

@[simp] theorem appendAll_nil (w : Workspace) (file : FileId) (line : Nat) :
    w.appendAll file line [] = w := rfl

@[simp] theorem appendAll_cons (w : Workspace) (file : FileId) (line : Nat)
    (text : String) (texts : List String) :
    w.appendAll file line (text :: texts)
      = (w.append file line text).appendAll file line texts := rfl

@[simp] theorem files_appendAll (w : Workspace) (file : FileId) (line : Nat)
    (texts : List String) :
    (w.appendAll file line texts).files = w.files := by
  induction texts generalizing w with
  | nil => rfl
  | cons text texts ih => rw [appendAll_cons, ih, files_append]

end Workspace

end FlatC
