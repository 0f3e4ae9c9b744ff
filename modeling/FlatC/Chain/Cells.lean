import FlatC.Chain.Basic

/-!
# The chain as a list of cells

A **cell** is a token together with its slot, and the chain, read from its
head, is a list of cells. What edits a chain as a whole works on that
list and leaves the links alone: it maps cells, leaves some out, puts new
ones in. Slots have to be handed out and taken back meanwhile, and that is
all it needs of the array behind the chain, so the free slots travel next
to the list as a **slot pool**.

`relay` lays a list of cells and a pool down as a chain again. It is the
only place where links are written for a whole list, so a pass cannot
follow a link to a slot that is no longer there.
-/

namespace FlatC

/-- **A token and its slot.** The slot is carried along because callers may
hold it: after a pass, a token that was kept is found where it was before. -/
structure Cell where
  slot : TokenId
  token : Token
  deriving DecidableEq, Repr

namespace Cell

/-- The text of the token in a cell. -/
def text (c : Cell) : String := c.token.text

/-- The cell with another text, its slot and its place in the source
kept. -/
def withText (c : Cell) (s : String) : Cell :=
  { c with token := c.token.withText s }

@[simp] theorem text_mk (id : TokenId) (t : Token) :
    (⟨id, t⟩ : Cell).text = t.text := rfl

@[simp] theorem text_withText (c : Cell) (s : String) :
    (c.withText s).text = s := rfl

@[simp] theorem slot_withText (c : Cell) (s : String) :
    (c.withText s).slot = c.slot := rfl

@[simp] theorem token_withText (c : Cell) (s : String) :
    (c.withText s).token = c.token.withText s := rfl

end Cell

/-! ## The pool of slots -/

/-- **The slots that can be handed out**: the free ones, the last freed
first, and how many there are in all, the next new slot being that
number. -/
structure SlotPool where
  free : List TokenId
  size : Nat
  deriving DecidableEq, Repr

namespace SlotPool

/-- A slot handed out: the last freed one, or a new one. -/
def take (p : SlotPool) : TokenId × SlotPool :=
  match p.free with
  | id :: free => (id, { p with free })
  | [] => (⟨p.size⟩, { p with size := p.size + 1 })

/-- A slot taken back. -/
def give (p : SlotPool) (id : TokenId) : SlotPool :=
  { p with free := id :: p.free }

/-- The slots of some cells taken back, one after another. -/
def giveAll (p : SlotPool) (cells : List Cell) : SlotPool :=
  cells.foldl (fun p c => p.give c.slot) p

/-- **Copies of some tokens** in slots handed out one after another, so that
the first copy goes to the slot freed last. -/
def copy (p : SlotPool) : List Token → List Cell × SlotPool
  | [] => ([], p)
  | t :: ts =>
    let (id, p) := p.take
    let (cells, p) := p.copy ts
    (⟨id, t⟩ :: cells, p)

@[simp] theorem giveAll_nil (p : SlotPool) : p.giveAll [] = p := rfl

@[simp] theorem giveAll_cons (p : SlotPool) (c : Cell) (cs : List Cell) :
    p.giveAll (c :: cs) = (p.give c.slot).giveAll cs := rfl

@[simp] theorem size_give (p : SlotPool) (id : TokenId) :
    (p.give id).size = p.size := rfl

/-- A slot taken back is the next one handed out. -/
@[simp] theorem take_give (p : SlotPool) (id : TokenId) :
    (p.give id).take = (id, p) := rfl

@[simp] theorem copy_nil (p : SlotPool) : p.copy [] = ([], p) := rfl

/-- The copies hold the tokens they are copies of. -/
@[simp] theorem map_token_copy (p : SlotPool) (ts : List Token) :
    (p.copy ts).1.map Cell.token = ts := by
  induction ts generalizing p with
  | nil => rfl
  | cons t ts ih => simp [copy, ih]

/-- There are as many copies as tokens. -/
@[simp] theorem length_copy (p : SlotPool) (ts : List Token) :
    (p.copy ts).1.length = ts.length := by
  rw [← List.length_map Cell.token, map_token_copy]

end SlotPool

/-! ## From chain to cells and back -/

namespace TokenChain

/-- The slots from the head on. No chain has more of them than it has slots. -/
def ids (c : TokenChain) : List TokenId := c.walk c.nodes.size c.head

/-- The cells in some slots, free ones left out. -/
def cellsAt (c : TokenChain) (ids : List TokenId) : List Cell :=
  ids.filterMap fun id => (c.get? id).map fun token => ⟨id, token⟩

/-- **The chain as a list of cells.** -/
def cells (c : TokenChain) : List Cell := c.cellsAt c.ids

/-- The tokens of the chain. -/
def tokens (c : TokenChain) : List Token := c.cells.map Cell.token

/-- **The texts of the chain with single spaces between them.** A listing on
one line is this. -/
def display (c : TokenChain) : String :=
  " ".intercalate (c.cells.map Cell.text)

/-- The pool behind the chain, which is all that a pass is given of it besides
its cells. -/
def pool (c : TokenChain) : SlotPool := ⟨c.free, c.nodes.size⟩

/-- Cells written into their slots, each leading to the one after it, and the
last one nowhere. -/
def link (nodes : Array (Option Node)) : List Cell → Array (Option Node)
  | [] => nodes
  | cell :: rest =>
    let node : Node := ⟨cell.token, rest.head?.map Cell.slot⟩
    link (nodes.setIfInBounds cell.slot.index (some node)) rest

/-- **A list of cells laid down in place of the chain.** The slots of the
old cells are emptied first, then slots the pool has opened are added, and
then the new cells are linked in order. -/
def relay (c : TokenChain) (cells : List Cell) (pool : SlotPool) :
    TokenChain :=
  -- no cell of the old chain may be left behind, whatever its slot
  let old := c.ids
  let cleared := old.foldl
    (fun nodes id => nodes.setIfInBounds id.index none) c.nodes
  let opened := cleared ++ Array.replicate (pool.size - cleared.size) none
  { nodes := link opened cells
    free := pool.free
    head := cells.head?.map Cell.slot
    tail := cells.getLast?.map Cell.slot
    len := c.len - old.length + cells.length }

@[simp] theorem cells_empty : empty.cells = [] := rfl

@[simp] theorem tokens_empty : empty.tokens = [] := rfl

@[simp] theorem free_relay (c : TokenChain) (cells : List Cell)
    (pool : SlotPool) : (c.relay cells pool).free = pool.free := rfl

@[simp] theorem head_relay (c : TokenChain) (cells : List Cell)
    (pool : SlotPool) :
    (c.relay cells pool).head = cells.head?.map Cell.slot := rfl

@[simp] theorem tail_relay (c : TokenChain) (cells : List Cell)
    (pool : SlotPool) :
    (c.relay cells pool).tail = cells.getLast?.map Cell.slot := rfl

end TokenChain

end FlatC
