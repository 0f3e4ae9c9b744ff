import FlatC.Token.Basic

/-!
# The chain of tokens

Tokens are linked one after another, and every edit is local: put a token
behind another, drop the one behind, change a text. What refers to a token
is the slot it sits in, and a slot keeps its number through every edit
that does not free it. A freed slot is handed out again, the last freed
one first; a new slot is opened only when none is free.

Slots are numbers, so an operation can be given one that is free, or was
never opened. It then changes nothing it should not: reading a free slot
gives the empty text at line 0 of the first file and no successor, and
writing to it does nothing. `insertAfter` on such a slot does make a
token, which nothing on the chain leads to; it has no successor, unless
the new token was given that very slot, in which case it is its own.

There is always one more slot to open, since their numbers do not end. No
more are ever opened than tokens are put in, which is what a layout with
numbers of 32 bits has to be held to.

The links are options into one array, so an edit costs what it touches.
`FlatC.Chain.Cells` reads the chain as a list.
-/

namespace FlatC

/-- A token in its slot, with the slot that follows. There is no link back, so
an edit is always made from the slot before. -/
structure Node where
  token : Token
  next : Option TokenId
  deriving DecidableEq, Repr

/-- **The chain of tokens.** Slots that hold a token, but to which nothing on
the chain leads, are possible: a token put behind a free slot is in one. -/
structure TokenChain where
  /-- The slots; a free one holds nothing. -/
  nodes : Array (Option Node) := #[]
  /-- The free slots, the last freed first. -/
  free : List TokenId := []
  /-- The slot of the first token. -/
  head : Option TokenId := none
  /-- The slot of the last token. -/
  tail : Option TokenId := none
  /-- How many slots hold a token. -/
  len : Nat := 0
  deriving DecidableEq, Repr

namespace TokenChain

/-- The chain without tokens and without slots. -/
def empty : TokenChain := {}

/-- Whether the chain holds no token. -/
def isEmpty (c : TokenChain) : Bool := c.head.isNone

/-! ## Reading a slot -/

/-- What a slot holds. A slot that is free and a number that was never opened
are alike in holding nothing. -/
def node? (c : TokenChain) (id : TokenId) : Option Node :=
  c.nodes[id.index]?.join

/-- **The token in a slot**, if it holds one. -/
def get? (c : TokenChain) (id : TokenId) : Option Token :=
  (c.node? id).map Node.token

/-- The text in a slot, empty for a free one. Reading asks for no test of what
the slot holds; `get?` is that test. -/
def text (c : TokenChain) (id : TokenId) : String :=
  ((c.get? id).map Token.text).getD ""

/-- The line of a slot's token, 0 for a free one. Lines of tokens are counted
from 1. -/
def line (c : TokenChain) (id : TokenId) : Nat :=
  ((c.get? id).map Token.line).getD 0

/-- The file of a slot's token, the first file for a free one. -/
def file (c : TokenChain) (id : TokenId) : FileId :=
  ((c.get? id).map Token.file).getD FileId.first

/-- **The slot that follows.** -/
def next? (c : TokenChain) (id : TokenId) : Option TokenId :=
  (c.node? id).bind Node.next

/-- The slot `n` places on; 0 places on is the slot itself, free or not. It is
found link by link and costs as many steps. -/
def nth? (c : TokenChain) (id : TokenId) : Nat → Option TokenId
  | 0 => some id
  | n + 1 => (c.next? id).bind fun after => c.nth? after n

/-- The text `n` places on, empty past the end, so that a look ahead needs no
test for the end of the chain. -/
def textAt (c : TokenChain) (id : TokenId) (n : Nat) : String :=
  ((c.nth? id n).map c.text).getD ""

/-- **The slots from a start on**, at most `n` of them. The bound makes this a
recursion also where links lead in a circle; as many steps as there are slots
reach the end of any chain without one. -/
def walk (c : TokenChain) : Nat → Option TokenId → List TokenId
  | 0, _ => []
  | _ + 1, none => []
  | n + 1, some id => id :: c.walk n (c.next? id)

/-! ## Taking and freeing slots -/

/-- The node in a slot changed by `f`; nothing happens to a free slot, and
nothing to one that was never opened. -/
def modifyNode (c : TokenChain) (id : TokenId) (f : Node → Node) :
    TokenChain :=
  { c with nodes := c.nodes.modify id.index (Option.map f) }

/-- A node put into the last freed slot, or into a new one if none is
free. A new slot is numbered by how many there are, and the number has no
limit here. -/
def alloc (c : TokenChain) (node : Node) : TokenId × TokenChain :=
  match c.free with
  | id :: free =>
    (id, { c with nodes := c.nodes.setIfInBounds id.index (some node), free })
  | [] => (⟨c.nodes.size⟩, { c with nodes := c.nodes.push (some node) })

/-- A slot freed, if it holds a token. It is put in front of the free slots
and so is the next one to be taken; one that is free already is not put there
twice. -/
def release (c : TokenChain) (id : TokenId) : TokenChain :=
  if (c.node? id).isSome then
    { c with
      nodes := c.nodes.setIfInBounds id.index none
      free := id :: c.free
      len := c.len - 1 }
  else c

/-! ## Edits -/

/-- The text in a slot replaced, the token's line and file kept. -/
def setText (c : TokenChain) (id : TokenId) (text : String) : TokenChain :=
  c.modifyNode id fun n => { n with token := n.token.withText text }

/-- The successor of a slot replaced. -/
def setNext (c : TokenChain) (id : TokenId) (next : Option TokenId) :
    TokenChain :=
  c.modifyNode id fun n => { n with next }

/-- **A token put at the end**, with the slot it went to. It becomes the head
as well where there was no token. -/
def pushBack (c : TokenChain) (token : Token) : TokenId × TokenChain :=
  let (id, c) := c.alloc ⟨token, none⟩
  let c :=
    match c.tail with
    | some last => c.setNext last (some id)
    | none => { c with head := some id }
  (id, { c with tail := some id, len := c.len + 1 })

/-- **A token put directly after a slot**, with the slot it went to. If that
was the last one, the new token is the last one now. The successor is read
before a slot is taken, since the one taken can be the very slot given. -/
def insertAfter (c : TokenChain) (id : TokenId) (token : Token) :
    TokenId × TokenChain :=
  let after := c.next? id
  let (new, c) := c.alloc ⟨token, after⟩
  let c := c.setNext id (some new)
  let tail := if c.tail = some id then some new else c.tail
  (new, { c with tail, len := c.len + 1 })

/-- **Consecutive tokens copied**: `n` of them, read from the slot `src`
on, go in after the slot `dest`, in order. The source is read one token at
a time while the copies go in, so a copy put ahead of the reading point is
read in its turn. Gives the slot of the last copy. -/
def copyAfter (c : TokenChain) (dest src : TokenId) :
    Nat → Option TokenId × TokenChain
  | 0 => (none, c)
  | n + 1 =>
    match c.get? src with
    | none => (none, c)
    | some token =>
      let (copy, c) := c.insertAfter dest token
      match c.next? src with
      | none => (some copy, c)
      | some src =>
        let (last, c) := c.copyAfter copy src n
        (last <|> some copy, c)

/-- **The token after a slot dropped**, and whether there was one. The slot
given gets the link of what was dropped, and becomes the last one if that was. -/
def removeNext (c : TokenChain) (id : TokenId) : Bool × TokenChain :=
  match c.next? id with
  | none => (false, c)
  | some victim =>
    let after := c.next? victim
    let c := c.setNext id after
    let tail := if c.tail = some victim then some id else c.tail
    (true, { c with tail }.release victim)

/-- Up to `n` tokens after a slot dropped, and how many there were. It stops
early only where nothing follows. -/
def removeNextN (c : TokenChain) (id : TokenId) : Nat → Nat × TokenChain
  | 0 => (0, c)
  | n + 1 =>
    match c.removeNext id with
    | (false, c) => (0, c)
    | (true, c) =>
      let (removed, c) := c.removeNextN id n
      (removed + 1, c)

/-- **The first token dropped**, and whether there was one. With the only
token gone there is no last one either. -/
def removeHead (c : TokenChain) : Bool × TokenChain :=
  match c.head with
  | none => (false, c)
  | some first =>
    let head := c.next? first
    let tail := if head.isNone then none else c.tail
    (true, { c with head, tail }.release first)

/-! ## Small laws -/

@[simp] theorem isEmpty_empty : empty.isEmpty = true := rfl

@[simp] theorem nth?_zero (c : TokenChain) (id : TokenId) :
    c.nth? id 0 = some id := rfl

@[simp] theorem walk_none (c : TokenChain) (n : Nat) : c.walk n none = [] := by
  cases n <;> rfl

@[simp] theorem walk_succ_some (c : TokenChain) (n : Nat) (id : TokenId) :
    c.walk (n + 1) (some id) = id :: c.walk n (c.next? id) := rfl

@[simp] theorem copyAfter_zero (c : TokenChain) (dest src : TokenId) :
    c.copyAfter dest src 0 = (none, c) := rfl

@[simp] theorem removeNextN_zero (c : TokenChain) (id : TokenId) :
    c.removeNextN id 0 = (0, c) := rfl

/-- A slot that holds nothing has no successor, so that walking the chain ends
there. -/
theorem next?_of_node?_eq_none {c : TokenChain} {id : TokenId}
    (h : c.node? id = none) : c.next? id = none := by
  simp [next?, h]

/-- Freeing a slot that holds nothing changes nothing. -/
theorem release_of_node?_eq_none {c : TokenChain} {id : TokenId}
    (h : c.node? id = none) : c.release id = c := by
  simp [release, h]

/-- Putting a token at the end makes it the last one. -/
@[simp] theorem tail_pushBack (c : TokenChain) (t : Token) :
    (c.pushBack t).2.tail = some (c.pushBack t).1 := by
  unfold pushBack
  split
  rfl

end TokenChain

end FlatC
