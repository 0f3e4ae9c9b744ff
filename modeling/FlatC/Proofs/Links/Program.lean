import Mathlib.Data.PFun
import FlatC.Chain.Basic
import FlatC.Pattern.Basic

/-!
# Programs along the links

A pass is a recursion on the cells of a chain, and the chain is laid down
anew from what it makes. The same work can be done in place: a program holds
the slot it has come to, reads and edits the chain there, and goes on by the
link. Whether the two come to the same is not plain, since a slot that is
held while others are dropped may itself have been dropped, and it may lead
elsewhere than before.

A **program** (`Links`) has a chain for its state and holds nothing of it but
slots. As soon as it is to read or edit at a slot that holds nothing it is
**stuck**, and has no result. So a program that has a result has come to an
end, and has followed no slot that was freed on the way. The operations of a
chain are more lenient than that: a freed slot reads as an empty text, and
nothing follows it. That no program comes to such a slot is something to be
proved of it, and to be stuck there is what makes it a statement.

Loops are of one form (`loop`): a turn says either what the loop comes to or
with what it goes on. Nothing in that form makes a loop end, and one that goes
on for ever has no result either. Most of the loops go from slot to slot and
count the changes they make (`along`).
-/

namespace FlatC

/-- **A program along the links** of a chain: what it answers and the chain
it leaves, or nothing where it is stuck or does not end. -/
abbrev Links := StateT TokenChain Part

namespace Links

variable {α σ : Type}

/-! ## At one slot -/

/-- **What is done at a slot**, which has to hold a token for it. Everything
that reads or edits at a slot goes through here, so this is the only place at
which a program can be stuck. -/
def atSlot (id : TokenId) (f : TokenChain → α × TokenChain) : Links α :=
  fun c => if (c.node? id).isSome then .some (f c) else .none

/-- The slot of the first token, which is read off the chain and needs no slot
to be held. -/
def head : Links (Option TokenId) := fun c => .some (c.head, c)

/-- The slot that follows. A slot that holds a token but is not on the chain
has a link as well, and would be followed. -/
def next (id : TokenId) : Links (Option TokenId) :=
  atSlot id fun c => (c.next? id, c)

/-- The text in a slot. A chain answers the empty text for a free slot, and a
program is stuck there. -/
def text (id : TokenId) : Links String := atSlot id fun c => (c.text id, c)

/-- The line of a slot's token. -/
def line (id : TokenId) : Links Nat := atSlot id fun c => (c.line id, c)

/-- The file of a slot's token. -/
def file (id : TokenId) : Links FileId := atSlot id fun c => (c.file id, c)

/-- The text in a slot replaced. -/
def setText (id : TokenId) (text : String) : Links Unit :=
  atSlot id fun c => ((), c.setText id text)

/-- The token after a slot dropped, and whether there was one. -/
def removeNext (id : TokenId) : Links Bool := atSlot id (·.removeNext id)

/-- Up to `n` tokens after a slot dropped, and how many there were. The slots
that follow are looked up one after another, each in the chain that the last
drop has left. -/
def removeNextN (id : TokenId) (n : Nat) : Links Nat :=
  atSlot id (·.removeNextN id n)

/-- The first token dropped, and whether there was one. -/
def removeHead : Links Bool := fun c => .some c.removeHead

/-- A token put directly after a slot, with the slot it went to. It can be one
that was held by another token before. -/
def insertAfter (id : TokenId) (token : Token) : Links TokenId :=
  atSlot id (·.insertAfter id token)

/-- `n` tokens copied from a slot on to after another, both of which have to
hold a token. The slot copied from is held to that by reading its text. -/
def copyAfter (dest src : TokenId) (n : Nat) : Links (Option TokenId) := do
  let _ ← text src
  atSlot dest (·.copyAfter dest src n)

/-! ## From slot to slot -/

/-- The slot `n` places on, found link by link; none if the chain ends before.
It costs as many steps as there are places. -/
def nth (id : TokenId) : Nat → Links (Option TokenId)
  | 0 => return some id
  | n + 1 => do
    match ← next id with
    | none => return none
    | some after => nth after n

/-- The text `n` places on, empty past the end. -/
def textAt (id : TokenId) (n : Nat) : Links String := do
  match ← nth id n with
  | none => return ""
  | some place => text place

/-- The pieces held against the tokens from a slot on, which are read one
after another for as long as they are accepted. No more is read than is
needed: behind the last piece no link is followed. -/
def fits (id : TokenId) : List Piece → Links Bool
  | [] => return true
  | piece :: pieces => do
    if piece.accepts (← text id) then
      if pieces.isEmpty then return true
      else
        match ← next id with
        | none => return false
        | some after => fits after pieces
    else return false

/-- **Whether a pattern holds at a slot**, read off the chain as it is at that
moment. -/
def holds (p : Pattern) (id : TokenId) : Links Bool := fits id p.pieces

/-! ## Loops -/

/-- What a turn of a loop makes of where the loop is and of the chain: the two
together are what a loop iterates. -/
def turned (turn : σ → Links (α ⊕ σ)) :
    σ × TokenChain →. (α × TokenChain) ⊕ (σ × TokenChain) :=
  fun (s, c) => (turn s c).map fun (r, c') => r.map (·, c') (·, c')

/-- **A loop**: turns one after another, each of which says either what the
loop comes to or with what it goes on. -/
def loop (turn : σ → Links (α ⊕ σ)) (s : σ) : Links α :=
  fun c => (turned turn).fix (s, c)

/-- **A loop is a turn**, and then the loop again if it goes on. This is all
that is used of loops: where the equation is followed to an end, the loop has
a result. -/
theorem loop_eq (turn : σ → Links (α ⊕ σ)) (s : σ) :
    loop turn s = turn s >>= Sum.elim pure (loop turn) := by
  funext c
  have hrun : (turn s >>= Sum.elim pure (loop turn)) c
      = (turn s c).bind fun x => Sum.elim pure (loop turn) x.1 x.2 := rfl
  refine Part.ext fun r => ?_
  rw [hrun, loop, PFun.mem_fix_iff, Part.mem_bind_iff]
  simp only [turned, Part.mem_map_iff]
  -- a result is either that of the first turn, or that of the loop from where
  -- the turn goes on
  constructor
  · rintro (⟨⟨a | t, c'⟩, hx, he⟩ | ⟨_, ⟨⟨a | t, c'⟩, hx, he⟩, hr⟩) <;> cases he
    · exact ⟨_, hx, Part.mem_some _⟩
    · exact ⟨_, hx, hr⟩
  · rintro ⟨⟨a | t, c'⟩, hx, hr⟩
    · exact .inl ⟨_, hx, congrArg Sum.inl (Part.mem_some_iff.mp hr).symm⟩
    · exact .inr ⟨_, ⟨_, hx, rfl⟩, hr⟩

/-- **Two iterations side by side.** If each step of the one comes with a step
of the other, so does what they come to. The one ends where the other does, as
an iteration that goes on for ever has no result on either side. -/
theorem fix_map {α β γ δ : Type} {f : α →. β ⊕ α} {g : γ →. δ ⊕ γ}
    {i : α → γ} {k : β → δ} (h : ∀ a, g (i a) = (f a).map (Sum.map k i))
    (a : α) : g.fix (i a) = (f.fix a).map k := by
  have hstep : ∀ a y, y ∈ g (i a) ↔ ∃ x ∈ f a, Sum.map k i x = y :=
    fun a y => by rw [h, Part.mem_map_iff]
  refine Part.ext fun d => ⟨fun hd => ?_, fun hd => ?_⟩
  -- from right to left the iteration on the left is followed to its end; it
  -- stays among the images, since each of its steps is one
  · have hall : ∀ c, d ∈ g.fix c → ∀ a, i a = c → d ∈ (f.fix a).map k := by
      intro c hc
      refine PFun.fixInduction hc fun c hc ih a hac => ?_
      subst hac
      rcases PFun.mem_fix_iff.mp hc with hstop | ⟨c, hgo, -⟩
      · obtain ⟨b | a', hx, he⟩ := (hstep a _).mp hstop <;> cases he
        exact Part.mem_map k (PFun.fix_stop hx)
      · obtain ⟨b | a', hx, he⟩ := (hstep a _).mp hgo <;> cases he
        rw [PFun.fix_fwd_eq hx]
        exact ih _ hgo a' rfl
    exact hall _ hd a rfl
  · obtain ⟨b, hb, rfl⟩ := (Part.mem_map_iff k).mp hd
    refine PFun.fixInduction hb fun a hb ih => ?_
    rcases PFun.mem_fix_iff.mp hb with hstop | ⟨a', hgo, -⟩
    · exact PFun.fix_stop ((hstep a _).mpr ⟨_, hstop, rfl⟩)
    · rw [PFun.fix_fwd_eq ((hstep a _).mpr ⟨_, hgo, rfl⟩)]
      exact ih a' hgo

/-! ## Loops from slot to slot -/

variable {turn : σ → Links (Nat × Option σ)}

/-- A turn at a place, with how many changes have been made before it. With no
place to go on at, the loop comes to that number. -/
def counted (turn : σ → Links (Nat × Option σ)) :
    Nat × Option σ → Links (Nat ⊕ Nat × Option σ)
  | (k, none) => return .inl k
  | (k, some s) => do
    let (n, next) ← turn s
    return .inr (k + n, next)

/-- **A loop along the links**: turns one after another from a place on, each
of which says how many changes it has made and where to go on, if anywhere.
The answer is how many changes all of them have made. -/
def along (turn : σ → Links (Nat × Option σ)) (place : Option σ) :
    Links Nat :=
  loop (counted turn) (0, place)

/-- A program whose answer is changed at the end: the chain it leaves is the
same. -/
theorem map_run {β : Type} (f : α → β) (m : Links α) (c : TokenChain) :
    (f <$> m) c = (m c).map fun r => (f r.1, r.2) :=
  Part.bind_some_eq_map (fun r : α × TokenChain => (f r.1, r.2)) (m c)

/-- What has been counted before is only added. So a loop need not be followed
with its count, but only with where it is. -/
theorem loop_counted (turn : σ → Links (Nat × Option σ)) (k : Nat)
    (place : Option σ) :
    loop (counted turn) (k, place) = (k + ·) <$> along turn place := by
  funext c
  rw [map_run]
  refine fix_map (i := fun x => ((k + x.1.1, x.1.2), x.2)) ?_ ((0, place), c)
  -- step by step, the count is the same number more
  rintro ⟨⟨n, _ | s⟩, c⟩
  · have hnone : ∀ n, turned (counted turn) ((n, none), c)
        = .some (.inl (n, c)) := fun n => Part.map_some _ _
    rw [hnone, hnone, Part.map_some]
    rfl
  · have hsome : ∀ n, turned (counted turn) ((n, some s), c)
        = (turn s c).map fun r => .inr ((n + r.1.1, r.1.2), r.2) := fun n => by
      have hcounted : counted turn (n, some s)
          = (fun r => Sum.inr (n + r.1, r.2)) <$> turn s :=
        (map_eq_pure_bind _ _).symm
      rw [turned, hcounted, map_run, Part.map_map]
      rfl
    rw [hsome, hsome, Part.map_map]
    simp only [Function.comp_def, Sum.map_inr, Nat.add_assoc]

/-- With nowhere to begin, a loop changes nothing. -/
theorem along_none (turn : σ → Links (Nat × Option σ)) :
    along turn none = pure 0 := by
  rw [along, loop_eq, counted, pure_bind, Sum.elim_inl]

/-- A loop from a place on is a turn there and the loop from where that goes
on, the changes of both being added. -/
theorem along_some (turn : σ → Links (Nat × Option σ)) (s : σ) :
    along turn (some s)
      = turn s >>= fun r => along turn r.2 >>= fun m => pure (r.1 + m) := by
  rw [along, loop_eq, counted, bind_assoc]
  simp only [pure_bind, Sum.elim_inr, loop_counted, Nat.zero_add, map_eq_pure_bind]

end Links

end FlatC
