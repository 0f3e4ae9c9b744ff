import FlatC.Edit.Basic
import FlatC.Pattern.Basic
import FlatC.Proofs.Chain.Relay

/-!
# Sound passes

A pass sees the slots of the cells it works on, and the pool, and could do
as it likes with both. Two things are asked of one. It exchanges its row
for another, so that no slot is lost or handed out twice; and what becomes
of the *tokens* depends on the tokens alone. A pass that does both is
**sound** (`Pass.Sound`).

The second is a statement about two runs: on cells that are **alike**,
which hold the same tokens in whatever slots, and with any two pools, the
results are alike and the counts are the same. Everything a pass reads of
its cells, texts and patterns, reads the same in alike cells, and the ways
to build an edit keep edits alike. So both halves are proved of a pass by
following its recursion once.

Carried out on a chain, a sound pass leaves a chain that lays down what the
pass has made, and a tidy one tidy.
-/

namespace FlatC

/-! ## Alike cells -/

namespace Cell

variable {xs ys xs' ys' : List Cell} {c d : Cell}

/-- **Cells that hold the same tokens**, in whatever slots. This is the
sameness that a pass may not see through. -/
def Alike (xs ys : List Cell) : Prop :=
  xs.map Cell.token = ys.map Cell.token

namespace Alike

theorem refl (xs : List Cell) : Alike xs xs := rfl

theorem symm (h : Alike xs ys) : Alike ys xs := Eq.symm h

theorem cons (hc : c.token = d.token) (h : Alike xs ys) :
    Alike (c :: xs) (d :: ys) := by
  rw [Alike, List.map_cons, List.map_cons, hc, h]

theorem append (h : Alike xs ys) (h' : Alike xs' ys') :
    Alike (xs ++ xs') (ys ++ ys') := by
  rw [Alike, List.map_append, List.map_append, h, h']

theorem take (h : Alike xs ys) (n : Nat) :
    Alike (xs.take n) (ys.take n) := by
  rw [Alike, List.map_take, List.map_take, h]

theorem drop (h : Alike xs ys) (n : Nat) :
    Alike (xs.drop n) (ys.drop n) := by
  rw [Alike, List.map_drop, List.map_drop, h]

theorem eq_nil (h : Alike [] ys) : ys = [] :=
  List.map_eq_nil_iff.mp h.symm

/-- Cells alike to some that have a first one have one as well, with the same
token. -/
theorem exists_cons (h : Alike (c :: xs) ys) :
    ∃ d ys', ys = d :: ys' ∧ c.token = d.token ∧ Alike xs ys' := by
  cases ys with
  | nil => cases h
  | cons d ys =>
    obtain ⟨hc, hxs⟩ := List.cons.inj h
    exact ⟨d, ys, rfl, hc, hxs⟩

/-- Alike cells side by side, for passes that go over both at once. -/
theorem forall₂ (h : Alike xs ys) :
    List.Forall₂ (fun c d => c.token = d.token) xs ys := by
  induction xs generalizing ys with
  | nil =>
    obtain rfl := h.eq_nil
    exact .nil
  | cons c xs ih =>
    obtain ⟨d, ys, rfl, hc, hys⟩ := h.exists_cons
    exact .cons hc (ih hys)

theorem texts (h : Alike xs ys) : xs.map Cell.text = ys.map Cell.text := by
  have := congrArg (List.map Token.text) h
  rwa [List.map_map, List.map_map] at this

/-- **Alike cells fit the same patterns**, as only texts are looked at. -/
theorem opens (h : Alike xs ys) (p : Pattern) : p.opens xs = p.opens ys := by
  rw [Pattern.opens, Pattern.opens, ← Pattern.fits_map, h.texts,
    Pattern.fits_map]

theorem occurrences (h : Alike xs ys) (text : String) :
    occurrences text xs = occurrences text ys := by
  have hcount : ∀ zs : List Cell, Cell.occurrences text zs
      = (zs.map Cell.text).countP (· == text) := fun zs => by
    rw [List.countP_map]
    rfl
  rw [hcount, hcount, h.texts]

theorem rename (h : Alike xs ys) (old new : String) :
    Alike (rename old new xs) (rename old new ys) := by
  have hmap : ∀ zs : List Cell, (Cell.rename old new zs).map Cell.token
      = (zs.map Cell.token).map fun t =>
        if t.text == old then t.withText new else t := by
    intro zs
    rw [Cell.rename, List.map_map, List.map_map]
    refine List.map_congr_left fun z _ => ?_
    show (if z.text == old then z.withText new else z).token
      = if z.text == old then z.token.withText new else z.token
    split <;> rfl
  rw [Alike, hmap, hmap, h]

end Alike

theorem text_eq (h : c.token = d.token) : c.text = d.text :=
  congrArg Token.text h

theorem token_withText_eq (h : c.token = d.token) (s : String) :
    (c.withText s).token = (d.withText s).token :=
  congrArg (Token.withText · s) h

@[simp] theorem slots_rename (old new : String) (cells : List Cell) :
    slots (rename old new cells) = slots cells := by
  rw [slots, rename, List.map_map]
  refine List.map_congr_left fun c _ => ?_
  show (if c.text == old then c.withText new else c).slot = c.slot
  split <;> rfl

end Cell

open Cell (slots)

/-! ## Answers to alike cells

What looks at cells and may find nothing is told by one relation
(`Option.Rel`): it finds something in both of two lists or in neither. -/

section Answers

variable {α β : Type} {R : α → β → Prop} {y : Option β}

theorem exists_of_rel_some {a : α} (h : Option.Rel R (some a) y) :
    ∃ b, y = some b ∧ R a b := by
  cases h with
  | some h => exact ⟨_, rfl, h⟩

theorem eq_none_of_rel (h : Option.Rel R none y) : y = none := by
  cases h
  rfl

end Answers

/-! ## Edits -/

namespace Edit

variable {r s : Edit} {c d : Cell} {xs ys : List Cell}

/-- What an edit left, as a row, to be laid down. -/
def row (r : Edit) : Row := ⟨r.cells, r.pool⟩

/-- **Edits that left the same tokens** and counted the same. -/
structure Alike (r s : Edit) : Prop where
  cells : Cell.Alike r.cells s.cells
  count : r.count = s.count

namespace Alike

theorem unchanged (h : Cell.Alike xs ys) (p q : SlotPool) :
    Alike (unchanged xs p) (unchanged ys q) :=
  ⟨h, rfl⟩

theorem cons (h : Alike r s) (hc : c.token = d.token) :
    Alike (r.cons c) (s.cons d) :=
  ⟨h.cells.cons hc, h.count⟩

theorem prepend (h : Alike r s) (hc : Cell.Alike xs ys) :
    Alike (r.prepend xs) (s.prepend ys) :=
  ⟨hc.append h.cells, h.count⟩

theorem plus (h : Alike r s) {m n : Nat} (hn : m = n) :
    Alike (r.plus m) (s.plus n) :=
  ⟨h.cells, congrArg₂ _ hn h.count⟩

end Alike

end Edit

/-- **A sound pass**: it exchanges slots, and does to the tokens what depends
on the tokens alone. The first makes the chain one that lays down what the
pass made; the second makes its layout irrelevant. -/
structure Pass.Sound (pass : Pass) : Prop where
  exchanged : ∀ cells pool, Row.Exchanged ⟨cells, pool⟩ (pass cells pool).row
  alike : ∀ {xs ys : List Cell} (p q : SlotPool), Cell.Alike xs ys →
    (pass xs p).Alike (pass ys q)

/-! ## Chains -/

namespace TokenChain

variable {c d : TokenChain} {cells : List Cell} {pass : Pass}

theorem map_text_tokens (c : TokenChain) :
    c.tokens.map Token.text = c.cells.map Cell.text := by
  rw [tokens, List.map_map]
  rfl

/-- **A chain edited by a sound pass** lays down what the pass has made,
whatever stands beside it. -/
theorem Laid.edit (h : c.Laid cells) (hpass : pass.Sound) :
    (c.edit pass).2.Laid (pass cells c.pool).cells := by
  rw [TokenChain.edit, h.cells_eq]
  exact h.relay (hpass.exchanged cells c.pool)

/-- A tidy chain is tidy after a sound pass. -/
theorem Tidy.edit (h : c.Tidy) (hpass : pass.Sound) :
    (c.edit pass).2.Tidy :=
  h.laid.tidy_relay (hpass.exchanged c.cells c.pool) h

/-- Editing from the head is editing the whole chain. -/
theorem Laid.editFrom_head {cell : Cell} {rest : List Cell}
    (h : c.Laid (cell :: rest)) (pass : Pass) :
    c.editFrom c.head pass = c.edit pass := by
  rw [editFrom, TokenChain.edit, h.cells_eq, h.head]
  simp [Cell.entry]

/-- An empty chain has no head to edit from. -/
theorem Laid.editFrom_head_nil (h : c.Laid []) (pass : Pass) :
    c.editFrom c.head pass = (0, c) := by
  rw [editFrom, h.cells_eq]
  rfl

end TokenChain

end FlatC
