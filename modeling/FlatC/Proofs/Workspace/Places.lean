import Mathlib.Data.List.Nodup
import FlatC.Proofs.Edit.Environment
import FlatC.Proofs.Edit.Splitting
import FlatC.Proofs.Workspace.Layout

/-!
# Places in the source

A token carries the line and the file it came from, and a message about it
names them. Simplifying writes other texts into cells, drops cells and puts
in copies, and none of this makes up a line or a file.

The passes fall into two kinds. Until declarations are split nothing is put
in: whatever a pass writes, it writes over the text of a cell that stays in
its slot, so the places of the cells it leaves are some of those before, in
order (`Edit.Thinned`). Splitting declarations drops nothing: the cells that
are there stay in their places, and those put in between hold copies of
tokens from among them (`Filled`). A copy takes a slot that none of the other
cells has, so it can be told by its slot, and leaving out the copies leaves
just the cells that splitting began with (`Filled.map_place_filter`).
-/

namespace FlatC

open Cell (slots)

/-- Where a token comes from: its line and its file. This is what a listing by
place and a message go by. -/
def Token.source (t : Token) : Nat × FileId := (t.line, t.file)

variable {xs ys zs lead : List Cell} {c d : Cell} {pool : SlotPool}

/-! ## Cells dropped and written over -/

/-- **An edit that puts nothing in**: the cells it leaves are some of those
before, in order, each in its slot and with its line and file. Their texts may
be others. -/
def Edit.Thinned (r : Edit) (cells : List Cell) : Prop :=
  (r.cells.map Cell.place).Sublist (cells.map Cell.place)

namespace Edit.Thinned

variable {r s : Edit} {n : Nat}

/-- To leave everything puts nothing in. -/
theorem unchanged (cells : List Cell) (pool : SlotPool) :
    (Edit.unchanged cells pool).Thinned cells :=
  List.Sublist.refl _

/-- An edit after another puts nothing in if neither does. -/
theorem trans (h : r.Thinned xs) (k : s.Thinned r.cells) : s.Thinned xs :=
  List.Sublist.trans k h

/-- What is counted makes no difference. -/
theorem plus (h : r.Thinned xs) (n : Nat) : (r.plus n).Thinned xs := h

/-- Cells left in front, whatever is written in them. -/
theorem prepend (h : r.Thinned zs)
    (hplace : xs.map Cell.place = ys.map Cell.place) :
    (r.prepend xs).Thinned (ys ++ zs) := by
  rw [Thinned, Edit.cells_prepend, List.map_append, List.map_append, hplace]
  exact (List.Sublist.refl _).append h

/-- A cell left in front, whatever is written in it. -/
theorem cons (h : r.Thinned xs) (hplace : c.place = d.place) :
    (r.cons c).Thinned (d :: xs) := by
  rw [Thinned, Edit.cells_cons, List.map_cons, List.map_cons, hplace]
  exact List.Sublist.cons_cons _ h

/-- Cells dropped before the others are gone over. -/
theorem dropped (h : r.Thinned (xs.drop n)) : r.Thinned xs :=
  List.Sublist.trans h ((List.drop_sublist n xs).map Cell.place)

end Edit.Thinned

/-- Dropping `unsigned` puts nothing in. -/
theorem thinned_dropUnsigned (cells : List Cell) (pool : SlotPool) :
    (dropUnsigned cells pool).Thinned cells := by
  fun_induction dropUnsigned cells pool with
  | case1 pool => exact .unchanged [] pool
  | case2 c pool => exact .unchanged [c] pool
  | case3 c d rest pool _ ih =>
    have hrest : (dropUnsigned (d :: rest) (pool.give c.slot)).Thinned
        (c :: d :: rest) := List.Sublist.cons c.place ih
    exact hrest.plus 1
  | case4 c d rest pool _ ih => exact ih.cons rfl

/-- Inlining constants puts nothing in: a use is written over. -/
theorem thinned_inlineConstants (cells : List Cell) (pool : SlotPool) :
    (inlineConstants cells pool).Thinned cells := by
  have hplaces := Constant.map_place_foldl_read cells Constant.Reading.start
  rw [← Constant.readAll, (Constant.readAll_eq cells pool).1] at hplaces
  rw [Edit.Thinned, hplaces]
  exact List.Sublist.refl _

/-- Evaluating `sizeof` puts nothing in: the number is written over the word,
and the rest is dropped. -/
theorem thinned_evalSizeof (sizes : TypeSizes) (pointer : Nat)
    (cells : List Cell) (pool : SlotPool) :
    (evalSizeof sizes pointer cells pool).Thinned cells := by
  fun_induction evalSizeof sizes pointer cells pool with
  | case1 pool => exact .unchanged [] pool
  | case2 pool c rest value n _ ih => exact (ih.dropped.cons rfl).plus 1
  | case3 pool c rest _ ih => exact ih.cons rfl

namespace ArraySizeof

/-- Replacing the uses of an array puts nothing in. -/
theorem thinned_replaceUses (name total : String) (depth : Nat)
    (cells : List Cell) (pool : SlotPool) :
    (replaceUses name total depth cells pool).Thinned cells := by
  fun_induction replaceUses name total depth cells pool with
  | case1 depth pool => exact .unchanged [] pool
  | case2 depth pool c rest _ ih => exact ih.cons rfl
  | case3 pool c rest => exact .unchanged (c :: rest) pool
  | case4 pool c rest _ _ depth ih => exact ih.cons rfl
  | case5 depth pool c rest _ _ _ ih => exact (ih.dropped.cons rfl).plus 1
  | case6 depth pool c rest _ _ _ ih => exact ih.cons rfl

/-- What is done for one declaration of an array puts nothing in. -/
theorem thinned_apply (sizes : TypeSizes) (c : Cell) (rest : List Cell)
    (pool : SlotPool) : (apply sizes c rest pool).Thinned rest := by
  unfold apply
  split
  · next name total _ =>
    have h := (thinned_replaceUses name (Numeral.text total) 0 (rest.drop 4)
      pool).prepend (rfl : (rest.take 4).map Cell.place = _)
    rwa [List.take_append_drop] at h
  · exact .unchanged rest pool

end ArraySizeof

/-- Evaluating `sizeof` of arrays puts nothing in, declaration by declaration. -/
theorem thinned_evalArraySizeof (sizes : TypeSizes) (cells : List Cell)
    (pool : SlotPool) : (evalArraySizeof sizes cells pool).Thinned cells := by
  fun_induction evalArraySizeof sizes cells pool with
  | case1 pool => exact .unchanged [] pool
  | case2 pool c rest r ih =>
    have hr : r.Thinned rest := ArraySizeof.thinned_apply sizes c rest pool
    exact ((hr.trans ih).cons rfl).plus r.count

namespace Arithmetic

/-- Dropping a factor 1 puts nothing in. -/
theorem thinned_dropUnit (before : String) (rest : List Cell)
    (pool : SlotPool) : (dropUnit before rest pool).Thinned rest := by
  unfold dropUnit
  split
  · exact (List.drop_sublist 2 rest).map Cell.place
  · exact .unchanged rest pool

/-- A result stands where the first operand stood. -/
theorem thinned_result {before : String} {r : Edit}
    (h : nextResult? before xs = some c) (hr : r.Thinned (xs.drop 3)) :
    (r.cons c).Thinned xs := by
  obtain ⟨a, op, b, rest, v, rfl, rfl⟩ := exists_of_nextResult? h
  have hrest : r.Thinned (op :: b :: rest) :=
    (List.Sublist.cons b.place hr).cons op.place
  exact hrest.cons rfl

/-- One sweep of folding puts nothing in. -/
theorem thinned_sweep (cells : List Cell) (pool : SlotPool) :
    (sweep cells pool).Thinned cells := by
  fun_induction sweep cells pool with
  | case1 pool => exact .unchanged [] pool
  | case2 pool c rest r result hresult ih =>
    have hr : r.Thinned rest := thinned_dropUnit c.text rest pool
    exact ((hr.trans (thinned_result hresult ih)).cons rfl).plus (r.count + 1)
  | case3 pool c rest r _ ih =>
    have hr : r.Thinned rest := thinned_dropUnit c.text rest pool
    exact ((hr.trans ih).cons rfl).plus r.count

end Arithmetic

/-- Folding puts nothing in, in any number of sweeps. -/
theorem thinned_foldArithmetic (cells : List Cell) (pool : SlotPool) :
    (foldArithmetic cells pool).Thinned cells := by
  fun_induction foldArithmetic cells pool with
  | case1 cells pool r _ => exact Arithmetic.thinned_sweep cells pool
  | case2 cells pool r _ ih =>
    exact ((Arithmetic.thinned_sweep cells pool).trans ih).plus r.count

/-- The four tokens of a subscript stand where the first four of the sum
stood. So the brackets have the line and the file of what was there, too. -/
theorem Subscript.thinned_next? {before : String} {r : Edit}
    {written dropped more : List Cell}
    (h : next? before xs = some (written, dropped, more))
    (hr : r.Thinned more) : (r.prepend written).Thinned xs := by
  unfold next? at h
  split at h
  · next star paren var plus num close more =>
    split at h
    · cases h
      have hrest : r.Thinned (num :: close :: more) :=
        (List.Sublist.cons close.place hr).cons num.place
      exact hrest.prepend
        (rfl : _ = [star, paren, var, plus].map Cell.place)
    · cases h
  · cases h

/-- Writing subscripts puts nothing in. -/
theorem thinned_writeSubscripts (cells : List Cell) (pool : SlotPool) :
    (writeSubscripts cells pool).Thinned cells := by
  fun_induction writeSubscripts cells pool with
  | case1 pool => exact .unchanged [] pool
  | case2 pool c rest written dropped more hnext ih =>
    exact ((Subscript.thinned_next? hnext ih).cons rfl).plus 1
  | case3 pool c rest _ ih => exact ih.cons rfl

/-! ## Copies put in between -/

/-- **Cells with others put in between**: they are all there, in order, in
their slots and with their lines and files, and what is put in has the line
and the file of one of them. -/
structure Filled (xs ys : List Cell) : Prop where
  places : (xs.map Cell.place).Sublist (ys.map Cell.place)
  sources : ∀ d ∈ ys, ∃ c ∈ xs, d.token.source = c.token.source

namespace Filled

/-- Cells with nothing put in. -/
theorem refl (xs : List Cell) : Filled xs xs :=
  ⟨List.Sublist.refl _, fun d hd => ⟨d, hd, rfl⟩⟩

/-- Cells filled twice are filled. -/
theorem trans (h : Filled xs ys) (k : Filled ys zs) : Filled xs zs := by
  refine ⟨h.places.trans k.places, fun e he => ?_⟩
  obtain ⟨d, hd, hed⟩ := k.sources e he
  obtain ⟨c, hc, hdc⟩ := h.sources d hd
  exact ⟨c, hc, hed.trans hdc⟩

/-- Cells that stay in front make no difference. -/
theorem append (h : Filled xs ys) (before : List Cell) :
    Filled (before ++ xs) (before ++ ys) := by
  constructor
  · rw [List.map_append, List.map_append]
    exact (List.Sublist.refl _).append h.places
  · intro d hd
    rcases List.mem_append.mp hd with hd | hd
    · exact ⟨d, List.mem_append_left _ hd, rfl⟩
    · obtain ⟨c, hc, hsource⟩ := h.sources d hd
      exact ⟨c, List.mem_append_right _ hc, hsource⟩

/-- **Copies put in behind a cell**, of tokens from its line and file or from
those of a cell before it. What is written in the cell does not matter. -/
theorem behind (c : Cell) (s : String) {ts : List Token}
    (hts : ∀ t ∈ ts, ∃ x ∈ lead ++ [c], t.source = x.token.source)
    (after : List Cell) (pool : SlotPool) :
    Filled (lead ++ c :: after)
      (lead ++ c.withText s :: ((pool.copy ts).1 ++ after)) := by
  constructor
  · rw [List.map_append, List.map_append, List.map_cons, List.map_cons,
      List.map_append]
    exact (List.Sublist.refl _).append
      ((List.sublist_append_right _ _).cons_cons c.place)
  · intro d hd
    rw [List.mem_append, List.mem_cons, List.mem_append] at hd
    rcases hd with hd | rfl | hd | hd
    · exact ⟨d, List.mem_append_left _ hd, rfl⟩
    · exact ⟨c, by simp, rfl⟩
    · have hmem : d.token ∈ ts := by
        rw [← pool.map_token_copy ts]
        exact List.mem_map_of_mem hd
      obtain ⟨x, hx, hsource⟩ := hts d.token hmem
      refine ⟨x, ?_, hsource⟩
      rw [List.mem_append, List.mem_singleton] at hx
      rcases hx with hx | rfl
      · exact List.mem_append_left _ hx
      · simp
    · exact ⟨d, by simp [hd], rfl⟩

end Filled

namespace Declaration

variable {before : String} {s : Split}

/-- **A declaration that is split** has copies put in between. Each of them is
copied from a token of the statement, so it has a line and a file from there. -/
theorem filled_of_next? (h : next? before xs pool = some s) :
    Filled xs (s.written ++ s.left) := by
  obtain ⟨-, shape, lead, sep, after, name, -, rfl, -, hname, hs⟩ :=
    cells_of_next? h
  -- the type and the name stand before what is split
  have htype : ∀ {ys : List Cell}, lead ⊆ ys →
      ∀ t ∈ (lead.take shape.type).map Cell.token,
        ∃ x ∈ ys, t.source = x.token.source := by
    intro ys hlead t ht
    obtain ⟨x, hx, rfl⟩ := List.mem_map.mp ht
    exact ⟨x, hlead (List.mem_of_mem_take hx), rfl⟩
  have hname : name ∈ lead := List.mem_of_mem_drop (mem_of_nameCell? hname)
  rcases hs with ⟨-, rfl⟩ | ⟨-, hs⟩
  · have hlead := List.subset_append_left lead [sep]
    exact .behind sep ";" (htype hlead) after pool
  · obtain ⟨init, stop, more, hcut, hs⟩ := cells_of_atEquals? hs
    have hsources : ∀ t ∈ [name.token, sep.token],
        ∃ x ∈ lead ++ [sep], t.source = x.token.source := by
      intro t ht
      rcases List.mem_pair.mp ht with rfl | rfl
      · exact ⟨name, List.mem_append_left _ hname, rfl⟩
      · exact ⟨sep, by simp, rfl⟩
    have hcopies := Filled.behind sep ";" hsources after pool
    generalize pool.copy [name.token, sep.token] = copies at hcopies hs
    rw [eq_append_of_cutInitializer? hcut] at hcopies ⊢
    rcases hs with ⟨-, rfl⟩ | ⟨-, rfl⟩
    · have hlead : lead ⊆ lead ++ sep.withText ";" :: (copies.1 ++ init)
          ++ [stop] := fun x hx => by simp [hx]
      have htypes := Filled.behind stop ";" (htype hlead) more copies.2
      refine hcopies.trans ?_
      simpa using htypes
    · simpa using hcopies

end Declaration

/-- Splitting declarations puts copies in between, declaration by declaration. -/
theorem filled_splitDeclarations (cells : List Cell) (pool : SlotPool) :
    Filled cells (splitDeclarations cells pool).cells := by
  fun_induction splitDeclarations cells pool with
  | case1 pool => exact .refl []
  | case2 pool c rest s hnext ih =>
    have hdone := (Declaration.filled_of_next? hnext).trans
      (ih.append s.written)
    exact hdone.append [c]
  | case3 pool c rest _ ih => exact ih.append [c]

/-! ## Leaving out the copies -/

/-- **A part of a list is told by its keys**, if no two entries of the list
have the same. The keys here are the slots. -/
theorem filter_fst_mem {α β : Type} [DecidableEq α] {as bs : List (α × β)}
    (h : as.Sublist bs) (hnodup : (bs.map Prod.fst).Nodup) :
    (bs.filter fun b => b.1 ∈ as.map Prod.fst) = as := by
  induction h with
  | slnil => rfl
  | @cons as bs b h ih =>
    obtain ⟨hb, hnodup⟩ := List.nodup_cons.mp hnodup
    have hnot : b.1 ∉ as.map Prod.fst := fun hmem =>
      hb ((h.map Prod.fst).subset hmem)
    rw [List.filter_cons_of_neg (by simpa using hnot), ih hnodup]
  | @cons_cons as bs b h ih =>
    obtain ⟨hb, hnodup⟩ := List.nodup_cons.mp hnodup
    rw [List.filter_cons_of_pos (by simp)]
    refine congrArg (b :: ·) ((List.filter_congr fun x hx => ?_).trans
      (ih hnodup))
    have hne : x.1 ≠ b.1 := fun he => hb (he ▸ List.mem_map_of_mem hx)
    simp only [List.map_cons, List.mem_cons, hne, false_or]

/-- **Leaving out what was put in** leaves the cells there were. What was put
in is told by its slots, which no cell had before. -/
theorem Filled.map_place_filter (h : Filled xs ys)
    (hnodup : (slots ys).Nodup) :
    (ys.filter fun c => c.slot ∈ slots xs).map Cell.place
      = xs.map Cell.place := by
  have hslots : ∀ zs : List Cell,
      (zs.map Cell.place).map Prod.fst = slots zs := fun zs => by
    rw [List.map_map]
    rfl
  have hfilter := filter_fst_mem h.places (by rwa [hslots])
  rwa [hslots, List.filter_map] at hfilter

/-! ## Simplifying -/

/-- **Some cells simplified but for their declarations**, with the pool there
is then. Up to here nothing is put in, and from here on nothing is taken out. -/
def unsplitCells (target : Target) (cells : List Cell) (pool : SlotPool) :
    Row :=
  let dropped := dropUnsigned cells pool
  let inlined := inlineConstants dropped.cells dropped.pool
  let sizes := (TypeSizes.inForce target inlined.cells).1
  let sized := evalSizeof sizes target.pointer inlined.cells inlined.pool
  let arrays := evalArraySizeof sizes sized.cells sized.pool
  let folded := foldArithmetic arrays.cells arrays.pool
  (writeSubscripts folded.cells folded.pool).row

/-- Simplifying is splitting what is left of the passes before. -/
theorem cells_simplifyCells (target : Target) (cells : List Cell)
    (pool : SlotPool) : (simplifyCells target cells pool).cells
      = (splitDeclarations (unsplitCells target cells pool).cells
        (unsplitCells target cells pool).pool).cells := rfl

/-- The passes before the splitting put nothing in, one after another. -/
theorem sublist_unsplitCells (target : Target) (cells : List Cell)
    (pool : SlotPool) :
    ((unsplitCells target cells pool).cells.map Cell.place).Sublist
      (cells.map Cell.place) :=
  (thinned_dropUnsigned cells pool).trans <|
    (thinned_inlineConstants _ _).trans <|
    (thinned_evalSizeof _ _ _ _).trans <|
    (thinned_evalArraySizeof _ _ _).trans <|
    (thinned_foldArithmetic _ _).trans (thinned_writeSubscripts _ _)

/-- **The lines and files kept** of some cells that are first changed without
splitting declarations, which leaves what is in `between`, and then split.
What has come through both keeps its place, and what is new has one of theirs. -/
structure PlacesKept (before : List Cell) (between : Row)
    (after : List Cell) : Prop where
  /-- Declarations are split last. -/
  split : after = (splitDeclarations between.cells between.pool).cells
  /-- What they are split in are some of the cells before, in order, each in
  its slot and with its line and file. -/
  thinned : (between.cells.map Cell.place).Sublist (before.map Cell.place)
  /-- The cells that were there then are all there afterwards, in order, with
  their slots, lines and files. The copies are in other slots. -/
  kept : (after.filter fun c => c.slot ∈ slots between.cells).map Cell.place
    = between.cells.map Cell.place
  /-- So leaving out the copies, lines and files are some of those before, in
  order. -/
  sublist : ((after.filter fun c => c.slot ∈ slots between.cells).map
      fun c => c.token.source).Sublist (before.map fun c => c.token.source)
  /-- The line and the file of any cell, a copy or not, are those of a cell
  that declarations are split in, -/
  known : ∀ c ∈ after, ∃ d ∈ between.cells, c.token.source = d.token.source
  /-- and so of one before. -/
  source : ∀ c ∈ after, ∃ d ∈ before, c.token.source = d.token.source

namespace Workspace

/-- **Simplifying makes up no place in the source**, for any target and
whatever tokens are in the chain. Every token after it stands on a line that
one before it stood on. -/
theorem placesKept_simplify (target : Target) (w : Workspace)
    (h : w.chain.Laid w.chain.cells) :
    PlacesKept w.chain.cells
      (unsplitCells target w.chain.cells w.chain.pool)
      (w.simplify target).2.chain.cells := by
  have hexchanged := exchanged_simplifyCells target w.chain.cells w.chain.pool
  have hcells : (w.simplify target).2.chain.cells
      = (simplifyCells target w.chain.cells w.chain.pool).cells :=
    (h.relay hexchanged).cells_eq
  have hnodup := h.nodup_exchanged hexchanged
  have hthinned := sublist_unsplitCells target w.chain.cells w.chain.pool
  rw [cells_simplifyCells] at hcells hnodup
  rw [hcells]
  generalize unsplitCells target w.chain.cells w.chain.pool = between
    at hnodup hthinned ⊢
  have hfilled := filled_splitDeclarations between.cells between.pool
  have hkept := hfilled.map_place_filter hnodup
  have hsource : ∀ xs : List Cell, (xs.map fun c => c.token.source)
      = (xs.map Cell.place).map Prod.snd := fun xs => by
    rw [List.map_map]
    rfl
  refine ⟨rfl, hthinned, hkept, ?_, hfilled.sources, fun c hc => ?_⟩
  · rw [hsource, hsource, hkept]
    exact hthinned.map Prod.snd
  · obtain ⟨d, hd, hcd⟩ := hfilled.sources c hc
    obtain ⟨b, hb, hdb⟩ := List.mem_map.mp
      (hthinned.subset (List.mem_map_of_mem hd))
    exact ⟨b, hb, hcd.trans (congrArg Prod.snd hdb).symm⟩

/-- Tokens on four lines of two files: `unsigned` dropped, a name replaced, a
`sizeof` evaluated and folded, a sum written as a subscript, and a type, a
name and an `=` copied from the line they stand on. -/
theorem placesKept_of_texts :
    let first := ["const", "int", "N", "=", "8", ";"].map
      fun s => (⟨s, 1, .first⟩ : Token)
    let second := ["unsigned", "int", "a", "=", "*", "(", "p", "+", "3",
      ")"].map fun s => (⟨s, 2, .first⟩ : Token)
    let third := [",", "b", "=", "sizeof", "(", "int", ")", "*", "N"].map
      fun s => (⟨s, 3, ⟨1⟩⟩ : Token)
    let fourth := [";"].map fun s => (⟨s, 4, ⟨1⟩⟩ : Token)
    let w : Workspace := { chain := (ChainOp.run TokenChain.act .empty
      ((first ++ second ++ third ++ fourth).map .pushBack)).2 }
    w.chain.Laid w.chain.cells
      ∧ (w.simplify .host).2.chain.tokens.map (fun t => (t.text, t.line))
        = [("const", 1), ("int", 1), ("N", 1), ("=", 1), ("8", 1), (";", 1),
          ("int", 2), ("a", 2), (";", 2), ("a", 2), ("=", 2), ("p", 2),
          ("[", 2), ("3", 2), ("]", 2), (";", 3), ("int", 2), ("b", 3),
          (";", 3), ("b", 3), ("=", 3), ("32", 3), (";", 4)]
      ∧ PlacesKept w.chain.cells
        (unsplitCells .host w.chain.cells w.chain.pool)
        (w.simplify .host).2.chain.cells := by
  intro first second third fourth w
  have hlaid : w.chain.Laid w.chain.cells := TokenChain.laid_empty.run _
  exact ⟨hlaid, by decide +kernel, placesKept_simplify .host w hlaid⟩

end Workspace

end FlatC
