import FlatC.Proofs.Chain.InPlace
import FlatC.Proofs.Edit.Basic
import FlatC.Proofs.Links.Program

/-!
# What programs along the links make of rows

A program has a chain for its state, with slots that stand beside it and free
ones, and none of that matters to it. So what it does is said of rows:
`Makes m r a s` is that on every chain that lays down the cells of `r` and
has its pool, `m` answers `a` and leaves the chain to which `s` is laid down.
In particular it has a result, so it comes to an end and is nowhere stuck.

There is one rule for each operation, told of the place in the row at which
it is carried out, and one for each way of putting programs together. A loop
does the work of a pass (`Steps.does`) if each of its turns does: it leaves
something behind that is not touched again, and what the pass comes to is
this and what it makes of what is then ahead.
-/

namespace FlatC

namespace Links

open Cell (entry slots)

variable {α β : Type} {m : Links α} {f : α → Links β} {a : α} {b : β}
variable {r s t : Row} {before rest : List Cell} {x : Cell}
variable {c : TokenChain} {cells : List Cell}

/-- **What a program makes of a row**, and what it answers: of each chain that
lays down the one, it leaves the chain to which the other is laid down. The
result is part of what is said, so a program that is stuck on one of these
chains, or goes on for ever, makes nothing of the row. -/
def Makes (m : Links α) (r : Row) (a : α) (s : Row) : Prop :=
  ∀ c : TokenChain, c.Laid r.cells → c.pool = r.pool →
    Row.Exchanged r s ∧ m c = .some (a, c.relay s.cells s.pool)

/-! ## Programs put together -/

/-- **A program that changes nothing** leaves the row as it is: laying down
the cells a chain already has changes nothing either. -/
theorem makes_of_reads (h : ∀ c, c.Laid r.cells → m c = .some (a, c)) :
    Makes m r a r := by
  intro c hlaid hpool
  have hself := hlaid.relay_self
  rw [hpool] at hself
  exact ⟨.refl r, by rw [h c hlaid, hself]⟩

/-- An answer alone changes nothing. -/
theorem makes_pure (a : α) (r : Row) : Makes (pure a) r a r :=
  makes_of_reads fun _ _ => rfl

/-- **One program after another.** The second one runs on a chain to which a
row was just laid down; laying down what it makes over that is laying it down
over the first chain. -/
theorem Makes.bind (h : Makes m r a s) (k : Makes (f a) s b t) :
    Makes (m >>= f) r b t := by
  intro c hlaid hpool
  -- the second program is given the chain that the first one leaves, whose
  -- pool and cells are known
  obtain ⟨hexchanged, hm⟩ := h c hlaid hpool
  rw [show r = ⟨r.cells, c.pool⟩ by rw [hpool]] at hexchanged
  obtain ⟨hnext, hf⟩ := k _ (hlaid.relay hexchanged)
    (TokenChain.pool_relay hexchanged.size_le s.cells)
  have hrun : (m >>= f) c = (m c).bind fun x => f x.1 x.2 := rfl
  refine ⟨?_, ?_⟩
  · rw [show r = ⟨r.cells, c.pool⟩ by rw [hpool]]
    exact hexchanged.trans hnext
  · rw [hrun, hm, Part.bind_some, hf,
      hlaid.relay_relay hexchanged hnext]

/-- A decision that is known to hold. -/
theorem Makes.of_pos {q : Prop} [Decidable q] {m' : Links α} (hq : q)
    (h : Makes m r a s) : Makes (if q then m else m') r a s := by
  rwa [if_pos hq]

/-- A decision that is known not to hold. -/
theorem Makes.of_neg {q : Prop} [Decidable q] {m' : Links α} (hq : ¬ q)
    (h : Makes m' r a s) : Makes (if q then m else m') r a s := by
  rwa [if_neg hq]

/-- A decision of which both sides leave the same row, with the answer decided
alike. -/
theorem makes_ite {q : Prop} [Decidable q] {m' : Links α} {a' : α}
    (h : Makes m r a s) (h' : Makes m' r a' s) :
    Makes (if q then m else m') r (if q then a else a') s := by
  split
  · exact h
  · exact h'

/-- No slot comes twice in a row that is laid down, so that two cells of it
can be told apart by their slots. -/
theorem makes_of_nodup (h : (slots r.cells).Nodup → Makes m r a s) :
    Makes m r a s :=
  fun c hlaid => h hlaid.nodup c hlaid

/-! ## Reading -/

/-- **No program is stuck at a slot of the chain.** -/
theorem atSlot_of_mem (h : c.Laid cells) (hcell : x ∈ cells)
    (f : TokenChain → α × TokenChain) :
    atSlot x.slot f c = .some (f c) :=
  if_pos (h.isSome_node? (List.mem_map_of_mem hcell))

/-- The text is read of any cell of the row, at whatever place. -/
theorem makes_text (h : x ∈ r.cells) :
    Makes (text x.slot) r x.text r := by
  refine makes_of_reads fun c hlaid => ?_
  rw [text, atSlot_of_mem hlaid h, TokenChain.text, hlaid.get?_of_mem h]
  rfl

theorem makes_line (h : x ∈ r.cells) :
    Makes (line x.slot) r x.token.line r := by
  refine makes_of_reads fun c hlaid => ?_
  rw [line, atSlot_of_mem hlaid h, TokenChain.line, hlaid.get?_of_mem h]
  rfl

theorem makes_file (h : x ∈ r.cells) :
    Makes (file x.slot) r x.token.file r := by
  refine makes_of_reads fun c hlaid => ?_
  rw [file, atSlot_of_mem hlaid h, TokenChain.file, hlaid.get?_of_mem h]
  rfl

theorem makes_head (r : Row) : Makes head r (entry r.cells none) r :=
  makes_of_reads fun c hlaid => by rw [head, hlaid.head]

/-- A cell is among those it stands between. -/
theorem mem_of_split (h : r.cells = before ++ x :: rest) :
    x ∈ r.cells :=
  h ▸ List.mem_append_right _ List.mem_cons_self

/-- **The link of a cell leads to the next one**, or nowhere from the last.
Here the place in the row matters, which is told by what stands on both sides. -/
theorem makes_next (h : r.cells = before ++ x :: rest) :
    Makes (next x.slot) r (entry rest none) r := by
  refine makes_of_reads fun c hlaid => ?_
  have hsplit : c.Laid (before ++ x :: rest) := h ▸ hlaid
  rw [next, atSlot_of_mem hlaid (mem_of_split h), hsplit.next?_mem]

/-- Going on by the link, with something counted: how nearly every turn of a
loop ends. -/
theorem makes_onward (h : r.cells = before ++ x :: rest) (n : Nat) :
    Makes (next x.slot >>= fun place => pure (n, place)) r
      (n, entry rest none) r :=
  (makes_next h).bind (makes_pure _ r)

/-- **The slot so many places on** is that of the cell there. Nothing is
changed by looking for it. -/
theorem makes_nth (h : r.cells = before ++ x :: rest) (n : Nat) :
    Makes (nth x.slot n) r (entry ((x :: rest).drop n) none) r := by
  -- by the number of links, with the place moving along the row
  induction n generalizing before x rest with
  | zero => exact makes_pure _ r
  | succ n ih =>
    rw [nth]
    refine (makes_next h).bind ?_
    rw [List.drop_succ_cons]
    cases rest with
    | nil =>
      rw [List.drop_nil]
      exact makes_pure none r
    | cons d rest =>
      have hd : r.cells = (before ++ [x]) ++ d :: rest := by simp [h]
      exact ih hd

/-- The same where there is a cell at that place. -/
theorem makes_nth_some {d : Cell} {n : Nat}
    (h : r.cells = before ++ x :: rest)
    (hd : (x :: rest)[n]? = some d) :
    Makes (nth x.slot n) r (some d.slot) r := by
  have hnth := makes_nth h n
  rwa [Cell.entry_drop, slots, List.getElem?_map, hd] at hnth

/-- **The text so many places on.** -/
theorem makes_textAt (h : r.cells = before ++ x :: rest) (n : Nat) :
    Makes (textAt x.slot n) r
      (((x :: rest)[n]?.map Cell.text).getD "") r := by
  rw [textAt]
  refine (makes_nth h n).bind ?_
  rw [← List.head?_drop]
  cases hdrop : (x :: rest).drop n with
  | nil => exact makes_pure _ r
  | cons d more =>
    have hd : d ∈ (x :: rest).drop n := hdrop ▸ List.mem_cons_self
    exact makes_text (h ▸ List.mem_append_right _ (List.mem_of_mem_drop hd))

/-- The same where there is a cell at that place. -/
theorem makes_textAt_some {d : Cell} {n : Nat}
    (h : r.cells = before ++ x :: rest)
    (hd : (x :: rest)[n]? = some d) :
    Makes (textAt x.slot n) r d.text r := by
  have htext := makes_textAt h n
  rwa [hd] at htext

/-- Pieces are held against the cells from a slot on, with the same outcome as
held against the list of these cells. -/
theorem makes_fits (h : r.cells = before ++ x :: rest)
    (pieces : List Piece) :
    Makes (fits x.slot pieces) r
      (Pattern.fits Cell.text pieces (x :: rest)) r := by
  -- piece by piece, with the place moving along the row; behind the last
  -- piece no link is followed
  induction pieces generalizing before x rest with
  | nil => exact makes_pure true r
  | cons piece pieces ih =>
    rw [fits, Pattern.fits_cons_cons]
    refine (makes_text (mem_of_split h)).bind ?_
    cases piece.accepts x.text with
    | false => exact makes_pure false r
    | true =>
      rw [Bool.true_and, if_pos rfl]
      cases pieces with
      | nil =>
        rw [Pattern.fits_nil]
        exact makes_pure true r
      | cons q pieces =>
        refine (makes_next h).bind ?_
        cases rest with
        | nil => exact makes_pure false r
        | cons d rest =>
          have hd : r.cells = (before ++ [x]) ++ d :: rest := by simp [h]
          exact ih hd

/-- **A pattern holds at a slot** if the cells from there on fit it. -/
theorem makes_holds (h : r.cells = before ++ x :: rest) (p : Pattern) :
    Makes (holds p x.slot) r (p.opens (x :: rest)) r :=
  makes_fits h p.pieces

/-! ## Editing -/

/-- A stretch of which less than all is asked for is not gone over again. -/
theorem cycle_of_le {n : Nat} {ts : List Token} (h : n ≤ ts.length) :
    cycle n ts = ts.take n := by
  induction n generalizing ts with
  | zero => rfl
  | succ n ih =>
    cases ts with
    | nil => rfl
    | cons t ts =>
      have hn : n ≤ ts.length := Nat.le_of_succ_le_succ h
      rw [cycle, ih (by rw [List.length_append]; omega), List.take_succ_cons,
        List.take_append_of_le_length hn]

/-- Another text in a cell: its slot stays, and so does what any slot held
leads to. -/
theorem makes_setText (h : r.cells = before ++ x :: rest) (text : String) :
    Makes (setText x.slot text) r ()
      ⟨before ++ x.withText text :: rest, r.pool⟩ := by
  intro c hlaid hpool
  obtain ⟨cells, pool⟩ := r
  subst h hpool
  refine ⟨TokenChain.Laid.exchanged_withText _ _ _ _ _, ?_⟩
  rw [setText, atSlot_of_mem hlaid (by simp), hlaid.setText_eq_relay]

/-- **The cells behind one dropped.** The slot at which this is done stays
live, and so do those before it and those behind what is dropped. -/
theorem makes_removeNextN (h : r.cells = before ++ x :: rest) (n : Nat) :
    Makes (removeNextN x.slot n) r (min n rest.length)
      ⟨before ++ x :: rest.drop n, r.pool.giveAll (rest.take n)⟩ := by
  intro c hlaid hpool
  obtain ⟨cells, pool⟩ := r
  subst h hpool
  refine ⟨TokenChain.Laid.exchanged_behind _ _ _ _ n, ?_⟩
  rw [removeNextN, atSlot_of_mem hlaid (by simp),
    ← hlaid.removeNextN_eq_relay, ← (hlaid.removeNextN_mem n).1]

/-- The cell behind one dropped. -/
theorem makes_removeNext {gone : Cell}
    (h : r.cells = before ++ x :: gone :: rest) :
    Makes (removeNext x.slot) r true
      ⟨before ++ x :: rest, r.pool.give gone.slot⟩ := by
  intro c hlaid hpool
  obtain ⟨cells, pool⟩ := r
  subst h hpool
  refine ⟨TokenChain.Laid.exchanged_behind before (gone :: rest) x _ 1, ?_⟩
  have htrue : (c.removeNext x.slot).1 = true := hlaid.fst_removeNext_mem
  rw [removeNext, atSlot_of_mem hlaid (by simp), ← hlaid.removeNext_eq_relay,
    ← htrue]

/-- The first cell dropped, for which no slot is held. -/
theorem makes_removeHead {gone : Cell} (h : r.cells = gone :: rest) :
    Makes removeHead r true ⟨rest, r.pool.give gone.slot⟩ := by
  intro c hlaid hpool
  obtain ⟨cells, pool⟩ := r
  subst h hpool
  refine ⟨.dropped [gone] rest _, ?_⟩
  have htrue : c.removeHead.1 = true := by
    rw [TokenChain.removeHead_of_head hlaid.head]
  rw [removeHead, ← hlaid.removeHead_eq_relay, ← htrue]

/-- A cell put in behind another, with the slot that is next to be taken. -/
theorem makes_insertAfter (h : r.cells = before ++ x :: rest) (t : Token) :
    Makes (insertAfter x.slot t) r r.pool.take.1
      ⟨before ++ x :: ⟨r.pool.take.1, t⟩ :: rest, r.pool.take.2⟩ := by
  intro c hlaid hpool
  obtain ⟨cells, pool⟩ := r
  subst h hpool
  refine ⟨TokenChain.Laid.exchanged_copied _ _ _ [t] _, ?_⟩
  rw [insertAfter, atSlot_of_mem hlaid (by simp),
    ← hlaid.insertAfter_eq_relay, ← TokenChain.fst_insertAfter c x.slot t]

/-- **The first part of a stretch copied behind its end.** The stretch is
`init ++ [x]`, and no more than all of it is asked for, so the copy never
comes to read what it has written. -/
theorem makes_copyAfter {init more : List Cell} {src : Cell}
    (h : r.cells = before ++ (init ++ x :: rest))
    (hsrc : init ++ [x] = src :: more) {n : Nat}
    (hn : n ≤ (init ++ [x]).length) :
    let copies := r.pool.copy (((init ++ [x]).take n).map Cell.token)
    Makes (copyAfter x.slot src.slot n) r
      (copies.1.getLast?.map Cell.slot)
      ⟨before ++ (init ++ x :: (copies.1 ++ rest)), copies.2⟩ := by
  intro copies c hlaid hpool
  obtain ⟨cells, pool⟩ := r
  subst h hpool
  have hentry : entry (init ++ [x]) none = some src.slot := by
    rw [hsrc]
    rfl
  have hcycle : cycle n ((init ++ [x]).map Cell.token)
      = ((init ++ [x]).take n).map Cell.token := by
    rw [cycle_of_le (by rwa [List.length_map]), List.map_take]
  have hexchanged := TokenChain.Laid.exchanged_copied (before ++ init) rest
    x (((init ++ [x]).take n).map Cell.token) c.pool
  rw [List.append_assoc, List.append_assoc] at hexchanged
  refine ⟨hexchanged, ?_⟩
  have hmem : src ∈ before ++ (init ++ x :: rest) := by
    have hfirst : src ∈ init ++ [x] := hsrc ▸ List.mem_cons_self
    rw [← List.singleton_append, ← List.append_assoc init]
    exact List.mem_append_right _ (List.mem_append_left _ hfirst)
  have hread : text src.slot c = .some (c.text src.slot, c) :=
    atSlot_of_mem hlaid hmem _
  have hanswer := (hlaid.copyAfter_of_stretch hentry n).answer
  have hleft := hlaid.copyAfter_eq_relay hentry n
  rw [hcycle] at hanswer hleft
  have hrun : copyAfter x.slot src.slot n c
      = (text src.slot c).bind fun read =>
        atSlot x.slot (·.copyAfter x.slot src.slot n) read.2 := rfl
  rw [hrun, hread, Part.bind_some, atSlot_of_mem hlaid (by simp),
    ← hleft, ← hanswer]

/-! ## Loops -/

section Loop

variable {σ : Type} {turn : σ → Links (α ⊕ σ)} {place next : σ}

/-- A turn that ends the loop. -/
theorem Makes.loop_ends (h : Makes (turn place) r (.inl a) s) :
    Makes (loop turn place) r a s := by
  rw [loop_eq]
  exact h.bind (makes_pure a s)

/-- A turn after which the loop goes on. -/
theorem Makes.loop_goes (h : Makes (turn place) r (.inr next) s)
    (k : Makes (loop turn next) s a t) : Makes (loop turn place) r a t := by
  rw [loop_eq]
  exact h.bind k

end Loop

section Along

variable {σ : Type} {turn : σ → Links (Nat × Option σ)} {place : σ}
variable {next : Option σ} {n k : Nat}

theorem makes_along_none (r : Row) : Makes (along turn none) r 0 r := by
  rw [along_none]
  exact makes_pure 0 r

/-- **A turn, and then the others**, on the row that the turn leaves. -/
theorem Makes.along_some (h : Makes (turn place) r (n, next) s)
    (k' : Makes (along turn next) s k t) :
    Makes (along turn (some place)) r (n + k) t := by
  rw [Links.along_some]
  exact h.bind (k'.bind (makes_pure _ t))

/-- **What a turn leaves behind**, put in front of what the others make of
the rest. -/
theorem Makes.goes_on {passed done ahead : List Cell} {q : SlotPool}
    {e : Edit}
    (h : Makes (turn place) r (n, next) ⟨passed ++ (done ++ ahead), q⟩)
    (hnext : Makes (along turn next) ⟨passed ++ done ++ ahead, q⟩ e.count
      (e.prepend (passed ++ done)).row) :
    Makes (along turn (some place)) r ((e.prepend done).plus n).count
      (((e.prepend done).plus n).prepend passed).row := by
  rw [List.append_assoc] at hnext
  rw [Edit.prepend_plus, Edit.prepend_prepend]
  exact h.along_some hnext

/-- The same of a turn that has changed nothing. -/
theorem Makes.passes {passed done ahead : List Cell} {q : SlotPool}
    {e : Edit}
    (h : Makes (turn place) r (0, next) ⟨passed ++ (done ++ ahead), q⟩)
    (hnext : Makes (along turn next) ⟨passed ++ done ++ ahead, q⟩ e.count
      (e.prepend (passed ++ done)).row) :
    Makes (along turn (some place)) r (e.prepend done).count
      ((e.prepend done).prepend passed).row := by
  have hgoes := h.goes_on hnext
  rwa [Edit.plus_zero] at hgoes

end Along

/-- **A program that does the work of a pass** from a place on, with whatever
has been passed before it. Nothing before the place is read or changed;
`passed` may be empty, and then the place is the head. -/
def Does (program : Option TokenId → Links Nat) (pass : Pass) : Prop :=
  ∀ passed ahead p,
    Makes (program (entry ahead none)) ⟨passed ++ ahead, p⟩
      (pass ahead p).count ((pass ahead p).prepend passed).row

/-- **A turn of the work of a pass.** At a cell it leaves behind some cells
with which all that the pass will make begins, and goes on at the others,
which the pass makes the rest of. What is ahead need not be a part of what was
ahead before: a turn may have edited it, and put cells into it. -/
structure Steps (turn : TokenId → Links (Nat × Option TokenId))
    (pass : Pass) : Prop where
  nil : ∀ p, pass [] p = .unchanged [] p
  cons : ∀ passed c rest p, ∃ n done ahead q, done ≠ []
    ∧ Makes (turn c.slot) ⟨passed ++ c :: rest, p⟩ (n, entry ahead none)
      ⟨passed ++ (done ++ ahead), q⟩
    ∧ pass (c :: rest) p = ((pass ahead q).prepend done).plus n

/-- **A loop does the work of a pass** if each of its turns does. What is
ahead may become more from turn to turn, but not what the pass makes of it,
and of that each turn leaves some behind. So the loop ends, which nothing in
its form says. -/
theorem Steps.does {turn : TokenId → Links (Nat × Option TokenId)}
    {pass : Pass} (h : Steps turn pass) : Does (along turn) pass := by
  intro passed ahead p
  induction hlength : (pass ahead p).cells.length using Nat.strongRecOn
    generalizing passed ahead p with
  | ind k ih =>
    cases ahead with
    | nil =>
      rw [h.nil]
      exact makes_along_none _
    | cons c rest =>
      obtain ⟨n, done, ahead, q, hdone, hmakes, hsame⟩ := h.cons passed c rest p
      have hless : (pass ahead q).cells.length < k := by
        have hpos := List.length_pos_of_ne_nil hdone
        rw [hsame, Edit.cells_plus, Edit.cells_prepend,
          List.length_append] at hlength
        omega
      rw [hsame]
      exact hmakes.goes_on (ih _ hless (passed ++ done) ahead q rfl)

end Links

end FlatC
