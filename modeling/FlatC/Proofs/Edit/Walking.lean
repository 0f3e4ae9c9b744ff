import Mathlib.Logic.Function.Iterate
import FlatC.Proofs.Chain.Runs
import FlatC.Proofs.Edit.Splitting

/-!
# Splitting by going over the tokens

A declaration is split where it stands: tokens are put in ahead of the place
that has been reached, and what is put in is gone over like everything else,
the `;` included behind which a statement can begin. That this comes to an
end is not plain from going on token by token, since what is ahead may grow.

So here splitting is told as a **walk** (`Walk`), which goes on by one token
at each step and splits what begins there. What becomes of the rest, with
what has been passed put in front, is the same after each step
(`Walk.outcome_step`), and since a step passes one token, the walk ends after
as many steps as the outcome has tokens.

Its cost is told step by step as well. A step puts in four tokens at most.
Whenever it splits, there is one separator less, `,` or `=`, in what the pass
goes on with (`cost_of_next?`): the `=` that is copied stands before that, in
what is written, where nothing is split.
-/

namespace FlatC

/-- **What passes one cell at each step**, as long as there are more of them
in what it comes to, has passed as many as it has made steps. The walks over
cells come to their end by this. -/
theorem passed_iterate {σ : Type} {step : σ → σ} (passed total : σ → Nat)
    (htotal : ∀ s, total (step s) = total s)
    (hpassed : ∀ s, passed s < total s → passed (step s) = passed s + 1)
    {s : σ} {k : Nat} (h : passed s + k ≤ total s) :
    passed (step^[k] s) = passed s + k := by
  have hsame : ∀ k, total (step^[k] s) = total s := fun k => by
    induction k with
    | zero => rfl
    | succ k ih => rw [Function.iterate_succ_apply', htotal, ih]
  induction k with
  | zero => rfl
  | succ k ih =>
    have hk := ih (by omega)
    have hlt : passed (step^[k] s) < total (step^[k] s) := by
      rw [hk, hsame]
      omega
    rw [Function.iterate_succ_apply', hpassed _ hlt, hk]
    rfl

namespace Declaration

variable {xs ys rest : List Cell} {c : Cell} {before : String}
variable {pool : SlotPool} {s : Split}

/-! ## What is written is left alone -/

/-- **Nothing is split in what is written** for a declaration: no statement
begins in it but at its last `;`, and what stands there is a name with a `=`. -/
theorem splitDeclarations_written (h : next? before xs pool = some s)
    (ys : List Cell) (q : SlotPool) :
    splitDeclarations (s.written ++ ys) q
      = (splitDeclarations ys q).prepend s.written := by
  obtain ⟨-, -, lead, type, after, name, sep, hparts, hs⟩ := exists_parts h
  have hlead : ∀ x ∈ lead,
      Token.startsWithAny ['{', '}', ';'] x.text = false :=
    fun x hx => (hparts.plain x hx).startsWithAny (by decide)
  rcases hs with ⟨-, rfl⟩ | ⟨hsep, hs⟩
  · exact splitDeclarations_append hlead ys q
  · obtain ⟨n, e, hwritten, hn, he⟩ := written_of_atEquals? hs
    have hname : Plain n.text := hn ▸ hparts.plain name hparts.name_mem
    have hequals : e.text = "=" := he.trans hsep
    have hcopies : ∀ x ∈ [n, e],
        Token.startsWithAny ['{', '}', ';'] x.text = false := by
      refine List.forall_mem_cons.mpr ⟨hname.startsWithAny (by decide),
        List.forall_mem_singleton.mpr ?_⟩
      rw [hequals]
      decide +kernel
    have hsemi : splitDeclarations (sep.withText ";" :: ([n, e] ++ ys)) q
        = (splitDeclarations ys q).prepend [sep.withText ";", n, e] := by
      have hnone : Settled (sep.withText ";").text ([n, e] ++ ys) :=
        settled_of_equals hname hequals (sep.withText ";").text ys
      rw [splitDeclarations_of_next?_eq_none (hnone q),
        splitDeclarations_append hcopies, Edit.cons_prepend]
    rw [hwritten, List.append_assoc, splitDeclarations_append hlead]
    exact (congrArg (Edit.prepend lead) hsemi).trans
      (Edit.prepend_prepend _ _ _)

/-! ## What a split costs -/

/-- How many separators there are in some cells. A split needs one, and does
away with it. -/
def separators (cells : List Cell) : Nat :=
  Cell.occurrences "," cells + Cell.occurrences "=" cells

theorem separators_append (xs ys : List Cell) :
    separators (xs ++ ys) = separators xs + separators ys := by
  rw [separators, separators, separators, Cell.occurrences, Cell.occurrences,
    Cell.occurrences, Cell.occurrences, Cell.occurrences, Cell.occurrences,
    List.countP_append, List.countP_append]
  omega

theorem separators_cons (h : c.text = "," ∨ c.text = "=") (xs : List Cell) :
    separators (c :: xs) = separators xs + 1 := by
  rcases h with h | h
  · simp [separators, Cell.occurrences, h]
    omega
  · simp [separators, Cell.occurrences, h]
    omega

/-- A separator that becomes a `;` is none any more. -/
theorem separators_withText (xs : List Cell) :
    separators (c.withText ";" :: xs) = separators xs := rfl

/-- Names are no separators. -/
theorem separators_eq_zero (h : ∀ x ∈ xs, Token.isName x.text = true) :
    separators xs = 0 := by
  have hnone : ∀ {text : String}, Token.isName text = false →
      Cell.occurrences text xs = 0 := fun htext =>
    List.countP_eq_zero.mpr fun x hx heq =>
      Token.ne_of_isName (h x hx) htext (eq_of_beq heq)
  rw [separators, hnone (by decide +kernel), hnone (by decide +kernel)]

theorem type_le_two {shape : Shape} (h : shape ∈ shapes) : shape.type ≤ 2 := by
  revert shape
  decide +kernel

/-- **What a split costs**: a separator that is gone and four cells at most.
The `=` that is copied stands in what is written, and is not counted again. -/
theorem cost_of_next? (h : next? before xs pool = some s) :
    separators s.left + 1 ≤ separators xs
      ∧ (s.written ++ s.left).length ≤ xs.length + 4 := by
  obtain ⟨-, shape, lead, sep, after, name, hshape, rfl, hlen, -, hs⟩ :=
    cells_of_next? h
  obtain ⟨-, hsep, htype⟩ := lead_of_shapeOf? hshape hlen
  have hle := type_le_two (mem_shapes_of_shapeOf? hshape).1
  have htypelen : (lead.take shape.type).length ≤ 2 :=
    Nat.le_trans (List.length_take_le _ _) hle
  have hcopies : ∀ q : SlotPool,
      separators (q.copy ((lead.take shape.type).map Cell.token)).1 = 0 :=
    fun q => separators_eq_zero
      (forall_mem_copy (Q := fun text => Token.isName text = true) htype q)
  rw [separators_append, separators_cons hsep]
  rcases hs with ⟨-, rfl⟩ | ⟨-, hs⟩
  · rw [atComma, separators_withText, separators_append, hcopies]
    simp only [List.length_append, List.length_cons, SlotPool.length_copy,
      List.length_map]
    omega
  · obtain ⟨init, stop, more, hcut, hsplit⟩ := cells_of_atEquals? hs
    rw [eq_append_of_cutInitializer? hcut]
    rcases hsplit with ⟨hstop, rfl⟩ | ⟨-, rfl⟩
    · dsimp only
      rw [separators_append, separators_append, separators_withText,
        separators_append, hcopies, separators_cons (.inl hstop)]
      simp only [List.length_append, List.length_cons, SlotPool.length_copy,
        List.length_map, List.length_nil]
      omega
    · dsimp only
      simp only [List.length_append, List.length_cons, SlotPool.length_copy,
        List.length_nil]
      omega

/-! ## Walks -/

/-- **A walk over some cells**: those that have been passed, those ahead, the
slots at hand and how often it has split. -/
structure Walk where
  passed : List Cell
  ahead : List Cell
  pool : SlotPool
  splits : Nat

namespace Walk

/-- A walk that has not begun. -/
def start (cells : List Cell) (pool : SlotPool) : Walk := ⟨[], cells, pool, 0⟩

/-- **The next step**: a cell is passed, and if a declaration comes behind
it, that is split where it stands. -/
def step (w : Walk) : Walk :=
  match w.ahead with
  | [] => w
  | c :: rest =>
    match next? c.text rest w.pool with
    | some s =>
      ⟨w.passed ++ [c], s.written ++ s.left, s.pool, w.splits + 1⟩
    | none => ⟨w.passed ++ [c], rest, w.pool, w.splits⟩

/-- All cells, as they stand. -/
def cells (w : Walk) : List Cell := w.passed ++ w.ahead

/-- **What a walk comes to** if what is ahead is split. At the beginning this
is what the pass makes. -/
def outcome (w : Walk) : Edit :=
  ((splitDeclarations w.ahead w.pool).prepend w.passed).plus w.splits

variable {w : Walk}

/-- **What a step does**: nothing at the end, a cell passed, or a declaration
split. -/
theorem step_cases (w : Walk) :
    w.ahead = [] ∧ w.step = w
      ∨ (∃ c rest, w.ahead = c :: rest ∧ next? c.text rest w.pool = none
        ∧ w.step = ⟨w.passed ++ [c], rest, w.pool, w.splits⟩)
      ∨ ∃ c rest s, w.ahead = c :: rest ∧ next? c.text rest w.pool = some s
        ∧ w.step = ⟨w.passed ++ [c], s.written ++ s.left, s.pool,
          w.splits + 1⟩ := by
  unfold step
  split
  · next hahead => exact Or.inl ⟨hahead, rfl⟩
  · next c rest hahead =>
    split
    · next s hnext => exact Or.inr (Or.inr ⟨c, rest, s, hahead, hnext, rfl⟩)
    · next hnext => exact Or.inr (Or.inl ⟨c, rest, hahead, hnext, rfl⟩)

/-- **A step changes nothing of the outcome**, though it may put in cells that
later steps look at. -/
theorem outcome_step (w : Walk) : w.step.outcome = w.outcome := by
  rcases w.step_cases with
    ⟨-, hstep⟩ | ⟨c, rest, hahead, hnext, hstep⟩
      | ⟨c, rest, s, hahead, hnext, hstep⟩
  · rw [hstep]
  · rw [hstep, outcome, outcome, hahead,
      splitDeclarations_of_next?_eq_none hnext, ← Edit.prepend_prepend]
    rfl
  · rw [hstep, outcome, outcome, hahead, splitDeclarations_of_next? hnext,
      splitDeclarations_written hnext, Edit.prepend_prepend,
      Edit.prepend_plus, Edit.plus_plus, Edit.prepend_prepend]
    simp

/-- **A step puts in four cells at most**, and none without splitting. -/
theorem length_cells_step (w : Walk) :
    w.step.cells.length + 4 * w.splits
      ≤ w.cells.length + 4 * w.step.splits := by
  rcases w.step_cases with
    ⟨-, hstep⟩ | ⟨c, rest, hahead, -, hstep⟩
      | ⟨c, rest, s, hahead, hnext, hstep⟩
  · exact Nat.le_of_eq (by rw [hstep])
  · refine Nat.le_of_eq ?_
    rw [hstep, cells, cells, hahead, List.append_assoc]
    rfl
  · have hcost := (cost_of_next? hnext).2
    rw [hstep, cells, cells, hahead]
    simp only [List.length_append, List.length_cons, List.length_nil]
      at hcost ⊢
    omega

/-! ## How a walk ends -/

theorem outcome_iterate (k : Nat) (w : Walk) :
    (step^[k] w).outcome = w.outcome := by
  induction k with
  | zero => rfl
  | succ k ih => rw [Function.iterate_succ_apply', outcome_step, ih]

theorem length_cells_iterate (k : Nat) (w : Walk) :
    (step^[k] w).cells.length + 4 * w.splits
      ≤ w.cells.length + 4 * (step^[k] w).splits := by
  induction k with
  | zero => exact Nat.le_refl _
  | succ k ih =>
    rw [Function.iterate_succ_apply']
    have := (step^[k] w).length_cells_step
    omega

/-- A walk has ended when it has passed as much as it comes to. -/
theorem ahead_eq_nil_iff (w : Walk) :
    w.ahead = [] ↔ w.passed.length = w.outcome.cells.length := by
  rw [outcome, Edit.cells_plus, Edit.cells_prepend, List.length_append]
  cases hahead : w.ahead with
  | nil => exact iff_of_true rfl (by rw [splitDeclarations]; rfl)
  | cons c rest =>
    obtain ⟨tail, htail⟩ := cells_splitDeclarations_cons c rest w.pool
    rw [htail, List.length_cons]
    exact iff_of_false (List.cons_ne_nil _ _) (by omega)

/-- **A step passes one cell** as long as there is one ahead. -/
theorem length_passed_step (h : w.ahead ≠ []) :
    w.step.passed.length = w.passed.length + 1 := by
  rcases w.step_cases with
    ⟨hnil, -⟩ | ⟨c, rest, -, -, hstep⟩ | ⟨c, rest, s, -, -, hstep⟩
  · exact absurd hnil h
  · rw [hstep, List.length_append, List.length_singleton]
  · rw [hstep, List.length_append, List.length_singleton]

theorem length_passed_iterate {k : Nat}
    (h : w.passed.length + k ≤ w.outcome.cells.length) :
    (step^[k] w).passed.length = w.passed.length + k := by
  refine passed_iterate (fun w : Walk => w.passed.length)
    (fun w => w.outcome.cells.length) (fun w => by rw [outcome_step])
    (fun w hlt => ?_) h
  exact length_passed_step fun hnil =>
    Nat.ne_of_lt hlt ((ahead_eq_nil_iff w).mp hnil)

/-- **A walk ends with the outcome**, after one step for each of its cells and
no sooner. -/
theorem iterate_start (cells : List Cell) (pool : SlotPool) :
    let r := splitDeclarations cells pool
    step^[r.cells.length] (start cells pool) = ⟨r.cells, [], r.pool, r.count⟩
      ∧ ∀ k < r.cells.length, (step^[k] (start cells pool)).ahead ≠ [] := by
  intro r
  have houtcome : (start cells pool).outcome = r := Edit.plus_zero _
  have hpassed : ∀ k ≤ r.cells.length,
      (step^[k] (start cells pool)).passed.length = k := by
    intro k hk
    have := length_passed_iterate (w := start cells pool) (k := k) (by
      rw [houtcome]
      exact (Nat.zero_add k).symm ▸ hk)
    exact this.trans (Nat.zero_add k)
  constructor
  · have hend := hpassed _ (Nat.le_refl _)
    have hsame := outcome_iterate r.cells.length (start cells pool)
    rw [houtcome] at hsame
    generalize step^[r.cells.length] (start cells pool) = w at hend hsame ⊢
    have hahead : w.ahead = [] :=
      (ahead_eq_nil_iff w).mpr (by rw [hend, hsame])
    rw [outcome, hahead, splitDeclarations] at hsame
    obtain ⟨passed, ahead, pool, splits⟩ := w
    obtain rfl : ahead = [] := hahead
    rw [← hsame]
    simp
  · intro k hk hnil
    have hend := (ahead_eq_nil_iff _).mp hnil
    rw [outcome_iterate, houtcome, hpassed k (Nat.le_of_lt hk)] at hend
    omega

/-- **No separator is split twice**, not even those that are copied. -/
theorem count_splitDeclarations_le (cells : List Cell) (pool : SlotPool) :
    (splitDeclarations cells pool).count ≤ separators cells := by
  fun_induction splitDeclarations cells pool with
  | case1 pool => exact Nat.zero_le _
  | case2 pool c rest s hnext ih =>
    have hcost := (cost_of_next? hnext).1
    have hcons := separators_append [c] rest
    rw [List.singleton_append] at hcons
    rw [Edit.count_plus, Edit.count_prepend]
    omega
  | case3 pool c rest hnext ih =>
    have hcons := separators_append [c] rest
    rw [List.singleton_append] at hcons
    rw [Edit.count_cons]
    omega

/-- At no time has a walk split more often than it will have at its end. -/
theorem splits_iterate_le (k : Nat) (cells : List Cell) (pool : SlotPool) :
    (step^[k] (start cells pool)).splits
      ≤ (splitDeclarations cells pool).count := by
  have houtcome : (step^[k] (start cells pool)).outcome
      = splitDeclarations cells pool :=
    (outcome_iterate k _).trans (Edit.plus_zero _)
  rw [← houtcome, outcome, Edit.count_plus]
  exact Nat.le_add_right _ _

end Walk

end Declaration

namespace TokenChain

open Declaration (Walk separators)

variable {c : TokenChain}

/-- **A chain walked over** and left as another, with a count of splits. It is
told that the walk ends, and what it may cost at most. -/
structure Walked (c : TokenChain) (count : Nat) (c' : TokenChain) : Prop where
  /-- The walk ends, and with this chain and count, -/
  ends : ∃ pool, Walk.step^[c'.cells.length] (.start c.cells c.pool)
    = ⟨c'.cells, [], pool, count⟩
  /-- after a step for each token that is then there. -/
  goes_on : ∀ k < c'.cells.length,
    (Walk.step^[k] (.start c.cells c.pool)).ahead ≠ []
  /-- At no time are there more splits than there were separators, -/
  splits_le : ∀ k, (Walk.step^[k] (.start c.cells c.pool)).splits
    ≤ Cell.occurrences "," c.cells + Cell.occurrences "=" c.cells
  /-- nor more than four new tokens for each split. -/
  length_le : ∀ k, (Walk.step^[k] (.start c.cells c.pool)).cells.length
    ≤ c.cells.length
      + 4 * (Walk.step^[k] (.start c.cells c.pool)).splits
  /-- The same is so at the end. -/
  count_le : count
    ≤ Cell.occurrences "," c.cells + Cell.occurrences "=" c.cells
  cells_le : c'.cells.length ≤ c.cells.length + 4 * count
  len_le : c'.len ≤ c.len + 4 * count

/-- **Splitting a chain comes to an end**, after no more splits than there are
separators and with no more than four new tokens for each, whatever the tokens
are. -/
theorem Laid.walked (h : c.Laid c.cells) :
    c.Walked (c.edit splitDeclarations).1 (c.edit splitDeclarations).2 := by
  have hcells := (h.edit sound_splitDeclarations).cells_eq
  obtain ⟨hends, hgoes⟩ := Walk.iterate_start c.cells c.pool
  have hlength : ∀ k, (Walk.step^[k] (.start c.cells c.pool)).cells.length
      ≤ c.cells.length
        + 4 * (Walk.step^[k] (.start c.cells c.pool)).splits :=
    fun k => Walk.length_cells_iterate k (.start c.cells c.pool)
  have hcount := Walk.count_splitDeclarations_le c.cells c.pool
  have hle : (splitDeclarations c.cells c.pool).cells.length
      ≤ c.cells.length + 4 * (splitDeclarations c.cells c.pool).count := by
    have := hlength (splitDeclarations c.cells c.pool).cells.length
    rwa [hends, Walk.cells, List.append_nil] at this
  refine ⟨?_, ?_, fun k => ?_, hlength, hcount, ?_, ?_⟩
  · rw [hcells]
    exact ⟨_, hends⟩
  · rw [hcells]
    exact hgoes
  · exact Nat.le_trans (Walk.splits_iterate_le k c.cells c.pool) hcount
  · rw [hcells]
    exact hle
  · have hids : c.ids.length = c.cells.length := by
      rw [h.ids_eq, List.length_map]
    have hlen := h.length_le_len
    show c.len - c.ids.length + (splitDeclarations c.cells c.pool).cells.length
      ≤ c.len + 4 * (splitDeclarations c.cells c.pool).count
    omega

/-- Brackets that do not match, separators that belong to nothing and a
declaration that is not complete; the first split puts in four tokens. -/
theorem walked_of_texts :
    let texts := [";", "struct", "S", "*", "a", "=", "1", ",", "b", "=", "(",
      ";", "int", "c", "=", ")", "(", ",", "d", ",", "=", "\x7b", "x", "*",
      "y", ",", "\x7b", "e", "f", "="]
    let c := (ChainOp.run TokenChain.act .empty
      (texts.map fun s => .pushBack ⟨s, 1, .first⟩)).2
    c.tokens.map Token.text = texts
      ∧ (c.edit splitDeclarations).1 = 4
      ∧ (c.edit splitDeclarations).2.tokens.map Token.text
        = [";", "struct", "S", "*", "a", ";", "a", "=", "1", ";", "struct",
          "S", "b", "=", "(", ";", "int", "c", ";", "c", "=", ")", "(", ";",
          "int", "d", ";", "int", "=", "\x7b", "x", "*", "y", ";", "x",
          "\x7b", "e", "f", "="]
      ∧ c.Walked (c.edit splitDeclarations).1 (c.edit splitDeclarations).2 := by
  intro texts c
  refine ⟨by decide +kernel, by decide +kernel, by decide +kernel, ?_⟩
  exact (laid_empty.run _).walked

end TokenChain

end FlatC
