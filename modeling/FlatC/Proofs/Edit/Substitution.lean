import FlatC.Proofs.Chain.Runs
import FlatC.Proofs.Edit.Expanded
import FlatC.Proofs.Edit.Walking

/-!
# Expanding typedef names by going over the tokens

Typedefs are looked for at one token after the other, and each is carried out
on all that comes behind it before the next token is looked at. A typedef of
the long form puts tokens in there, and it may make a typedef of what was
none, or add a word to one; even the word `typedef` may be a name that is
written out. So what is ahead may grow at any time, and that there is an end
is not plain from it.

Expanding is told here as such a **walk** (`Walk`), and four things are the
same or bounded at each step. The tokens `;` are the same ones, since neither
a name nor a word of what it stands for is a `;`. No `;` ends more than two
typedefs, of either form one: they begin at two different places in front of
it, which a walk has passed before the next `;` is the first one ahead
(`Walk.Sparing`). All that is put in was put in for a typedef of the long
form. And what the walk comes to stays what it was (`Walk.outcome_step`), so
the walk ends when it has passed that.
-/

namespace FlatC

namespace Typedef

variable {c stop : Cell} {own more after rest xs cells : List Cell}
variable {pool : SlotPool}

/-! ## The first `;` -/

/-- What ends a statement, in order. Cells and not texts, so it is told which
`;` is which. -/
def stops (cells : List Cell) : List Cell :=
  cells.filter fun c => c.text == ";"

theorem stops_append (xs ys : List Cell) :
    stops (xs ++ ys) = stops xs ++ stops ys :=
  List.filter_append ..

theorem stops_cons_of_ne (h : c.text ≠ ";") (xs : List Cell) :
    stops (c :: xs) = stops xs :=
  List.filter_cons_of_neg (by simpa using h)

theorem stops_cons (h : c.text = ";") (xs : List Cell) :
    stops (c :: xs) = c :: stops xs :=
  List.filter_cons_of_pos (by simpa using h)

/-- A statement ends with the first `;`. -/
theorem cut?_append_stop (hxs : ∀ x ∈ xs, x.text ≠ ";")
    (hstop : stop.text = ";") (ys : List Cell) :
    cut? (xs ++ stop :: ys) = some (xs ++ [stop], ys) := by
  rw [cut?_append hxs, cut?, if_pos (by simpa using hstop)]
  rfl

/-- The first statement of some cells ends with their first `;`. -/
theorem exists_of_cut? (h : cut? cells = some (own, after)) :
    ∃ xs stop, own = xs ++ [stop] ∧ stop.text = ";"
      ∧ ∀ x ∈ xs, x.text ≠ ";" := by
  induction cells generalizing own with
  | nil => cases h
  | cons c cells ih =>
    rw [cut?] at h
    split at h
    · next hc =>
      cases h
      exact ⟨[], c, rfl, by simpa using hc, by simp⟩
    · next hc =>
      obtain ⟨⟨own', after'⟩, hcut, heq⟩ := Option.map_eq_some_iff.mp h
      cases heq
      obtain ⟨xs, stop, rfl, hstop, hxs⟩ := ih hcut
      exact ⟨c :: xs, stop, rfl, hstop,
        List.forall_mem_cons.mpr ⟨by simpa using hc, hxs⟩⟩

/-! ## Where a typedef is recognized -/

/-- **Some names and a `;`**, behind the word `typedef`. Both forms are this,
with two names or three. -/
def Names (n : Nat) (c : Cell) (rest : List Cell) : Prop :=
  ∃ xs stop after, rest = xs ++ stop :: after ∧ xs.length = n
    ∧ c.text = "typedef" ∧ (∀ x ∈ xs, x.text ≠ ";") ∧ stop.text = ";"

/-- A typedef of the short form has two names. -/
theorem names_of_short (h : short.opens (c :: rest) = true) :
    Names 2 c rest := by
  have hle := Pattern.length_le_of_fits h
  rw [pieces_short] at hle
  rcases rest with _ | ⟨actual, _ | ⟨name, _ | ⟨stop, after⟩⟩⟩
  · simp at hle
  · simp at hle
  · simp at hle
  obtain ⟨hc, hactual, hname, hstop⟩ := opens_short_iff.mp h
  refine ⟨[actual, name], stop, after, rfl, rfl, hc, ?_, hstop⟩
  simp [ne_semicolon_of_isTypeName hactual, ne_semicolon_of_isTypeName hname]

/-- A typedef of the long form has three. -/
theorem names_of_long (h : long.opens (c :: rest) = true) :
    Names 3 c rest := by
  have hle := Pattern.length_le_of_fits h
  rw [pieces_long] at hle
  rcases rest with _ | ⟨first, _ | ⟨second, _ | ⟨name, _ | ⟨stop, after⟩⟩⟩⟩
  · simp at hle
  · simp at hle
  · simp at hle
  · simp at hle
  obtain ⟨hc, hfirst, hsecond, hname, hstop⟩ := opens_long_iff.mp h
  refine ⟨[first, second, name], stop, after, rfl, rfl, hc, ?_, hstop⟩
  simp [ne_semicolon_of_isTypeName hfirst,
    ne_semicolon_of_isTypeName hsecond, ne_semicolon_of_isTypeName hname]

/-- Where none is recognized nothing is carried out, whatever the statement
is. -/
theorem apply_of_not_opens
    (hshort : short.opens (c :: (more ++ after)) = false)
    (hlong : long.opens (c :: (more ++ after)) = false) :
    apply c more after pool = (c, .unchanged after pool) := by
  rcases apply_cases c more after pool with
    ⟨actual, name, last, rfl, hopens, -⟩
    | ⟨first, second, name, last, rfl, hopens, -⟩ | hnothing
  · have hmore : short.opens (c :: ([actual, name, last] ++ after)) = true :=
      opens_short_iff.mpr (opens_short_iff.mp hopens)
    rw [hmore] at hshort
    cases hshort
  · have hmore :
        long.opens (c :: ([first, second, name, last] ++ after)) = true :=
      opens_long_iff.mpr (opens_long_iff.mp hopens)
    rw [hmore] at hlong
    cases hlong
  · exact hnothing

/-! ## What carrying one out keeps -/

/-- Renaming keeps each `;` if neither text is one. -/
theorem stops_rename {old new : String} (hold : old ≠ ";") (hnew : new ≠ ";")
    (cells : List Cell) : stops (Cell.rename old new cells) = stops cells := by
  induction cells with
  | nil => rfl
  | cons c cells ih =>
    rw [Cell.rename, List.map_cons]
    change stops (_ :: Cell.rename old new cells) = _
    split
    · next hc =>
      have hne : c.text ≠ ";" := (show c.text = old by simpa using hc) ▸ hold
      rw [stops_cons_of_ne (c := c.withText new) hnew, stops_cons_of_ne hne,
        ih]
    · by_cases hc : c.text = ";"
      · rw [stops_cons hc, stops_cons hc, ih]
      · rw [stops_cons_of_ne hc, stops_cons_of_ne hc, ih]

/-- Writing a name out keeps each `;`, as neither the name nor the texts
written for it are one. -/
theorem stops_writeOut {name first second : String} (hname : name ≠ ";")
    (hfirst : first ≠ ";") (hsecond : second ≠ ";") (cells : List Cell)
    (pool : SlotPool) :
    stops (writeOut name first second cells pool).cells = stops cells := by
  induction cells generalizing pool with
  | nil => rfl
  | cons c cells ih =>
    rw [writeOut]
    split
    · next hc =>
      have hne : c.text ≠ ";" := (show c.text = name by simpa using hc) ▸ hname
      let added : Cell := ⟨pool.take.1, c.token.withText second⟩
      have hadded : added.text ≠ ";" := hsecond
      dsimp only
      rw [Edit.cells_plus, Edit.cells_prepend, List.cons_append,
        List.singleton_append, stops_cons_of_ne (c := c.withText first) hfirst,
        stops_cons_of_ne hadded, stops_cons_of_ne hne, ih]
    · rw [Edit.cells_cons]
      by_cases hc : c.text = ";"
      · rw [stops_cons hc, stops_cons hc, ih]
      · rw [stops_cons_of_ne hc, stops_cons_of_ne hc, ih]

/-- **Each `;` behind a typedef stays**, in its slot, and there are no others.
What is renamed or written out is a type name, before and after. -/
theorem stops_apply (c : Cell) (more after : List Cell) (pool : SlotPool) :
    stops (apply c more after pool).2.cells = stops after := by
  rcases apply_cases c more after pool with
    ⟨actual, name, last, rfl, hopens, h⟩
    | ⟨first, second, name, last, rfl, hopens, h⟩ | h
  · obtain ⟨-, hactual, hname, -⟩ := opens_short_iff.mp hopens
    rw [h]
    exact stops_rename (ne_semicolon_of_isTypeName hname)
      (ne_semicolon_of_isTypeName hactual) after
  · obtain ⟨-, hfirst, hsecond, hname, -⟩ := opens_long_iff.mp hopens
    rw [h]
    exact stops_writeOut (ne_semicolon_of_isTypeName hname)
      (ne_semicolon_of_isTypeName hfirst)
      (ne_semicolon_of_isTypeName hsecond) after pool
  · rw [h]
    rfl

/-- The word of a typedef becomes no `;`. -/
theorem text_fst_apply_ne (h : c.text ≠ ";") (more after : List Cell)
    (pool : SlotPool) : (apply c more after pool).1.text ≠ ";" := by
  rcases fst_apply c more after pool with hfst | ⟨_, -, -, hactual, hfst⟩
  · rw [hfst]
    exact h
  · rw [hfst, Cell.text_withText]
    exact ne_semicolon_of_isTypeName hactual

/-- A cell is put in for each name that is written out, as the first of the
two texts is written over the name. -/
theorem length_writeOut (name first second : String) (cells : List Cell)
    (pool : SlotPool) :
    (writeOut name first second cells pool).cells.length
      = cells.length + (writeOut name first second cells pool).count := by
  induction cells generalizing pool with
  | nil => rfl
  | cons c cells ih =>
    rw [writeOut]
    split
    · simp only [Edit.cells_plus, Edit.cells_prepend, Edit.count_plus,
        Edit.count_prepend, List.length_append, List.length_cons,
        List.length_nil, ih]
      omega
    · rw [Edit.cells_cons, Edit.count_cons, List.length_cons, ih,
        List.length_cons]
      omega

/-- **The long form puts in a cell for each name**, the short form none. -/
theorem length_apply (hmore : more.length = 3 ∨ more.length = 4)
    (c : Cell) (after : List Cell) (pool : SlotPool) :
    (apply c more after pool).2.cells.length = after.length
      + if more.length = 4 then (apply c more after pool).2.count else 0 := by
  rcases apply_cases c more after pool with
    ⟨actual, name, last, rfl, -, h⟩ | ⟨first, second, name, last, rfl, -, h⟩
      | h
  · rw [h]
    exact Cell.length_rename _ _ after
  · rw [h]
    exact length_writeOut _ _ _ after pool
  · rw [h]
    simp

/-! ## Expanding from one cell to the next -/

/-- **A cell of a statement looked at**, and what is carried out there. By
this the pass, which goes statement by statement, is followed cell by cell. -/
theorem expandTypedefs_of_statement
    (h : cut? (c :: (more ++ after)) = some (c :: more, after))
    (pool : SlotPool) :
    let r := apply c more after pool
    expandTypedefs (c :: (more ++ after)) pool
      = ((expandTypedefs (more ++ r.2.cells) r.2.pool).cons r.1).plus
          r.2.count := by
  intro r
  rw [expandTypedefs_of_cut? h]
  have hlook : lookThrough (c :: more) after pool
      = ⟨r.1 :: (lookThrough more r.2.cells r.2.pool).own,
        (lookThrough more r.2.cells r.2.pool).after.plus r.2.count⟩ := rfl
  rw [hlook]
  dsimp only
  obtain ⟨xs, stop, hcons, hstop, hxs⟩ := exists_of_cut? h
  rcases xs with _ | ⟨x, xs⟩
  · obtain ⟨-, rfl⟩ := List.cons.inj hcons
    rfl
  · rw [List.cons_append] at hcons
    obtain ⟨rfl, rfl⟩ := List.cons.inj hcons
    have hcut := cut?_append_stop (List.forall_mem_cons.mp hxs).2 hstop
      r.2.cells
    rw [← List.singleton_append, ← List.append_assoc] at hcut
    rw [expandTypedefs_of_cut? hcut, Edit.cells_plus, Edit.pool_plus,
      Edit.count_plus]
    simp [Edit.cons, Edit.plus, Edit.prepend, Nat.add_assoc]

/-- **A cell with which no typedef begins** is passed. The pass takes
statements one by one; the cells of one are passed one by one, as nothing in
it is carried out. -/
theorem expandTypedefs_cons (hshort : short.opens (c :: rest) = false)
    (hlong : long.opens (c :: rest) = false) (pool : SlotPool) :
    expandTypedefs (c :: rest) pool = (expandTypedefs rest pool).cons c := by
  cases hcut : cut? (c :: rest) with
  | none =>
    have hrest : cut? rest = none := cut?_eq_none_iff.mpr fun d hd =>
      cut?_eq_none_iff.mp hcut d (List.mem_cons_of_mem _ hd)
    rw [expandTypedefs_of_cut?_eq_none hcut,
      expandTypedefs_of_cut?_eq_none hrest]
    rfl
  | some cut =>
    obtain ⟨own, after⟩ := cut
    obtain ⟨xs, stop, rfl, hstop, hxs⟩ := exists_of_cut? hcut
    have hcells := eq_append_of_cut? hcut
    obtain ⟨more, hown⟩ : ∃ more, xs ++ [stop] = c :: more := by
      rcases xs with _ | ⟨x, xs⟩
      · obtain ⟨rfl, -⟩ := List.cons.inj hcells
        exact ⟨[], rfl⟩
      · obtain ⟨rfl, -⟩ := List.cons.inj hcells
        exact ⟨_, rfl⟩
    rw [hown] at hcut hcells
    rw [List.cons_append] at hcells
    obtain ⟨-, rfl⟩ := List.cons.inj hcells
    have hstatement := expandTypedefs_of_statement hcut pool
    rw [apply_of_not_opens hshort hlong] at hstatement
    rw [hstatement]
    exact Edit.plus_zero _

/-- The first cell stays. -/
theorem length_expandTypedefs_pos (c : Cell) (rest : List Cell)
    (pool : SlotPool) :
    0 < (expandTypedefs (c :: rest) pool).cells.length := by
  cases hcut : cut? (c :: rest) with
  | none =>
    rw [expandTypedefs_of_cut?_eq_none hcut]
    exact Nat.succ_pos _
  | some cut =>
    obtain ⟨own, after⟩ := cut
    obtain ⟨xs, stop, rfl, -⟩ := exists_of_cut? hcut
    rw [expandTypedefs_of_cut? hcut, Edit.cells_plus, Edit.cells_prepend,
      List.length_append, length_own_lookThrough, List.length_append,
      List.length_singleton]
    omega

end Typedef

/-! ## Walks -/

namespace Typedef

/-- **A typedef that was recognized**: the `;` it ends with, whether it is of
the long form, and how many names were written out for it. -/
structure Recognized where
  stop : Cell
  isLong : Bool
  rewrites : Nat

namespace Recognized

/-- How many names were written out for some typedefs. -/
def total (found : List Recognized) : Nat :=
  found.foldr (fun t n => t.rewrites + n) 0

theorem total_singleton (t : Recognized) : total [t] = t.rewrites :=
  Nat.add_zero _

/-- How many of them were for typedefs of the long form. -/
def added (found : List Recognized) : Nat := total (found.filter isLong)

theorem added_singleton (t : Recognized) :
    added [t] = if t.isLong then t.rewrites else 0 := by
  cases h : t.isLong <;> simp [added, total, h]

theorem total_append (xs ys : List Recognized) :
    total (xs ++ ys) = total xs + total ys := by
  induction xs with
  | nil => exact (Nat.zero_add _).symm
  | cons t xs ih => exact (congrArg _ ih).trans (Nat.add_assoc _ _ _).symm

theorem added_append (xs ys : List Recognized) :
    added (xs ++ ys) = added xs + added ys := by
  rw [added, added, added, List.filter_append, total_append]

end Recognized

/-- **A walk over some cells**: those that have been passed, those ahead, the
slots at hand and the typedefs that were recognized, in order. -/
structure Walk where
  passed : List Cell
  ahead : List Cell
  pool : SlotPool
  found : List Recognized

namespace Walk

/-- **A typedef carried out** with whose word and other tokens the cells
ahead begin, on what comes behind them. -/
def carryOut (w : Walk) (c : Cell) (own after : List Cell) : Walk :=
  let r := apply c own after w.pool
  ⟨w.passed ++ [r.1], own ++ r.2.cells, r.2.pool,
    w.found ++ [⟨(c :: own).getLast (List.cons_ne_nil c own),
      own.length == 4, r.2.count⟩]⟩

/-- **The next step**: a cell is passed, and if it begins a typedef, that is
carried out first. The short form is asked for first; the two never begin at
one cell. -/
def step (w : Walk) : Walk :=
  match w.ahead with
  | [] => w
  | c :: rest =>
    if short.opens (c :: rest) then w.carryOut c (rest.take 3) (rest.drop 3)
    else if long.opens (c :: rest) then
      w.carryOut c (rest.take 4) (rest.drop 4)
    else ⟨w.passed ++ [c], rest, w.pool, w.found⟩

/-- All cells, as they stand. -/
def cells (w : Walk) : List Cell := w.passed ++ w.ahead

/-- **What a walk comes to** if the typedefs ahead are expanded. At the
beginning this is what the pass makes. -/
def outcome (w : Walk) : Edit :=
  ((expandTypedefs w.ahead w.pool).prepend w.passed).plus
    (Recognized.total w.found)

variable {w : Walk}

theorem carryOut_append (w : Walk) (c stop : Cell) (xs after : List Cell) :
    w.carryOut c (xs ++ [stop]) after
      = ⟨w.passed ++ [(apply c (xs ++ [stop]) after w.pool).1],
        xs ++ stop :: (apply c (xs ++ [stop]) after w.pool).2.cells,
        (apply c (xs ++ [stop]) after w.pool).2.pool,
        w.found ++ [⟨stop, xs.length == 3,
          (apply c (xs ++ [stop]) after w.pool).2.count⟩]⟩ := by
  rw [carryOut]
  simp

/-- **What a step does**: nothing at the end, a cell passed, or a typedef
carried out. -/
theorem step_cases (w : Walk) :
    w.ahead = [] ∧ w.step = w
      ∨ (∃ c rest, w.ahead = c :: rest ∧ short.opens (c :: rest) = false
        ∧ long.opens (c :: rest) = false
        ∧ w.step = ⟨w.passed ++ [c], rest, w.pool, w.found⟩)
      ∨ ∃ c xs stop after, w.ahead = c :: (xs ++ stop :: after)
        ∧ (xs.length = 2 ∨ xs.length = 3) ∧ c.text = "typedef"
        ∧ (∀ x ∈ xs, x.text ≠ ";") ∧ stop.text = ";"
        ∧ w.step = ⟨w.passed ++ [(apply c (xs ++ [stop]) after w.pool).1],
          xs ++ stop :: (apply c (xs ++ [stop]) after w.pool).2.cells,
          (apply c (xs ++ [stop]) after w.pool).2.pool,
          w.found ++ [⟨stop, xs.length == 3,
            (apply c (xs ++ [stop]) after w.pool).2.count⟩]⟩ := by
  have htake : ∀ {n} {xs after : List Cell} {stop : Cell}, xs.length = n →
      (xs ++ stop :: after).take (n + 1) = xs ++ [stop]
        ∧ (xs ++ stop :: after).drop (n + 1) = after := by
    rintro n xs after stop rfl
    rw [List.append_cons xs stop after]
    exact ⟨List.take_left' (by simp), List.drop_left' (by simp)⟩
  unfold step
  split
  · next hahead => exact .inl ⟨hahead, rfl⟩
  · next c rest hahead =>
    split_ifs with hshort hlong
    · obtain ⟨xs, stop, after, rfl, hlength, hc, hxs, hstop⟩ :=
        names_of_short hshort
      rw [(htake hlength).1, (htake hlength).2, carryOut_append]
      exact .inr (.inr
        ⟨c, xs, stop, after, hahead, .inl hlength, hc, hxs, hstop, rfl⟩)
    · obtain ⟨xs, stop, after, rfl, hlength, hc, hxs, hstop⟩ :=
        names_of_long hlong
      rw [(htake hlength).1, (htake hlength).2, carryOut_append]
      exact .inr (.inr
        ⟨c, xs, stop, after, hahead, .inr hlength, hc, hxs, hstop, rfl⟩)
    · exact .inr (.inl ⟨c, rest, hahead, Bool.eq_false_iff.mpr hshort,
        Bool.eq_false_iff.mpr hlong, rfl⟩)

/-- **A step changes nothing of the outcome**, and so the walk has an end,
however much it puts in. -/
theorem outcome_step (w : Walk) : w.step.outcome = w.outcome := by
  rcases w.step_cases with
    ⟨-, hstep⟩ | ⟨c, rest, hahead, hshort, hlong, hstep⟩
      | ⟨c, xs, stop, after, hahead, -, hc, hxs, hstop, hstep⟩
  · rw [hstep]
  · rw [hstep, outcome, outcome, hahead, expandTypedefs_cons hshort hlong,
      ← Edit.prepend_prepend]
    rfl
  · have hne : ∀ x ∈ c :: xs, x.text ≠ ";" :=
      List.forall_mem_cons.mpr ⟨by rw [hc]; decide, hxs⟩
    have hcut : cut? (c :: ((xs ++ [stop]) ++ after))
        = some (c :: (xs ++ [stop]), after) := by
      simpa using cut?_append_stop hne hstop after
    have hexpand := expandTypedefs_of_statement hcut w.pool
    simp only [List.append_assoc, List.singleton_append] at hexpand
    rw [hstep, outcome, outcome, hahead, hexpand]
    simp only [Recognized.total_append, Recognized.total_singleton,
      Edit.prepend_plus, Edit.plus_plus, ← Edit.prepend_prepend]
    rfl

/-- **Each `;` stays at a step**, and there are no others. -/
theorem stops_step (w : Walk) : stops w.step.cells = stops w.cells := by
  rcases w.step_cases with
    ⟨-, hstep⟩ | ⟨c, rest, hahead, -, -, hstep⟩
      | ⟨c, xs, stop, after, hahead, -, hc, hxs, hstop, hstep⟩
  · rw [hstep]
  · rw [hstep, cells, cells, hahead, List.append_assoc]
    rfl
  · have hne : c.text ≠ ";" := by
      rw [hc]
      decide
    have hfst := text_fst_apply_ne hne (xs ++ [stop]) after w.pool
    rw [hstep, cells, cells, hahead]
    simp only [List.append_assoc, stops_append, List.singleton_append,
      stops_cons_of_ne hne, stops_cons_of_ne hfst, stops_cons hstop,
      stops_apply]

/-- **A step puts in a cell for each name** that is written out for a typedef
of the long form, and no others. -/
theorem length_cells_step (w : Walk) :
    w.step.cells.length + Recognized.added w.found
      = w.cells.length + Recognized.added w.step.found := by
  rcases w.step_cases with
    ⟨-, hstep⟩ | ⟨c, rest, hahead, -, -, hstep⟩
      | ⟨c, xs, stop, after, hahead, hlength, -, -, -, hstep⟩
  · rw [hstep]
  · rw [hstep, cells, cells, hahead, List.append_assoc]
    rfl
  · have hmore : (xs ++ [stop]).length = 3 ∨ (xs ++ [stop]).length = 4 := by
      rw [List.length_append, List.length_singleton]
      omega
    have happly := length_apply hmore c after w.pool
    rw [hstep, cells, cells, hahead]
    simp only [Recognized.added_append, Recognized.added_singleton,
      List.length_append, List.length_cons, List.length_nil, happly,
      beq_iff_eq]
    split_ifs
    · omega
    · omega
    · omega
    · omega

/-! ## Two typedefs for each `;` -/

/-- **No `;` ends more than two of the typedefs found.** Of those that have
been passed none does; and the first one ahead ends no more than two, with
those counted for which there is still a place in front of it. -/
def Sparing (w : Walk) : Prop :=
  ∃ old recent, w.found = old ++ recent
    ∧ (old.map Recognized.stop).Sublist
        ((stops w.passed).flatMap fun s => [s, s])
    ∧ (cut? w.ahead = none → recent = [])
    ∧ ∀ own after, cut? w.ahead = some (own, after) →
        recent.length + min 2 (own.length - 3) ≤ 2
          ∧ ∀ t ∈ recent, own.getLast? = some t.stop

/-- A `;` is passed: it ends no more typedefs. Those that it did end, two at
most, are now among the old ones. -/
theorem Sparing.pass_stop {passed rest : List Cell} {found : List Recognized}
    {p q : SlotPool} (h : Sparing ⟨passed, stop :: rest, p, found⟩)
    (hstop : stop.text = ";") :
    Sparing ⟨passed ++ [stop], rest, q, found⟩ := by
  obtain ⟨old, recent, rfl, hold, -, hrecent⟩ := h
  have hcut : cut? (stop :: rest) = some ([stop], rest) :=
    cut?_append_stop (List.forall_mem_nil _) hstop rest
  obtain ⟨hlength, hlast⟩ := hrecent _ _ hcut
  refine ⟨old ++ recent, [], (List.append_nil _).symm, ?_, fun _ => rfl, ?_⟩
  · have hstops : recent.map Recognized.stop
        = List.replicate recent.length stop := by
      refine List.eq_replicate_iff.mpr ⟨List.length_map _, fun s hs => ?_⟩
      obtain ⟨t, ht, rfl⟩ := List.mem_map.mp hs
      exact (Option.some.inj (hlast t ht)).symm
    rw [List.map_append, stops_append, List.flatMap_append, hstops]
    refine hold.append ?_
    rw [stops_cons hstop]
    exact (List.replicate_sublist_replicate stop).mpr
      (show recent.length ≤ 2 by omega)
  · intro own after _
    exact ⟨by rw [List.length_nil]; omega, by simp⟩

/-- What is no `;` is passed: there is one place less in the statement in
which a typedef could begin. -/
theorem Sparing.pass {passed rest : List Cell} {found : List Recognized}
    {p : SlotPool} (h : Sparing ⟨passed, c :: rest, p, found⟩)
    (hc : c.text ≠ ";") : Sparing ⟨passed ++ [c], rest, p, found⟩ := by
  obtain ⟨old, recent, rfl, hold, hnone, hrecent⟩ := h
  have hcut := cut?_append (List.forall_mem_singleton.mpr hc) rest
  rw [List.singleton_append] at hcut
  refine ⟨old, recent, rfl, ?_, fun hrest => hnone (by rw [hcut, hrest]; rfl),
    fun own after hown => ?_⟩
  · rw [stops_append, stops_cons_of_ne hc]
    exact (List.append_nil _).symm ▸ hold
  · rw [hown] at hcut
    obtain ⟨hlength, hlast⟩ := hrecent (c :: own) after hcut
    obtain ⟨xs, stop, rfl, -⟩ := exists_of_cut? hown
    rw [List.length_cons] at hlength
    refine ⟨by omega, fun t ht => ?_⟩
    rw [← hlast t ht, ← List.cons_append, List.getLast?_concat,
      List.getLast?_concat]

/-- No step makes a third typedef end with one `;`. A typedef takes up places
in front of the `;`, and a second one needs more than a third one would have
left. -/
theorem sparing_step (h : w.Sparing) : w.step.Sparing := by
  rcases w.step_cases with
    ⟨-, hstep⟩ | ⟨c, rest, hahead, -, -, hstep⟩
      | ⟨c, xs, stop, after, hahead, hlength, hc, hxs, hstop, hstep⟩
  · rwa [hstep]
  · obtain ⟨passed, ahead, pool, found⟩ := w
    obtain rfl : ahead = c :: rest := hahead
    rw [hstep]
    by_cases hc : c.text = ";"
    · exact h.pass_stop hc
    · exact h.pass hc
  · obtain ⟨old, recent, hfound, hold, -, hrecent⟩ := h
    have hne : c.text ≠ ";" := by
      rw [hc]
      decide
    have hcut := cut?_append_stop (List.forall_mem_cons.mpr ⟨hne, hxs⟩) hstop
      after
    rw [List.cons_append, ← hahead] at hcut
    obtain ⟨hroom, hlast⟩ := hrecent _ _ hcut
    rw [hstep, hfound, List.append_assoc]
    refine ⟨old, _, rfl, ?_, fun hnone => ?_, fun own after' hown => ?_⟩
    · have hfst := text_fst_apply_ne hne (xs ++ [stop]) after w.pool
      rw [stops_append, stops_cons_of_ne hfst]
      exact (List.append_nil _).symm ▸ hold
    · rw [cut?_append_stop hxs hstop] at hnone
      cases hnone
    · rw [cut?_append_stop hxs hstop] at hown
      obtain ⟨rfl, -⟩ := Prod.mk.inj (Option.some.inj hown)
      simp only [List.length_append, List.length_cons, List.length_nil]
        at hroom ⊢
      refine ⟨by omega, fun t ht => ?_⟩
      rw [List.getLast?_concat]
      rcases List.mem_append.mp ht with ht | ht
      · have := hlast t ht
        rwa [List.getLast?_concat] at this
      · rw [List.mem_singleton.mp ht]

theorem sparing_of_found (h : w.found = []) : w.Sparing :=
  ⟨[], [], h, List.nil_sublist _, fun _ => rfl, fun own after _ =>
    ⟨by rw [List.length_nil]; omega, by simp⟩⟩

/-- **In the end** each `;` has been passed, and has ended two typedefs at
most. -/
theorem Sparing.sublist (h : w.Sparing) (hahead : w.ahead = []) :
    (w.found.map Recognized.stop).Sublist
      ((stops w.passed).flatMap fun s => [s, s]) := by
  obtain ⟨old, recent, hfound, hold, hnone, -⟩ := h
  obtain rfl : recent = [] := hnone (by rw [hahead]; rfl)
  rw [hfound, List.append_nil]
  exact hold

/-! ## How a walk ends -/

theorem outcome_iterate (k : Nat) (w : Walk) :
    (step^[k] w).outcome = w.outcome := by
  induction k with
  | zero => rfl
  | succ k ih => rw [Function.iterate_succ_apply', outcome_step, ih]

theorem stops_iterate (k : Nat) (w : Walk) :
    stops (step^[k] w).cells = stops w.cells := by
  induction k with
  | zero => rfl
  | succ k ih => rw [Function.iterate_succ_apply', stops_step, ih]

theorem length_cells_iterate (k : Nat) (w : Walk) :
    (step^[k] w).cells.length + Recognized.added w.found
      = w.cells.length + Recognized.added (step^[k] w).found := by
  induction k with
  | zero => rfl
  | succ k ih =>
    rw [Function.iterate_succ_apply']
    have := (step^[k] w).length_cells_step
    omega

theorem sparing_iterate (k : Nat) (h : w.Sparing) :
    (step^[k] w).Sparing := by
  induction k with
  | zero => exact h
  | succ k ih =>
    rw [Function.iterate_succ_apply']
    exact sparing_step ih

/-- A walk has ended when it has passed as much as it comes to. -/
theorem ahead_eq_nil_iff (w : Walk) :
    w.ahead = [] ↔ w.passed.length = w.outcome.cells.length := by
  rw [outcome, Edit.cells_plus, Edit.cells_prepend, List.length_append]
  cases hahead : w.ahead with
  | nil =>
    rw [expandTypedefs_of_cut?_eq_none rfl]
    exact iff_of_true rfl rfl
  | cons c rest =>
    have hpos := length_expandTypedefs_pos c rest w.pool
    exact iff_of_false (List.cons_ne_nil _ _) (by omega)

theorem length_passed_step (h : w.ahead ≠ []) :
    w.step.passed.length = w.passed.length + 1 := by
  rcases w.step_cases with
    ⟨hnil, -⟩ | ⟨c, rest, -, -, -, hstep⟩
      | ⟨c, xs, stop, after, -, -, -, -, -, hstep⟩
  · exact absurd hnil h
  · rw [hstep, List.length_append, List.length_singleton]
  · rw [hstep, List.length_append, List.length_singleton]

/-- **A walk ends with the outcome**, after one step for each cell that it has
not passed before, and no sooner. That the outcome has so many cells is known
from the pass, whose recursion goes down by the statements. -/
theorem exists_iterate (w : Walk) :
    ∃ n found, w.passed.length + n = w.outcome.cells.length
      ∧ step^[n] w = ⟨w.outcome.cells, [], w.outcome.pool, found⟩
      ∧ Recognized.total found = w.outcome.count
      ∧ ∀ k < n, (step^[k] w).ahead ≠ [] := by
  have hpassed : ∀ {k}, w.passed.length + k ≤ w.outcome.cells.length →
      (step^[k] w).passed.length = w.passed.length + k := fun hk => by
    refine passed_iterate (fun w : Walk => w.passed.length)
      (fun w => w.outcome.cells.length) (fun w => by rw [outcome_step])
      (fun w hlt => ?_) hk
    exact length_passed_step fun hnil =>
      Nat.ne_of_lt hlt ((ahead_eq_nil_iff w).mp hnil)
  have hle : w.passed.length ≤ w.outcome.cells.length := by
    rw [outcome, Edit.cells_plus, Edit.cells_prepend, List.length_append]
    omega
  obtain ⟨n, hn⟩ := Nat.exists_eq_add_of_le hle
  have hend := hpassed (Nat.le_of_eq hn.symm)
  have hsame := outcome_iterate n w
  have hgoes : ∀ k < n, (step^[k] w).ahead ≠ [] := fun k hk hnil => by
    have hlength := (ahead_eq_nil_iff _).mp hnil
    rw [outcome_iterate, hpassed (by omega)] at hlength
    omega
  refine ⟨n, (step^[n] w).found, hn.symm, ?_, ?_, hgoes⟩ <;>
    generalize step^[n] w = v at hend hsame ⊢
  all_goals
    obtain ⟨passed, ahead, pool, found⟩ := v
    obtain rfl : ahead = [] :=
      (ahead_eq_nil_iff _).mpr (by rw [hsame, hn]; exact hend)
    rw [outcome, expandTypedefs_of_cut?_eq_none rfl] at hsame
    rw [← hsame]
    simp

end Walk

end Typedef

namespace TokenChain

open Typedef (Recognized Walk stops)

variable {c : TokenChain} {start : Option TokenId}

/-- A walk over a chain from a slot on; what comes before counts as passed.
From a slot that is not on the chain all of it does. -/
def walkFrom (c : TokenChain) (start : Option TokenId) : Walk :=
  ⟨c.cells.takeWhile fun cell => some cell.slot != start,
    c.cells.dropWhile fun cell => some cell.slot != start, c.pool, []⟩

/-- **A chain whose typedefs were expanded** from a slot on, with those that
were recognized and a count. How it is done, and what is kept and added by it,
are told separately. -/
structure Expanded (c : TokenChain) (start : Option TokenId)
    (found : List Recognized) (count : Nat) (c' : TokenChain) : Prop where
  /-- The walk ends, and with this chain, after a step for each cell that it
  has not passed before; -/
  ends : ∃ n, (c.walkFrom start).passed.length + n = c'.cells.length
    ∧ Walk.step^[n] (c.walkFrom start)
      = ⟨c'.cells, [], (c.walkFrom start).outcome.pool, found⟩
    ∧ ∀ k < n, (Walk.step^[k] (c.walkFrom start)).ahead ≠ []
  /-- the count is how many names were written out. -/
  count_eq : count = Recognized.total found
  /-- At all times the `;` are the same ones, -/
  stops_iterate : ∀ k,
    stops (Walk.step^[k] (c.walkFrom start)).cells = stops c.cells
  /-- and there are more cells just by what was written out for the long
  form. -/
  length_iterate : ∀ k, (Walk.step^[k] (c.walkFrom start)).cells.length
    = c.cells.length
      + Recognized.added (Walk.step^[k] (c.walkFrom start)).found
  /-- The same is so at the end. -/
  stops_eq : stops c'.cells = stops c.cells
  length_cells : c'.cells.length = c.cells.length + Recognized.added found
  len : c'.len = c.len + Recognized.added found
  /-- Each typedef that was recognized ends with one of the `;`, -/
  stop_mem : ∀ t ∈ found, t.stop ∈ stops c.cells
  /-- and no three end with the same. -/
  twice : ∀ id, (found.countP fun t => t.stop.slot == id) ≤ 2

/-- A walk over a chain has all of its cells. -/
theorem cells_walkFrom (c : TokenChain) (start : Option TokenId) :
    (c.walkFrom start).cells = c.cells :=
  List.takeWhile_append_dropWhile

/-- **Expanding the typedefs of a chain from a slot on** is what a walk from
there comes to. -/
theorem Laid.editFrom_expandTypedefs (h : c.Laid c.cells)
    (start : Option TokenId) :
    (c.editFrom start expandTypedefs).1 = (c.walkFrom start).outcome.count
      ∧ (c.editFrom start expandTypedefs).2.cells
        = (c.walkFrom start).outcome.cells
      ∧ (c.editFrom start expandTypedefs).2.len + c.cells.length
        = c.len + (c.walkFrom start).outcome.cells.length := by
  have hcells := c.cells_walkFrom start
  rw [Walk.cells] at hcells
  rw [editFrom]
  dsimp only
  split
  · next hdrop =>
    have hahead : (c.walkFrom start).ahead = [] := hdrop
    rw [hahead, List.append_nil] at hcells
    have houtcome : (c.walkFrom start).outcome = .unchanged c.cells c.pool := by
      rw [Walk.outcome, hahead, expandTypedefs_of_cut?_eq_none rfl]
      refine (Edit.plus_zero _).trans ?_
      rw [Edit.prepend, Edit.cells_unchanged, List.append_nil, hcells]
      rfl
    rw [houtcome]
    exact ⟨rfl, rfl, rfl⟩
  · next cell rest hdrop =>
    have hahead : (c.walkFrom start).ahead = cell :: rest := hdrop
    rw [hahead] at hcells
    have hrow := (sound_expandTypedefs.exchanged (cell :: rest) c.pool).append
      (c.walkFrom start).passed _ rfl
    rw [hcells] at hrow
    have hlaid := (h.relay hrow).cells_eq
    have houtcome : (c.walkFrom start).outcome
        = (expandTypedefs (cell :: rest) c.pool).prepend
          (c.walkFrom start).passed := by
      rw [Walk.outcome, hahead]
      exact Edit.plus_zero _
    rw [houtcome]
    refine ⟨rfl, hlaid, ?_⟩
    have hle := h.length_le_len
    have hids : c.ids.length = c.cells.length := by
      rw [h.ids_eq, List.length_map]
    change c.len - c.ids.length
        + ((c.walkFrom start).passed
          ++ (expandTypedefs (cell :: rest) c.pool).cells).length
        + c.cells.length
      = c.len + ((c.walkFrom start).passed
        ++ (expandTypedefs (cell :: rest) c.pool).cells).length
    omega

/-- Each cell twice, counted. -/
theorem countP_pairs (p : Cell → Bool) (cells : List Cell) :
    (cells.flatMap fun s => [s, s]).countP p = 2 * cells.countP p := by
  induction cells with
  | nil => rfl
  | cons s cells ih =>
    rw [List.flatMap_cons, List.countP_append, ih, List.countP_cons]
    cases hp : p s
    · simp [hp]
    · simp [hp]
      omega

/-- **A slot holds one `;` at most**, as no slot comes twice on a chain. -/
theorem Laid.countP_stops_le (h : c.Laid c.cells) (id : TokenId) :
    (stops c.cells).countP (fun s => s.slot == id) ≤ 1 := by
  have hsub := (List.filter_sublist (p := fun c : Cell => c.text == ";")
    (l := c.cells)).countP_le (p := fun s => s.slot == id)
  have hnodup := List.nodup_iff_count_le_one.mp h.nodup id
  rw [Cell.slots, List.count, List.countP_map] at hnodup
  exact Nat.le_trans hsub hnodup

/-- **Expanding the typedefs of a chain comes to an end**, from wherever it
begins, and at that end the chain is what the pass makes of it. -/
theorem Laid.expanded (h : c.Laid c.cells) (start : Option TokenId) :
    ∃ found, c.Expanded start found (c.editFrom start expandTypedefs).1
      (c.editFrom start expandTypedefs).2 := by
  obtain ⟨hcount, hcells, hlen⟩ := h.editFrom_expandTypedefs start
  obtain ⟨n, found, hn, hend, htotal, hgoes⟩ :=
    (c.walkFrom start).exists_iterate
  have hwalk := c.cells_walkFrom start
  have hstops : ∀ k,
      stops (Walk.step^[k] (c.walkFrom start)).cells = stops c.cells :=
    fun k => by rw [Walk.stops_iterate, hwalk]
  have hlength : ∀ k, (Walk.step^[k] (c.walkFrom start)).cells.length
      = c.cells.length
        + Recognized.added (Walk.step^[k] (c.walkFrom start)).found :=
    fun k => by
      have := Walk.length_cells_iterate k (c.walkFrom start)
      rw [hwalk] at this
      exact this
  have hstops' := hstops n
  have hlength' := hlength n
  rw [hend, Walk.cells, List.append_nil] at hstops' hlength'
  dsimp only at hstops' hlength'
  have hsublist : (found.map Recognized.stop).Sublist
      ((stops c.cells).flatMap fun s => [s, s]) := by
    have hsparing := Walk.sparing_iterate n
      (Walk.sparing_of_found (w := c.walkFrom start) rfl)
    rw [hend] at hsparing
    exact hstops' ▸ hsparing.sublist rfl
  refine ⟨found, ⟨n, ?_, ?_, hgoes⟩, hcount.trans htotal.symm, hstops,
    hlength, ?_, ?_, ?_, fun t ht => ?_, fun id => ?_⟩
  · rw [hcells]
    exact hn
  · rw [hcells]
    exact hend
  · rw [hcells]
    exact hstops'
  · rw [hcells]
    exact hlength'
  · rw [hlength'] at hlen
    omega
  · have hmem := hsublist.subset (List.mem_map_of_mem ht)
    obtain ⟨s, hs, hts⟩ := List.mem_flatMap.mp hmem
    have hts' : t.stop = s := by simpa using hts
    exact hts' ▸ hs
  -- two typedefs for each `;`, and one `;` for each slot
  · have hle := hsublist.countP_le (p := fun s => s.slot == id)
    rw [List.countP_map, countP_pairs] at hle
    have honce := h.countP_stops_le id
    exact Nat.le_trans hle (Nat.mul_le_mul_left 2 honce)

/-- A typedef that makes the next one longer, one in front of whose `;` two
are recognized, a name that brings in the word `typedef`, and a typedef of
that word. -/
theorem expanded_of_texts :
    let texts := ["typedef", "unsigned", "long", "word", ";", "typedef",
      "word", "w", ";", "typedef", "typedef", "int", "i", ";", "w", "i", ";",
      "typedef", "int", "typedef", ";", "typedef", "a", "b", ";", "b", "w",
      ";"]
    let c := (ChainOp.run TokenChain.act .empty
      (texts.map fun s => .pushBack ⟨s, 1, .first⟩)).2
    let r := c.editFrom c.head expandTypedefs
    c.tokens.map Token.text = texts
      ∧ r.1 = 6
      ∧ r.2.tokens.map Token.text
        = ["typedef", "unsigned", "long", "word", ";", "typedef", "unsigned",
          "long", "w", ";", "typedef", "typedef", "int", "i", ";", "unsigned",
          "long", "typedef", "int", ";", "int", "int", "typedef", ";", "int",
          "a", "b", ";", "b", "unsigned", "long", ";"]
      ∧ ∃ found, c.Expanded c.head found r.1 r.2 := by
  intro texts c r
  refine ⟨by decide +kernel, by decide +kernel, by decide +kernel, ?_⟩
  have hlaid : c.Laid c.cells := laid_empty.run _
  exact hlaid.expanded c.head

end TokenChain

end FlatC
