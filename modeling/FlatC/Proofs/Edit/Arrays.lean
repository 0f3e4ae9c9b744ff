import FlatC.Proofs.Edit.Scope
import FlatC.Proofs.Edit.Walking

/-!
# Sizes of arrays by walking over declarations

Each declaration of an array is carried out on everything behind it, before
the next one is looked for. What the next one meets may thus be new: in
`int b [ sizeof ( a ) ] ;` there is a bound only after `a` has been carried
out. Here this is told as a **walk** (`Walk`) that passes one cell at each
step.

What has been done at any time is told by the cells that there were in the
beginning (`Walk.Told`). They fall into parts that are kept and uses that are
replaced. A replaced use is governed by a declaration that has been passed, and
no use that is left is reached by one. Carrying out one more declaration
keeps this: its sweep tells parts as well, and the two are merged into one
(`Merged`), since what the sweep replaces has not been replaced before.

A declaration is six cells, and carrying out an earlier one, or this one,
changes nothing of them once they have been met. So it stands in the end as it
was met, and no declaration has come about behind the walk.
-/

namespace FlatC

namespace ArraySizeof

variable {sizes : TypeSizes} {name other : String} {total n : Nat}
variable {c : Cell} {cells rest six x y xs ys : List Cell}
variable {pool : SlotPool}

/-! ## One cell for each segment -/

/-- **What becomes of a part of the cells**: it is kept, or a use of which the
size is left, whichever array it is of. -/
def Sized : Segment → Prop
  | .kept _ => True
  | .replaced x y => ∃ name total, Evaluates name total x y

variable {segments first second both l j k : List Segment}

/-- A part that is kept leaves the cell, and any other part a number. -/
theorem Sized.new_eq {s : Segment} (h : Sized s) :
    ∃ c, s.new = [c] ∧ (Token.isNumber c.text = false → s = .kept c) := by
  cases s with
  | kept c => exact ⟨c, rfl, fun _ => rfl⟩
  | replaced x y =>
    obtain ⟨name, total, hevaluates⟩ := h
    obtain ⟨c, rfl, hnumber⟩ := hevaluates.exists_number
    refine ⟨c, rfl, fun h => ?_⟩
    rw [hnumber] at h
    cases h

/-- **The cells that are left** can be parted anywhere, since each part leaves
one cell. -/
theorem exists_append_of_new (hsized : ∀ s ∈ segments, Sized s)
    (h : segments.flatMap Segment.new = xs ++ rest) :
    ∃ j k, segments = j ++ k ∧ j.flatMap Segment.new = xs
      ∧ k.flatMap Segment.new = rest := by
  induction xs generalizing segments with
  | nil => exact ⟨[], segments, rfl, rfl, h⟩
  | cons c xs ih =>
    rcases segments with _ | ⟨s, segments⟩
    · cases h
    obtain ⟨hs, hsegments⟩ := List.forall_mem_cons.mp hsized
    obtain ⟨c', hnew, -⟩ := hs.new_eq
    rw [List.flatMap_cons, hnew] at h
    obtain ⟨rfl, htail⟩ := List.cons.inj h
    obtain ⟨j, k, rfl, hj, hk⟩ := ih hsegments htail
    exact ⟨s :: j, k, rfl, by rw [List.flatMap_cons, hnew, hj]; rfl, hk⟩

/-- **What is left without a number** has been kept. A declaration has but one
number in it, its bound. -/
theorem eq_kept_of_new (hsized : ∀ s ∈ segments, Sized s)
    (h : segments.flatMap Segment.new = xs)
    (hnumber : ∀ c ∈ xs, Token.isNumber c.text = false) :
    segments = xs.map .kept := by
  subst h
  induction segments with
  | nil => rfl
  | cons s segments ih =>
    obtain ⟨hs, hsegments⟩ := List.forall_mem_cons.mp hsized
    obtain ⟨c, hnew, hkept⟩ := hs.new_eq
    rw [List.flatMap_cons, hnew, List.singleton_append] at hnumber ⊢
    obtain ⟨hc, hrest⟩ := List.forall_mem_cons.mp hnumber
    rw [List.map_cons, ← ih hsegments hrest, hkept hc]

/-- One cell is left by one part. -/
theorem eq_singleton_of_new (hsized : ∀ s ∈ segments, Sized s)
    (h : segments.flatMap Segment.new = [c]) :
    ∃ s, segments = [s] ∧ s.new = [c] := by
  rcases segments with _ | ⟨s, segments⟩
  · cases h
  obtain ⟨hs, hsegments⟩ := List.forall_mem_cons.mp hsized
  obtain ⟨d, hnew, -⟩ := hs.new_eq
  rw [List.flatMap_cons, hnew] at h
  obtain ⟨rfl, htail⟩ := List.cons.inj h
  obtain rfl : segments = [] := eq_kept_of_new hsegments htail (by simp)
  exact ⟨s, rfl, hnew⟩

/-- **A use that is left** has been one, and all of its cells have been kept. -/
theorem exists_kept_of_new (hsized : ∀ s ∈ segments, Sized s)
    (hx : Use name x) (h : segments.flatMap Segment.new = xs ++ x ++ ys) :
    ∃ j k, segments = j ++ x.map .kept ++ k ∧ j.flatMap Segment.new = xs
      ∧ k.flatMap Segment.new = ys := by
  rw [List.append_assoc] at h
  obtain ⟨j, k, rfl, hj, hk⟩ := exists_append_of_new hsized h
  obtain ⟨m, k, rfl, hm, hk⟩ := exists_append_of_new
    (fun s hs => hsized s (List.mem_append_right _ hs)) hk
  have hkept := eq_kept_of_new (fun s hs => hsized s (by simp [hs])) hm
    fun c hc => hx.isNumber_eq_false hc
  exact ⟨j, k, by rw [hkept, List.append_assoc], hj, hk⟩

/-- What stands in front of a place opens and closes the same blocks, whether
uses have been replaced or not. So scopes can be told of the cells before or
after. -/
theorem foldl_deepen_new (hsized : ∀ s ∈ segments, Sized s)
    (level : Option Nat) :
    (segments.flatMap Segment.new).foldl deepen level
      = (segments.flatMap Segment.old).foldl deepen level := by
  induction segments generalizing level with
  | nil => rfl
  | cons s segments ih =>
    obtain ⟨hs, hsegments⟩ := List.forall_mem_cons.mp hsized
    have hstep : s.new.foldl deepen level = s.old.foldl deepen level := by
      cases s with
      | kept c => rfl
      | replaced x y =>
        obtain ⟨name, total, hevaluates⟩ := hs
        exact (hevaluates.foldl_deepen level).trans
          (hevaluates.use.foldl_deepen level).symm
    rw [List.flatMap_cons, List.flatMap_cons, List.foldl_append,
      List.foldl_append, hstep, ih hsegments]

/-! ## One after the other -/

/-- **Two rounds told as one**: what is kept the second time is what it was
the first time, and what is replaced then was kept before. A cell that the
first round wrote is never part of a use. -/
inductive Merged : List Segment → List Segment → List Segment → Prop
  | nil : Merged [] [] []
  | kept {s : Segment} {c : Cell} {first second both : List Segment} :
    s.new = [c] → Merged first second both →
    Merged (s :: first) (.kept c :: second) (s :: both)
  | replaced {x y : List Cell} {first second both : List Segment} :
    Merged first second both →
    Merged (x.map .kept ++ first) (.replaced x y :: second)
      (.replaced x y :: both)

/-- Two rounds can be told as one wherever the second begins with what the
first has left. -/
theorem exists_merged (hfirst : ∀ s ∈ first, Sized s)
    (hsecond : ∀ s ∈ second, Sized s)
    (h : first.flatMap Segment.new = second.flatMap Segment.old) :
    ∃ both, Merged first second both := by
  induction second generalizing first with
  | nil =>
    have hnil := eq_kept_of_new hfirst h (by simp)
    obtain rfl : first = [] := hnil
    exact ⟨[], .nil⟩
  | cons s second ih =>
    obtain ⟨hs, hsecond⟩ := List.forall_mem_cons.mp hsecond
    obtain ⟨j, k, rfl, hj, hk⟩ := exists_append_of_new hfirst h
    have hj' : ∀ s ∈ j, Sized s := fun s hs =>
      hfirst s (List.mem_append_left _ hs)
    obtain ⟨both, hmerged⟩ :=
      ih (fun s hs => hfirst s (List.mem_append_right _ hs)) hsecond hk
    cases s with
    | kept c =>
      obtain ⟨s, rfl, hs⟩ := eq_singleton_of_new hj' hj
      exact ⟨_, .kept hs hmerged⟩
    | replaced x y =>
      obtain ⟨name, total, hevaluates⟩ := hs
      have hkept := eq_kept_of_new hj' hj
        fun c hc => hevaluates.use.isNumber_eq_false hc
      rw [hkept]
      exact ⟨_, .replaced hmerged⟩

namespace Merged

/-- Both rounds begin with what the first began with. -/
theorem flatMap_old (h : Merged first second both) :
    both.flatMap Segment.old = first.flatMap Segment.old := by
  induction h with
  | nil => rfl
  | kept _ _ ih => rw [List.flatMap_cons, List.flatMap_cons, ih]
  | replaced _ ih =>
    rw [List.flatMap_cons, List.flatMap_append, flatMap_old_kept, ih]
    rfl

/-- Both rounds leave what the second leaves. -/
theorem flatMap_new (h : Merged first second both) :
    both.flatMap Segment.new = second.flatMap Segment.new := by
  induction h with
  | nil => rfl
  | kept hnew _ ih =>
    rw [List.flatMap_cons, List.flatMap_cons, ih, hnew]
    rfl
  | replaced _ ih => rw [List.flatMap_cons, List.flatMap_cons, ih]

/-- Both rounds replace as many uses as the two together. -/
theorem countP_isReplaced (h : Merged first second both) :
    both.countP Segment.isReplaced
      = first.countP Segment.isReplaced
        + second.countP Segment.isReplaced := by
  induction h with
  | nil => rfl
  | kept _ _ ih =>
    rw [List.countP_cons, List.countP_cons, ih,
      List.countP_cons_of_neg Bool.false_ne_true]
    omega
  | @replaced x y first second both _ ih =>
    rw [List.countP_append, countP_isReplaced_kept,
      List.countP_cons_of_pos rfl, List.countP_cons_of_pos rfl, ih]
    omega

/-- **What has been replaced** has been replaced in one of the rounds, and is
told where it stood in that one. -/
theorem exists_replaced (h : Merged first second both)
    (heq : both = l ++ .replaced x y :: k) :
    (∃ j m i d, first = j ++ .replaced x y :: m ∧ second = i ++ d
        ∧ j.flatMap Segment.new = i.flatMap Segment.old
        ∧ l.flatMap Segment.new = i.flatMap Segment.new)
      ∨ ∃ i d, second = i ++ .replaced x y :: d
        ∧ l.flatMap Segment.new = i.flatMap Segment.new := by
  induction h generalizing l with
  | nil => simp at heq
  | @kept s c first second both hnew hmerged ih =>
    rcases l with _ | ⟨s', l⟩
    · obtain ⟨rfl, rfl⟩ := List.cons.inj heq
      exact .inl ⟨[], first, [], _, rfl, rfl, rfl, rfl⟩
    · obtain ⟨rfl, htail⟩ := List.cons.inj heq
      rcases ih htail with ⟨j, m, i, d, rfl, rfl, hold, hl⟩ | ⟨i, d, rfl, hl⟩
      · refine .inl ⟨s :: j, m, .kept c :: i, d, rfl, rfl, ?_, ?_⟩
        · rw [List.flatMap_cons, List.flatMap_cons, hnew, hold]
          rfl
        · rw [List.flatMap_cons, List.flatMap_cons, hnew, hl]
          rfl
      · refine .inr ⟨.kept c :: i, d, rfl, ?_⟩
        rw [List.flatMap_cons, List.flatMap_cons, hnew, hl]
        rfl
  | @replaced x' y' first second both hmerged ih =>
    rcases l with _ | ⟨s', l⟩
    · cases heq
      exact .inr ⟨[], second, rfl, rfl⟩
    · obtain ⟨rfl, htail⟩ := List.cons.inj heq
      rcases ih htail with ⟨j, m, i, d, rfl, rfl, hold, hl⟩ | ⟨i, d, rfl, hl⟩
      · refine .inl ⟨x'.map .kept ++ j, m, .replaced x' y' :: i, d,
          (List.append_assoc _ _ _).symm, rfl, ?_, ?_⟩
        · rw [List.flatMap_append, flatMap_new_kept, List.flatMap_cons, hold]
          rfl
        · rw [List.flatMap_cons, List.flatMap_cons, hl]
      · refine .inr ⟨.replaced x' y' :: i, d, rfl, ?_⟩
        rw [List.flatMap_cons, List.flatMap_cons, hl]

end Merged

/-! ## Carrying a declaration out -/

/-- The end of a declaration is no use and opens or closes no block. -/
theorem replaceUses_stop (hc : c.text = ";") (name total : String) (n : Nat)
    (rest : List Cell) (pool : SlotPool) :
    replaceUses name total n (c :: rest) pool
      = (replaceUses name total n rest pool).cons c := by
  have huse : isUse name (c :: rest) ≠ true := fun h => by
    obtain ⟨x, more, heq, hx⟩ := isUse_iff.mp h
    obtain ⟨hword, -⟩ := hx
    obtain ⟨rfl, -⟩ := List.cons.inj heq
    exact absurd (hword.symm.trans hc) (by decide)
  rw [replaceUses_cons, if_neg (by rw [hc]; decide +kernel),
    if_neg (by rw [hc]; decide +kernel), if_neg huse]

/-- **A declaration is carried out** on what comes behind it. -/
theorem apply_of_declares {five : List Cell}
    (h : Declares sizes (c :: five) name total) (rest : List Cell)
    (pool : SlotPool) :
    apply sizes c (five ++ rest) pool
      = (replaceUses name (Numeral.text total) 0 rest pool).prepend five := by
  have hdeclared : declared? sizes (c :: (five ++ rest)) = some (name, total) :=
    declared?_eq_some_iff.mpr ⟨c :: five, rest, rfl, h⟩
  obtain ⟨type, bound, harray, -⟩ := h
  rw [apply, hdeclared]
  cases harray with
  | mk _ _ _ _ _ hstop =>
    exact congrArg (Edit.prepend _) (replaceUses_stop hstop _ _ _ _ _)

/-- A declaration begins with the cell at which it is found. -/
theorem exists_of_declared? {found : String × Nat}
    (h : declared? sizes (c :: rest) = some found) :
    ∃ five after, rest = five ++ after
      ∧ Declares sizes (c :: five) found.1 found.2 := by
  obtain ⟨six, after, hcells, hdeclares⟩ := declared?_eq_some_iff.mp h
  rcases six with _ | ⟨d, five⟩
  · exact absurd hdeclares.length (by decide)
  obtain ⟨rfl, rfl⟩ := List.cons.inj hcells
  exact ⟨five, after, rfl, hdeclares⟩

/-- Where no declaration begins nothing is done. -/
theorem apply_of_declared?_eq_none (h : declared? sizes (c :: rest) = none)
    (pool : SlotPool) : apply sizes c rest pool = .unchanged rest pool := by
  rw [apply, h]

/-! ## Walks -/

/-- **A walk over some cells**: those that have been passed, those ahead, the
slots at hand and how many uses have been replaced. What has been passed is
not changed again. -/
structure Walk where
  passed : List Cell
  ahead : List Cell
  pool : SlotPool
  count : Nat

namespace Walk

/-- A walk that has not begun. -/
def start (cells : List Cell) (pool : SlotPool) : Walk := ⟨[], cells, pool, 0⟩

/-- **The next step**: a cell is passed, and if a declaration begins with it,
that is carried out on what is ahead. -/
def step (sizes : TypeSizes) (w : Walk) : Walk :=
  match w.ahead with
  | [] => w
  | c :: rest =>
    let r := apply sizes c rest w.pool
    ⟨w.passed ++ [c], r.cells, r.pool, w.count + r.count⟩

/-- All cells, as they stand. -/
def all (w : Walk) : List Cell := w.passed ++ w.ahead

/-- **What a walk comes to** if the declarations ahead are carried out. At the
beginning this is what the pass makes. -/
def outcome (sizes : TypeSizes) (w : Walk) : Edit :=
  ((evalArraySizeof sizes w.ahead w.pool).prepend w.passed).plus w.count

variable {w : Walk}

theorem step_cons (h : w.ahead = c :: rest) :
    w.step sizes = ⟨w.passed ++ [c], (apply sizes c rest w.pool).cells,
      (apply sizes c rest w.pool).pool,
      w.count + (apply sizes c rest w.pool).count⟩ := by
  rw [step, h]

/-- **What a step does**: nothing at the end, a cell passed, or a declaration
carried out. -/
theorem step_cases (sizes : TypeSizes) (w : Walk) :
    w.ahead = [] ∧ w.step sizes = w
      ∨ (∃ c rest, w.ahead = c :: rest
        ∧ declared? sizes (c :: rest) = none
        ∧ w.step sizes = ⟨w.passed ++ [c], rest, w.pool, w.count⟩)
      ∨ ∃ c five rest name total r, w.ahead = c :: (five ++ rest)
        ∧ Declares sizes (c :: five) name total
        ∧ r = replaceUses name (Numeral.text total) 0 rest w.pool
        ∧ w.step sizes
          = ⟨w.passed ++ [c], five ++ r.cells, r.pool, w.count + r.count⟩ := by
  cases hahead : w.ahead with
  | nil => exact .inl ⟨rfl, by rw [step, hahead]⟩
  | cons c rest =>
    cases hdeclared : declared? sizes (c :: rest) with
    | none =>
      refine .inr (.inl ⟨c, rest, rfl, hdeclared, ?_⟩)
      rw [step_cons hahead, apply_of_declared?_eq_none hdeclared]
      rfl
    | some found =>
      obtain ⟨five, after, rfl, hdeclares⟩ := exists_of_declared? hdeclared
      refine .inr (.inr ⟨c, five, after, _, _, _, rfl, hdeclares, rfl, ?_⟩)
      rw [step_cons hahead, apply_of_declares hdeclares]
      rfl

/-- **A step changes nothing of the outcome**, so that the walk ends with what
the pass makes. -/
theorem outcome_step (sizes : TypeSizes) (w : Walk) :
    (w.step sizes).outcome sizes = w.outcome sizes := by
  cases hahead : w.ahead with
  | nil => rw [step, hahead]
  | cons c rest =>
    rw [step_cons hahead, outcome, outcome, hahead, evalArraySizeof,
      ← Edit.prepend_prepend, Edit.prepend_plus, Edit.plus_plus]
    rfl

theorem outcome_iterate (sizes : TypeSizes) (k : Nat) (w : Walk) :
    ((step sizes)^[k] w).outcome sizes = w.outcome sizes := by
  induction k with
  | zero => rfl
  | succ k ih => rw [Function.iterate_succ_apply', outcome_step, ih]

/-- A walk has ended when it has passed as much as it comes to. -/
theorem ahead_eq_nil_iff (sizes : TypeSizes) (w : Walk) :
    w.ahead = [] ↔ w.passed.length = (w.outcome sizes).cells.length := by
  rw [outcome, Edit.cells_plus, Edit.cells_prepend, List.length_append]
  cases hahead : w.ahead with
  | nil =>
    rw [evalArraySizeof]
    exact iff_of_true rfl rfl
  | cons c rest =>
    rw [evalArraySizeof, Edit.cells_plus, Edit.cells_cons, List.length_cons]
    exact iff_of_false (List.cons_ne_nil _ _) (by omega)

theorem length_passed_step (h : w.ahead ≠ []) :
    (w.step sizes).passed.length = w.passed.length + 1 := by
  obtain ⟨c, rest, hahead⟩ := List.exists_cons_of_ne_nil h
  rw [step_cons hahead, List.length_append, List.length_singleton]

/-- **A walk passes one cell at each step** as long as there is one ahead. -/
theorem length_passed_start {cells : List Cell} {pool : SlotPool} {k : Nat}
    (h : k ≤ (evalArraySizeof sizes cells pool).cells.length) :
    ((step sizes)^[k] (start cells pool)).passed.length = k := by
  have houtcome : (start cells pool).outcome sizes
      = evalArraySizeof sizes cells pool := Edit.plus_zero _
  refine (passed_iterate (fun w : Walk => w.passed.length)
    (fun w => (w.outcome sizes).cells.length)
    (fun w => by rw [outcome_step]) (fun w hlt => ?_) ?_).trans
    (Nat.zero_add k)
  · exact length_passed_step fun hnil =>
      Nat.ne_of_lt hlt ((ahead_eq_nil_iff sizes w).mp hnil)
  · rw [houtcome]
    exact (Nat.zero_add k).symm ▸ h

/-- **A walk ends with the outcome**, after one step for each of its cells.
The outcome is the same at every step, and at the last one nothing is ahead. -/
theorem iterate_start (sizes : TypeSizes) (cells : List Cell)
    (pool : SlotPool) :
    let r := evalArraySizeof sizes cells pool
    (step sizes)^[r.cells.length] (start cells pool)
      = ⟨r.cells, [], r.pool, r.count⟩ := by
  intro r
  have houtcome : (start cells pool).outcome sizes = r := Edit.plus_zero _
  have hend := length_passed_start (Nat.le_refl r.cells.length)
  have hsame := outcome_iterate sizes r.cells.length (start cells pool)
  rw [houtcome] at hsame
  generalize (step sizes)^[r.cells.length] (start cells pool) = w
    at hend hsame ⊢
  have hahead : w.ahead = [] :=
    (ahead_eq_nil_iff sizes w).mpr (by rw [hend, hsame])
  rw [outcome, hahead, evalArraySizeof] at hsame
  obtain ⟨passed, ahead, pool, count⟩ := w
  obtain rfl : ahead = [] := hahead
  rw [← hsame]
  simp

end Walk

/-! ## What a step keeps -/

/-- **Two ways to part cells that are kept and others behind them.** -/
theorem kept_append_cases (h : cells.map Segment.kept ++ second = j ++ k) :
    (∃ m, j = cells.map .kept ++ m ∧ second = m ++ k)
      ∨ ∃ xs ys, cells = xs ++ ys ∧ ys ≠ [] ∧ j = xs.map .kept := by
  rcases List.append_eq_append_iff.mp h with ⟨m, hj, hm⟩ | ⟨m, hm, hk⟩
  · exact .inl ⟨m, hj, hm⟩
  · obtain ⟨xs, ys, hcells, hxs, hys⟩ := List.map_eq_append_iff.mp hm
    by_cases hnil : ys = []
    · subst hnil hxs hys
      rw [List.append_nil] at hcells
      subst hcells
      exact .inl ⟨[], (List.append_nil _).symm, hk.symm⟩
    · exact .inr ⟨xs, ys, hcells, hnil, hxs.symm⟩

/-- **A declaration reaches as far as before**, once it has been passed:
replacing uses changes no block. -/
theorem reaches_new_iff {start : Nat} (hsized : ∀ s ∈ second, Sized s)
    (h : cells.map Segment.kept ++ second = j ++ k)
    (hstart : start + 6 ≤ cells.length) :
    Reaches sizes start (j.flatMap Segment.new) name total
      ↔ Reaches sizes start (j.flatMap Segment.old) name total := by
  rcases kept_append_cases h with ⟨m, rfl, rfl⟩ | ⟨xs, ys, -, -, rfl⟩
  · rw [List.flatMap_append, List.flatMap_append, flatMap_new_kept,
      flatMap_old_kept]
    exact reaches_append_congr hstart
      (foldl_deepen_new fun s hs => hsized s (List.mem_append_left _ hs))
  · rw [flatMap_new_kept, flatMap_old_kept]

theorem Swept.sized {level : Option Nat}
    (h : Swept name total level segments) : ∀ s ∈ segments, Sized s := by
  intro s hs
  cases s with
  | kept c => trivial
  | replaced x y =>
    obtain ⟨j, k, hjk⟩ := List.append_of_mem hs
    exact ⟨name, total, (h.evaluates hjk).1⟩

namespace Walk

variable {w : Walk}

/-- **What a walk has done**, told by the parts of the cells it began with.
This is the invariant that each step keeps. -/
structure Told (sizes : TypeSizes) (cells : List Cell)
    (segments : List Segment) (w : Walk) : Prop where
  old : segments.flatMap Segment.old = cells
  new : segments.flatMap Segment.new = w.all
  count : segments.countP Segment.isReplaced = w.count
  /-- A use that has been replaced is governed by a declaration that has been
  passed. -/
  governed : ∀ l x y k, segments = l ++ .replaced x y :: k →
    ∃ name total start, start < w.passed.length ∧ Evaluates name total x y
      ∧ Governs sizes start (l.flatMap Segment.new) name total
  /-- A use that is left is reached by none of these. -/
  settled : ∀ xs x ys name, w.all = xs ++ x ++ ys → Use name x →
    ∀ start < w.passed.length, ∀ total, ¬ Reaches sizes start xs name total

theorem Told.sized (h : Told sizes cells segments w) :
    ∀ s ∈ segments, Sized s := by
  intro s hs
  cases s with
  | kept c => trivial
  | replaced x y =>
    obtain ⟨l, k, hlk⟩ := List.append_of_mem hs
    obtain ⟨name, total, -, -, hevaluates, -⟩ := h.governed l x y k hlk
    exact ⟨name, total, hevaluates⟩

/-- Passing a cell changes nothing. -/
theorem all_pass (hahead : w.ahead = c :: rest) :
    (⟨w.passed ++ [c], rest, w.pool, w.count⟩ : Walk).all = w.all := by
  rw [all, all, hahead, List.append_assoc]
  rfl

/-- A cell with which no declaration begins is passed, and nothing has to be
told anew. -/
theorem Told.pass (h : Told sizes cells segments w)
    (hahead : w.ahead = c :: rest)
    (hnone : declared? sizes (c :: rest) = none) :
    Told sizes cells segments ⟨w.passed ++ [c], rest, w.pool, w.count⟩ := by
  have hall := all_pass hahead
  refine ⟨h.old, h.new.trans hall.symm, h.count, fun l x y k hlk => ?_,
    fun xs x ys name hxs hx start hstart total hreaches => ?_⟩
  · obtain ⟨name, total, start, hstart, hgoverns⟩ := h.governed l x y k hlk
    refine ⟨name, total, start, Nat.lt_of_lt_of_le hstart ?_, hgoverns⟩
    simp
  · rw [hall] at hxs
    rw [List.length_append, List.length_singleton] at hstart
    rcases Nat.lt_succ_iff_lt_or_eq.mp hstart with hlt | rfl
    · exact h.settled xs x ys name hxs hx start hlt total hreaches
    · -- A declaration that begins at the place would have been found.
      obtain ⟨before, six, between, rfl, hbefore, hdeclares, -⟩ := hreaches
      rw [all, hahead] at hxs
      simp only [List.append_assoc] at hxs
      obtain ⟨-, hcells⟩ := List.append_inj hxs hbefore.symm
      have hsome := declared?_eq_some_iff.mpr ⟨six, _, hcells, hdeclares⟩
      rw [hnone] at hsome
      cases hsome

section Declare

variable {five : List Cell} {used : List Segment}

/-- **A use that a declaration replaces** is governed by it: no earlier
declaration reaches it, or it would have been replaced by then. -/
theorem Told.governs (h : Told sizes cells segments w)
    (hdeclares : Declares sizes (c :: five) name total)
    (hswept : Swept name total (some 0) used)
    (hall : w.all = w.passed ++ c :: five ++ used.flatMap Segment.old)
    (heq : (w.passed ++ c :: five).map Segment.kept ++ used
      = j ++ .replaced x y :: k) :
    Evaluates name total x y
      ∧ Governs sizes w.passed.length (j.flatMap Segment.new) name total := by
  obtain ⟨m, hj, hused⟩ : ∃ m, j = (w.passed ++ c :: five).map .kept ++ m
      ∧ used = m ++ .replaced x y :: k := by
    rcases kept_append_cases heq with hm | ⟨xs, ys, hcells, hne, rfl⟩
    · exact hm
    · -- A cell up to the end of the declaration is not replaced.
      obtain ⟨d, ys, rfl⟩ := List.exists_cons_of_ne_nil hne
      rw [hcells] at heq
      simp at heq
  obtain ⟨hevaluates, hlevel⟩ := hswept.evaluates hused
  have hm : ∀ s ∈ m, Sized s := fun s hs =>
    hswept.sized s (hused ▸ List.mem_append_left _ hs)
  refine ⟨hevaluates, ?_, fun earlier hearlier total' hreaches => ?_⟩
  · rw [hj, List.flatMap_append, flatMap_new_kept,
      reaches_behind_iff hdeclares, open_iff, foldl_deepen_new hm]
    exact ⟨rfl, rfl, hlevel⟩
  · have hlength := hdeclares.length
    rw [reaches_new_iff hswept.sized heq (by
      rw [List.length_append, hlength]
      omega)] at hreaches
    refine h.settled _ x (k.flatMap Segment.old) name ?_ hevaluates.use
      earlier hearlier total' hreaches
    rw [hall, hj, hused, List.flatMap_append, List.flatMap_append,
      flatMap_old_kept, List.flatMap_cons]
    simp [Segment.old]

/-- **A use that a declaration leaves** is not reached by it, nor by an
earlier one. -/
theorem Told.not_reaches (h : Told sizes cells segments w)
    (hdeclares : Declares sizes (c :: five) name total)
    (hswept : Swept name total (some 0) used)
    (hall : w.all = w.passed ++ c :: five ++ used.flatMap Segment.old)
    (hx : Use other x)
    (heq : w.passed ++ c :: five ++ used.flatMap Segment.new = xs ++ x ++ ys)
    {start : Nat} (hstart : start < w.passed.length + 1) (total' : Nat) :
    ¬ Reaches sizes start xs other total' := by
  have hlength : (w.passed ++ c :: five).length = w.passed.length + 6 := by
    rw [List.length_append, hdeclares.length]
  have hsized : ∀ s ∈ (w.passed ++ c :: five).map Segment.kept ++ used,
      Sized s := by
    intro s hs
    rcases List.mem_append.mp hs with hs | hs
    · obtain ⟨d, -, rfl⟩ := List.mem_map.mp hs
      trivial
    · exact hswept.sized s hs
  obtain ⟨j, k, hjk, rfl, rfl⟩ := exists_kept_of_new hsized hx (by
    rw [List.flatMap_append, flatMap_new_kept]
    exact heq)
  rw [List.append_assoc] at hjk
  intro hreaches
  rcases Nat.lt_succ_iff_lt_or_eq.mp hstart with hlt | rfl
  · rw [reaches_new_iff hswept.sized hjk (by omega)] at hreaches
    refine h.settled _ x (k.flatMap Segment.old) other ?_ hx start hlt total'
      hreaches
    have hold := congrArg (List.flatMap Segment.old) hjk
    rw [List.flatMap_append, List.flatMap_append, List.flatMap_append,
      flatMap_old_kept, flatMap_old_kept] at hold
    rw [hall, hold, List.append_assoc]
  · rcases kept_append_cases hjk with
      ⟨m, rfl, hused⟩ | ⟨xs, ys, hcells, hne, rfl⟩
    · rw [List.flatMap_append, flatMap_new_kept,
        reaches_behind_iff hdeclares, open_iff,
        foldl_deepen_new fun s hs =>
          hswept.sized s (hused ▸ List.mem_append_left _ hs)] at hreaches
      obtain ⟨rfl, -, hlevel⟩ := hreaches
      exact hlevel (hswept.not_use (by rw [hused, List.append_assoc]) hx)
    · -- The declaration is not yet complete here.
      obtain ⟨before, six, between, hxs, hbefore, hdeclares', -⟩ := hreaches
      have hle := congrArg List.length hxs
      have hpos := List.length_pos_of_ne_nil hne
      rw [flatMap_new_kept, List.length_append, List.length_append, hbefore,
        hdeclares'.length] at hle
      rw [hcells, List.length_append] at hlength
      omega

/-- **A declaration carried out**: its sweep is merged with what had been done
before. -/
theorem Told.declare {r : Edit}
    (h : Told sizes cells segments w) (hahead : w.ahead = c :: (five ++ rest))
    (hdeclares : Declares sizes (c :: five) name total)
    (hsweeps : Sweeps name total (some 0) rest r) :
    ∃ segments, Told sizes cells segments
      ⟨w.passed ++ [c], five ++ r.cells, r.pool, w.count + r.count⟩ := by
  obtain ⟨used, hswept, rfl, hnew, hcount⟩ := hsweeps
  have hall : w.all = w.passed ++ c :: five ++ used.flatMap Segment.old := by
    rw [all, hahead]
    simp
  have hall' : (⟨w.passed ++ [c], five ++ r.cells, r.pool, w.count + r.count⟩
      : Walk).all = w.passed ++ c :: five ++ used.flatMap Segment.new := by
    rw [all, hnew]
    simp
  obtain ⟨both, hmerged⟩ : ∃ both, Merged segments
      ((w.passed ++ c :: five).map .kept ++ used) both := by
    refine exists_merged h.sized (fun s hs => ?_) ?_
    · rcases List.mem_append.mp hs with hs | hs
      · obtain ⟨d, -, rfl⟩ := List.mem_map.mp hs
        trivial
      · exact hswept.sized s hs
    · rw [h.new, List.flatMap_append, flatMap_old_kept, hall]
  refine ⟨both, hmerged.flatMap_old.trans h.old, ?_, ?_, ?_, ?_⟩
  · rw [hmerged.flatMap_new, List.flatMap_append, flatMap_new_kept, hall']
  · rw [hmerged.countP_isReplaced, List.countP_append, hcount, h.count,
      countP_isReplaced_kept, Nat.zero_add]
  · intro l x y k hlk
    rw [List.length_append, List.length_singleton]
    -- a use that had been replaced before, or one that this declaration
    -- replaces
    rcases hmerged.exists_replaced hlk with
      ⟨j, m, i, d, hsegments, heq, hold, hl⟩ | ⟨i, d, heq, hl⟩
    · obtain ⟨other, total', start, hstart, hevaluates, hgoverns⟩ :=
        h.governed j x y m hsegments
      have hlength := hdeclares.length
      have hreaches : ∀ earlier ≤ start, ∀ total',
          Reaches sizes earlier (l.flatMap Segment.new) other total'
            ↔ Reaches sizes earlier (j.flatMap Segment.new) other total' := by
        intro earlier hearlier total'
        rw [hl, hold]
        exact reaches_new_iff hswept.sized heq (by
          rw [List.length_append, hlength]
          omega)
      refine ⟨other, total', start, Nat.lt_succ_of_lt hstart, hevaluates,
        (hreaches start (Nat.le_refl _) _).mpr hgoverns.1, ?_⟩
      intro earlier hearlier total'
      rw [hreaches earlier (Nat.le_of_lt hearlier)]
      exact hgoverns.2 earlier hearlier total'
    · obtain ⟨hevaluates, hgoverns⟩ := h.governs hdeclares hswept hall heq
      exact ⟨name, total, w.passed.length, Nat.lt_succ_self _, hevaluates,
        hl ▸ hgoverns⟩
  · intro xs x ys other hxs hx start hstart total'
    rw [hall'] at hxs
    rw [List.length_append, List.length_singleton] at hstart
    exact h.not_reaches hdeclares hswept hall hx hxs hstart total'

end Declare

/-- **What has been done is told at each step.** -/
theorem Told.step (h : Told sizes cells segments w) :
    ∃ segments, Told sizes cells segments (w.step sizes) := by
  rcases step_cases sizes w with
    ⟨-, hstep⟩ | ⟨c, rest, hahead, hnone, hstep⟩
      | ⟨c, five, rest, name, total, r, hahead, hdeclares, rfl, hstep⟩
  · exact ⟨segments, by rwa [hstep]⟩
  · exact ⟨segments, by rw [hstep]; exact h.pass hahead hnone⟩
  · rw [hstep]
    exact h.declare hahead hdeclares (sweeps_replaceUses name total 0 rest _)

end Walk

end ArraySizeof

/-! ## Chains -/

namespace TokenChain

open ArraySizeof

variable {c : TokenChain}

end TokenChain

end FlatC
