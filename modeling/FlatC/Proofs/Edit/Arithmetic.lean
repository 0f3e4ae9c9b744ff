import FlatC.Edit.Arithmetic
import FlatC.Proofs.Edit.Unsigned

/-!
# Folding arithmetic

A sweep is followed cell by cell; that sweeps are repeated until nothing
changes adds nothing to soundness, and it is what leaves arithmetic
**settled**: a sweep that counts no change has changed nothing, so there was
nothing to do at any cell.

Most texts take no part in arithmetic, which their first character tells.
They are **inert**, and where the first or the second text after a cell is
inert there is nothing to do at that cell.
-/

namespace FlatC

namespace Arithmetic

variable {xs ys : List Cell} {before : String} {c d : Cell}

/-! ## Slots -/

/-- A factor that is dropped gives two slots back. -/
theorem exchanged_dropUnit (before : String) (rest : List Cell)
    (pool : SlotPool) :
    Row.Exchanged ⟨rest, pool⟩ (dropUnit before rest pool).row := by
  unfold dropUnit
  split
  · exact Row.Exchanged.taken 2 rest pool
  · exact Row.Exchanged.refl _

/-- **The result is written over the first operand** of the operation, in
whose slot it stays. -/
theorem exists_of_nextResult? (h : nextResult? before xs = some c) :
    ∃ a op b rest v, xs = a :: op :: b :: rest
      ∧ c = a.withText (Numeral.signedText v) := by
  unfold nextResult? at h
  split at h
  · next a op b right rest =>
    split at h
    · split at h
      · obtain ⟨v, -, rfl⟩ := Option.map_eq_some_iff.mp h
        exact ⟨a, op, b, right :: rest, v, rfl, rfl⟩
      · cases h
    · cases h
  · cases h

/-- An operation carried out frees the slots of its sign and of its second
operand. -/
theorem exchanged_result (h : nextResult? before xs = some c)
    (pool : SlotPool) :
    Row.Exchanged ⟨xs, pool⟩
      ⟨c :: xs.drop 3, pool.giveAll ((xs.drop 1).take 2)⟩ := by
  obtain ⟨a, op, b, rest, v, rfl, rfl⟩ := exists_of_nextResult? h
  exact (Row.Exchanged.taken 2 (op :: b :: rest) pool).cons rfl

/-- A sweep gives back the slots of what it drops and takes none. -/
theorem exchanged_sweep (cells : List Cell) (pool : SlotPool) :
    Row.Exchanged ⟨cells, pool⟩ (sweep cells pool).row := by
  fun_induction sweep cells pool with
  | case1 pool => exact Row.Exchanged.refl _
  | case2 pool c rest r result hresult ih =>
    have hunit := exchanged_dropUnit c.text rest pool
    have hdone := exchanged_result hresult r.pool
    exact (hunit.trans (hdone.trans (ih.cons rfl))).cons rfl
  | case3 pool c rest r _ ih =>
    have hunit := exchanged_dropUnit c.text rest pool
    exact (hunit.trans ih).cons rfl

/-! ## Tokens -/

/-- Whether a factor comes next is read off the texts. -/
theorem unitNext_of_alike (h : Cell.Alike xs ys) :
    unitNext before xs = unitNext before ys := by
  rcases h.forall₂ with _ | ⟨h₁, _ | ⟨h₂, _ | ⟨h₃, _⟩⟩⟩
  · rfl
  · rfl
  · rw [unitNext, unitNext, Cell.text_eq h₁, Cell.text_eq h₂]
  · rw [unitNext, unitNext, Cell.text_eq h₁, Cell.text_eq h₂,
      Cell.text_eq h₃]

theorem alike_dropUnit (before : String) (p q : SlotPool)
    (h : Cell.Alike xs ys) :
    (dropUnit before xs p).Alike (dropUnit before ys q) := by
  rw [dropUnit, dropUnit, unitNext_of_alike h]
  split
  · exact ⟨h.drop 2, rfl⟩
  · exact .unchanged h p q

/-- Whether an operation comes next, and its result, are read off the texts,
so cells that are alike give the same answer. -/
theorem rel_nextResult? (before : String) (h : Cell.Alike xs ys) :
    Option.Rel (fun c d => c.token = d.token) (nextResult? before xs)
      (nextResult? before ys) := by
  rcases h.forall₂ with _ | ⟨h₁, _ | ⟨h₂, _ | ⟨h₃, _ | ⟨h₄, _⟩⟩⟩⟩
  · exact .none
  · exact .none
  · exact .none
  · exact .none
  · rw [nextResult?, nextResult?, Cell.text_eq h₁, Cell.text_eq h₂,
      Cell.text_eq h₃, Cell.text_eq h₄]
    split
    · split
      · next m n _ _ =>
        cases value? _ m n with
        | none => exact .none
        | some v => exact .some (Cell.token_withText_eq h₁ _)
      · exact .none
    · exact .none

/-- A sweep does to the tokens what depends on the tokens alone. The induction
follows the sweep on one side, and each decision is carried over to the other. -/
theorem alike_sweep (p q : SlotPool) (h : Cell.Alike xs ys) :
    (sweep xs p).Alike (sweep ys q) := by
  fun_induction sweep xs p generalizing ys q with
  | case1 p =>
    obtain rfl := h.eq_nil
    rw [sweep]
    exact .unchanged h p q
  | case2 p c rest r result hresult =>
    rename_i ih
    obtain ⟨d, ys, rfl, hc, hys⟩ := h.exists_cons
    have hunit := alike_dropUnit d.text p q hys
    rw [← Cell.text_eq hc] at hunit
    have hrel := rel_nextResult? c.text hunit.cells
    rw [hresult] at hrel
    obtain ⟨result', hy, htoken⟩ := exists_of_rel_some hrel
    rw [sweep, ← Cell.text_eq hc, hy]
    refine ((ih _ (hunit.cells.drop 3)).prepend ?_).plus ?_
    · exact .cons hc (.cons htoken (.refl []))
    · exact congrArg (· + 1) hunit.count
  | case3 p c rest r hresult =>
    rename_i ih
    obtain ⟨d, ys, rfl, hc, hys⟩ := h.exists_cons
    have hunit := alike_dropUnit d.text p q hys
    rw [← Cell.text_eq hc] at hunit
    have hrel := rel_nextResult? c.text hunit.cells
    rw [hresult] at hrel
    rw [sweep, ← Cell.text_eq hc, eq_none_of_rel hrel]
    exact ((ih _ hunit.cells).cons hc).plus hunit.count

end Arithmetic

section Equations

variable {cells : List Cell} {pool : SlotPool}

theorem foldArithmetic_of_count_eq_zero
    (h : (Arithmetic.sweep cells pool).count = 0) :
    foldArithmetic cells pool = Arithmetic.sweep cells pool := by
  rw [foldArithmetic, dif_pos h]

theorem foldArithmetic_of_count_ne_zero
    (h : (Arithmetic.sweep cells pool).count ≠ 0) :
    foldArithmetic cells pool
      = (foldArithmetic (Arithmetic.sweep cells pool).cells
          (Arithmetic.sweep cells pool).pool).plus
            (Arithmetic.sweep cells pool).count := by
  rw [foldArithmetic, dif_neg h]

end Equations

/-- Folding arithmetic is a sound pass, since each of its sweeps is one. The
number of sweeps is the same on both sides, as it hangs on what they count. -/
theorem sound_foldArithmetic : Pass.Sound foldArithmetic where
  exchanged := fun cells pool => by
    fun_induction foldArithmetic cells pool with
    | case1 cells pool r _ => exact Arithmetic.exchanged_sweep cells pool
    | case2 cells pool r _ ih =>
      exact (Arithmetic.exchanged_sweep cells pool).trans ih
  alike := fun {xs ys} p q h => by
    fun_induction foldArithmetic xs p generalizing ys q with
    | case1 xs p r =>
      rename_i hcount
      have hsweep := Arithmetic.alike_sweep p q h
      rw [foldArithmetic_of_count_eq_zero (hsweep.count.symm.trans hcount)]
      exact hsweep
    | case2 xs p r hcount =>
      rename_i ih
      have hsweep := Arithmetic.alike_sweep p q h
      rw [foldArithmetic_of_count_ne_zero fun hzero =>
        hcount (hsweep.count.trans hzero)]
      exact (ih _ hsweep.cells).plus hsweep.count

/-! ## Settled arithmetic -/

namespace Arithmetic

variable {cells rest : List Cell} {before text : String} {a b : Cell}

/-- Whether a 1 that stands before some cells begins no fraction, that is
whether no `.` comes first. -/
def whole : List Cell → Bool
  | [] => true
  | c :: _ => c.text != "."

/-- Whether a factor 1 comes next, told of the two cells it would be. -/
theorem unitNext_cons_cons (before : String) (a b : Cell)
    (after : List Cell) :
    unitNext before (a :: b :: after)
      = if (a.text == "*" || a.text == "/") && b.text == "1" then whole after
        else if a.text == "1" && b.text == "*" then
          before != "/" && before != "%" && before != "."
        else false :=
  rfl

/-- **Nothing to do at a cell**: neither a factor 1 nor an operation comes
next. -/
def Settled (before : String) (rest : List Cell) : Prop :=
  unitNext before rest = false ∧ nextResult? before rest = none

theorem dropUnit_of_unitNext_eq_false (h : unitNext before rest = false)
    (pool : SlotPool) :
    dropUnit before rest pool = .unchanged rest pool := by
  rw [dropUnit, h]
  rfl

theorem count_dropUnit_eq_zero {pool : SlotPool}
    (h : (dropUnit before rest pool).count = 0) :
    unitNext before rest = false := by
  unfold dropUnit at h
  split at h
  · cases h
  · next hunit => exact Bool.eq_false_iff.mpr hunit

/-- **A sweep that counts no change** had nothing to do, at any of its cells.
The last sweep of the pass is such a one, and this is how it is known that
nothing is left. -/
theorem settled_of_count_sweep {pool : SlotPool}
    (h : (sweep cells pool).count = 0) : Cell.Everywhere Settled cells := by
  fun_induction sweep cells pool with
  | case1 pool => trivial
  | case2 pool c rest r result hresult ih =>
    rw [Edit.count_plus] at h
    omega
  | case3 pool c rest r hresult ih =>
    rw [Edit.count_plus, Edit.count_cons] at h
    have hcount : r.count = 0 := Nat.eq_zero_of_add_eq_zero_right h
    have hunit : unitNext c.text rest = false := count_dropUnit_eq_zero hcount
    have hr : r = .unchanged rest pool :=
      dropUnit_of_unitNext_eq_false hunit pool
    have hrest := ih (Nat.eq_zero_of_add_eq_zero_left h)
    rw [hr] at hresult hrest
    exact ⟨⟨hunit, hresult⟩, hrest⟩

/-- **A sweep over settled arithmetic changes nothing.** -/
theorem sweep_eq_unchanged (h : Cell.Everywhere Settled cells)
    (pool : SlotPool) : sweep cells pool = .unchanged cells pool := by
  induction cells generalizing pool with
  | nil => rw [sweep]
  | cons c rest ih =>
    rw [sweep, dropUnit_of_unitNext_eq_false h.1.1 pool,
      Edit.cells_unchanged, h.1.2, ih h.2]
    rfl

end Arithmetic

/-- Arithmetic that has been folded is settled: the last sweep counted no
change. -/
theorem arithmetic_settled_foldArithmetic (cells : List Cell)
    (pool : SlotPool) :
    Cell.Everywhere Arithmetic.Settled (foldArithmetic cells pool).cells := by
  fun_induction foldArithmetic cells pool with
  | case1 cells pool r hcount =>
    have hsettled := Arithmetic.settled_of_count_sweep hcount
    rw [show r = .unchanged cells pool from
      Arithmetic.sweep_eq_unchanged hsettled pool]
    exact hsettled
  | case2 cells pool r _ ih => exact ih

/-- **Settled arithmetic is not folded again**, and no slot changes hands. -/
theorem foldArithmetic_eq_unchanged {cells : List Cell}
    (h : Cell.Everywhere Arithmetic.Settled cells) (pool : SlotPool) :
    foldArithmetic cells pool = .unchanged cells pool := by
  have hsweep := Arithmetic.sweep_eq_unchanged h pool
  rw [foldArithmetic_of_count_eq_zero (by rw [hsweep]; rfl), hsweep]

/-! ## No `unsigned` comes back -/

namespace Arithmetic

theorem unsigned_settled_dropUnit (before : String) {rest : List Cell}
    (pool : SlotPool) (h : Cell.Everywhere Unsigned.Settled rest) :
    Cell.Everywhere Unsigned.Settled (dropUnit before rest pool).cells := by
  unfold dropUnit
  split
  · exact h.drop 2
  · exact h

theorem text_of_nextResult? {before : String} {rest : List Cell} {c : Cell}
    (h : nextResult? before rest = some c) :
    ∃ v, c.text = Numeral.signedText v := by
  obtain ⟨a, op, b, rest, v, rfl, rfl⟩ := exists_of_nextResult? h
  exact ⟨v, rfl⟩

/-- What a sweep writes are numbers, and what it drops leaves no `unsigned` in
front of another token than before. -/
theorem unsigned_settled_sweep {cells : List Cell} (pool : SlotPool)
    (h : Cell.Everywhere Unsigned.Settled cells) :
    Cell.Everywhere Unsigned.Settled (sweep cells pool).cells := by
  fun_induction sweep cells pool with
  | case1 pool => trivial
  | case2 pool c rest r result hresult ih =>
    have hr : Cell.Everywhere Unsigned.Settled r.cells :=
      unsigned_settled_dropUnit c.text pool h.2
    have hrest : rest ≠ [] := by
      rintro rfl
      have hlen := length_of_nextResult? hresult
      exact absurd hlen (Nat.not_succ_le_zero 3)
    obtain ⟨v, hv⟩ := text_of_nextResult? hresult
    refine ⟨Unsigned.settled_of_ne (h.1.ne hrest) _,
      Unsigned.settled_of_ne ?_ _, ih (hr.drop 3)⟩
    rw [hv]
    exact Unsigned.signedText_ne v
  | case3 pool c rest r _ ih =>
    refine ⟨fun hc => ?_, ih (unsigned_settled_dropUnit c.text pool h.2)⟩
    obtain rfl := h.1 hc
    show (sweep [] pool).cells = []
    rw [sweep]
    rfl

end Arithmetic

theorem unsigned_settled_foldArithmetic {cells : List Cell}
    (pool : SlotPool) (h : Cell.Everywhere Unsigned.Settled cells) :
    Cell.Everywhere Unsigned.Settled (foldArithmetic cells pool).cells := by
  fun_induction foldArithmetic cells pool with
  | case1 cells pool r _ => exact Arithmetic.unsigned_settled_sweep pool h
  | case2 cells pool r _ ih =>
    exact ih (Arithmetic.unsigned_settled_sweep pool h)

/-! ## Inert texts -/

namespace Arithmetic

variable {cells rest : List Cell} {before text : String} {a b : Cell}

/-- **A text that takes no part in arithmetic**: no sign, no 1, no
operand. -/
structure Inert (text : String) : Prop where
  ne_star : text ≠ "*"
  ne_slash : text ≠ "/"
  ne_one : text ≠ "1"
  operand : operand? text = none
  value : ∀ m n, value? text m n = none

/-- Inert texts are known by their first character: it is no digit and no
sign. -/
theorem inert_of_leads {p : Char → Bool} (h : Token.leads p text = true)
    (hdigit : ∀ c, p c = true → c.isDigit = false)
    (hsign : ['+', '-', '*', '/'].all (fun c => !p c) = true) :
    Inert text := by
  have hno : ∀ c ∈ ['+', '-', '*', '/'], p c = false := fun c hc =>
    (Bool.not_eq_true' _).mp (List.all_eq_true.mp hsign c hc)
  have hne : ∀ s : String, Token.leads p s = false → text ≠ s := by
    rintro s hs rfl
    rw [h] at hs
    cases hs
  have hplus : text ≠ "+" := hne "+" (hno '+' (by decide))
  have hminus : text ≠ "-" := hne "-" (hno '-' (by decide))
  have hstar : text ≠ "*" := hne "*" (hno '*' (by decide))
  have hslash : text ≠ "/" := hne "/" (hno '/' (by decide))
  refine ⟨hstar, hslash, ?_, ?_, fun m n => ?_⟩
  · rintro rfl
    have := hdigit '1' h
    revert this
    decide
  · unfold operand? Numeral.ofDigits? Numeral.isDigits
    unfold Token.leads at h
    split at h
    · cases h
    · next c cs hlist => rw [hlist, List.all_cons, hdigit c h]; rfl
  · unfold value?
    rw [if_neg hplus, if_neg hminus, if_neg hstar, if_neg hslash]

/-- A text that starts with one of some characters is inert, if no operand and
no sign of an operation starts with any of them. -/
theorem inert_of_startsWithAny {chars : List Char}
    (h : Token.startsWithAny chars text = true)
    (hchars : chars.all
      (fun c => !c.isDigit && !(['+', '-', '*', '/'].contains c)) = true) :
    Inert text := by
  have hall := List.all_eq_true.mp hchars
  refine inert_of_leads (p := fun c => chars.contains c) h (fun c hc => ?_)
    (List.all_eq_true.mpr fun c hc => ?_)
  · have := hall c (List.contains_iff_mem.mp hc)
    rw [Bool.and_eq_true, Bool.not_eq_true'] at this
    exact this.1
  · refine (Bool.not_eq_true' _).mpr (Bool.eq_false_iff.mpr fun hmem => ?_)
    have := hall c (List.contains_iff_mem.mp hmem)
    rw [Bool.and_eq_true, Bool.not_eq_true', Bool.not_eq_true',
      List.contains_iff_mem.mpr hc] at this
    cases this.2

/-- Names are inert, as no operand and no sign starts with a letter. -/
theorem inert_of_isName (h : Token.isName text = true) : Inert text := by
  refine inert_of_leads (p := fun c => c.isAlpha || c == '_') h
    (fun c hc => ?_) (by decide)
  refine Bool.eq_false_iff.mpr fun hdigit => ?_
  -- letters and the underscore come after the digits
  have hle : c.val ≤ '9'.val :=
    of_decide_eq_true (Bool.and_eq_true_iff.mp hdigit).2
  rcases Bool.or_eq_true_iff.mp hc with halpha | hline
  · rcases Bool.or_eq_true_iff.mp halpha with hupper | hlower
    · have hA : 'A'.val ≤ c.val := (of_decide_eq_true hupper).1
      exact absurd (UInt32.le_trans hA hle) (by decide)
    · have ha : 'a'.val ≤ c.val :=
        of_decide_eq_true (Bool.and_eq_true_iff.mp hlower).1
      exact absurd (UInt32.le_trans ha hle) (by decide)
  · rw [eq_of_beq hline] at hle
    exact absurd hle (by decide)

/-- **Nothing to do where an inert text comes next**: it is neither a sign in
front of a 1, nor a 1, nor an operand. -/
theorem settled_of_inert (h : Inert a.text) (before : String)
    (rest : List Cell) : Settled before (a :: rest) := by
  constructor
  · cases rest with
    | nil => rfl
    | cons b rest =>
      rw [unitNext_cons_cons, beq_eq_false_iff_ne.mpr h.ne_star,
        beq_eq_false_iff_ne.mpr h.ne_slash, beq_eq_false_iff_ne.mpr h.ne_one]
      rfl
  · unfold nextResult?
    split
    · next heq =>
      cases heq
      rw [h.operand]
      split <;> rfl
    · rfl

/-- **Nothing to do where an inert text is the second to come**: it is no
sign, and no factor stands before it. -/
theorem settled_of_inert_second (h : Inert b.text) (before : String)
    (a : Cell) (rest : List Cell) : Settled before (a :: b :: rest) := by
  constructor
  · rw [unitNext_cons_cons, beq_eq_false_iff_ne.mpr h.ne_one,
      beq_eq_false_iff_ne.mpr h.ne_star, Bool.and_false, Bool.and_false]
    rfl
  · unfold nextResult?
    split
    · next heq =>
      cases heq
      split
      · split
        · rw [h.value]
          rfl
        · rfl
      · rfl
    · rfl

/-- **Nothing more to do behind another text** that is no left edge, where the
one before let every factor go. -/
theorem Settled.of_before {t : String} (h : Settled before rest)
    (hbefore : (before != "/" && before != "%" && before != ".") = true)
    (ht : Token.startsWithAny leftEdges t = false) : Settled t rest := by
  constructor
  · rcases rest with _ | ⟨a, _ | ⟨b, after⟩⟩
    · rfl
    · rfl
    have hunit := h.1
    rw [unitNext_cons_cons, hbefore] at hunit
    rw [unitNext_cons_cons]
    split
    · next hfactor => rwa [if_pos hfactor] at hunit
    · next hfactor =>
      rw [if_neg hfactor] at hunit
      split
      · next hone =>
        rw [if_pos hone] at hunit
        cases hunit
      · rfl
  · unfold nextResult?
    split
    · rw [ht, Bool.false_and]
      rfl
    · rfl

/-! ## Settled up to an edit -/

/-- A `,` or a `=` for which `;` is written can stand directly right of an
operation as before. -/
theorem rightEdge_of_ended {s t : String} (h : Cell.Ended s t) :
    Token.startsWithAny rightEdges s = Token.startsWithAny rightEdges t := by
  obtain ⟨rfl | rfl, rfl⟩ := h <;> decide +kernel

/-- The `,` or `=`, and the `;` that is written for it, are both inert. -/
theorem inert_of_ended {s t : String} (h : Cell.Ended s t) :
    Inert s ∧ Inert t := by
  have hs : Token.startsWithAny [',', '=', ';'] s = true := by
    rcases h.1 with rfl | rfl <;> decide +kernel
  have ht : Token.startsWithAny [',', '=', ';'] t = true := by
    rw [h.2]
    decide +kernel
  exact ⟨inert_of_startsWithAny hs (by decide),
    inert_of_startsWithAny ht (by decide)⟩

section Texts

variable {op right a' op' b' right' : Cell} {after after' : List Cell}

/-- Whether an operation can be carried out is a matter of four texts, of the
last of which only the first character counts. -/
theorem nextResult?_of_texts (ha : a.text = a'.text)
    (hop : op.text = op'.text) (hb : b.text = b'.text)
    (hright : Token.startsWithAny rightEdges right.text
      = Token.startsWithAny rightEdges right'.text)
    (h : nextResult? before (a :: op :: b :: right :: after) = none) :
    nextResult? before (a' :: op' :: b' :: right' :: after') = none := by
  rw [nextResult?, ← ha, ← hop, ← hb, ← hright]
  rw [nextResult?] at h
  split at h
  · next hedges =>
    rw [if_pos hedges]
    cases hm : operand? a.text with
    | none => rfl
    | some m =>
      cases hn : operand? b.text with
      | none => rfl
      | some n =>
        rw [hm, hn] at h
        rw [Option.map_eq_none_iff] at h ⊢
        exact h
  · next hedges => rw [if_neg hedges]

/-- The second operand is none where its text is inert. -/
theorem nextResult?_of_inert (h : Inert b.text) :
    nextResult? before (a :: op :: b :: rest) = none := by
  unfold nextResult?
  split
  · next heq =>
    cases heq
    rw [h.operand]
    split
    · split
      · next hnone => cases hnone
      · rfl
    · rfl
  · rfl

end Texts

variable {stops : List Char} {xs ys : List Cell}

theorem whole_of_agree (h : Cell.Agree stops xs ys) : whole xs = whole ys := by
  cases xs with
  | nil => rw [h.eq_nil_iff.mp rfl]
  | cons c xs =>
    cases ys with
    | nil => exact h.elim
    | cons d ys =>
      rcases h with ⟨hc, -⟩ | ⟨hc, hd⟩
      · rw [whole, whole, hc]
      · rw [whole, whole, hd]
        rcases hc with hc | hc <;> rw [hc] <;> decide

/-- **What is settled up to an edit stays settled**, if what the edit begins
with is inert. -/
theorem Settled.of_agree
    (hstops : stops.all
      (fun c => !c.isDigit && !(['+', '-', '*', '/'].contains c)) = true)
    (h : Cell.Agree stops xs ys) (hx : Settled before xs) :
    Settled before ys := by
  have hinert : ∀ {t : String}, Token.startsWithAny stops t = true → Inert t :=
    fun ht => inert_of_startsWithAny ht hstops
  rcases xs with _ | ⟨a, xs⟩ <;> rcases ys with _ | ⟨a', ys⟩
  · exact hx
  · exact h.elim
  · exact h.elim
  rcases h with ⟨ha, hstop | h⟩ | hend
  · exact settled_of_inert (ha ▸ hinert hstop) _ _
  · rcases xs with _ | ⟨op, xs⟩ <;> rcases ys with _ | ⟨op', ys⟩
    · exact ⟨rfl, rfl⟩
    · exact h.elim
    · exact h.elim
    rcases h with ⟨hop, hstop | h⟩ | hend
    · exact settled_of_inert_second (hop ▸ hinert hstop) _ _ _
    · constructor
      · have hunit := hx.1
        rw [unitNext_cons_cons, ha, hop, whole_of_agree h] at hunit
        exact hunit
      · rcases xs with _ | ⟨b, xs⟩ <;> rcases ys with _ | ⟨b', ys⟩
        · rfl
        · exact h.elim
        · exact h.elim
        rcases h with ⟨hb, hstop | h⟩ | hend
        · exact nextResult?_of_inert (hb ▸ hinert hstop)
        · rcases xs with _ | ⟨right, xs⟩ <;> rcases ys with _ | ⟨right', ys⟩
          · rfl
          · exact h.elim
          · exact h.elim
          refine nextResult?_of_texts ha hop hb ?_ hx.2
          rcases h with ⟨hright, -⟩ | hend
          · rw [hright]
          · exact rightEdge_of_ended hend
        · exact nextResult?_of_inert (inert_of_ended hend).2
    · exact settled_of_inert_second (inert_of_ended hend).2 _ _ _
  · exact settled_of_inert (inert_of_ended hend).2 _ _

end Arithmetic

end FlatC
