import Mathlib.Algebra.Group.Int.Defs
import Mathlib.Algebra.Group.Nat.Defs
import FlatC.Proofs.Chain.Runs
import FlatC.Proofs.Edit.Arithmetic
import FlatC.Proofs.Text.Numeral

/-!
# What folding arithmetic does to a chain

How arithmetic is folded is a matter of sweeps: each goes once over the
cells, may change two things at one cell, goes on behind a result it has
written, and is followed by another as long as it has changed anything. What
comes of it is a matter of **rewritings**. A rewriting drops one factor 1 or
carries out one operation, anywhere in the chain, and it is said here without
any sweep what it may do (`Arithmetic.Rewrite`).

Folding is as many rewritings as it counts, one after another, and it leaves
no place for a further one (`TokenChain.Laid.folded`). Each takes two tokens
away, so the count is half of what the chain loses, and no way of choosing
them goes on for longer than the chain has pairs of tokens.
-/

namespace FlatC

namespace Arithmetic

variable {cells rest xs ys zs : List Cell} {before first second : String}
variable {next : Option String} {a b c op right : Cell} {m n : Nat} {v : Int}

/-! ## One rewriting -/

/-- **A number that can be calculated with**: its text is digits throughout,
and it is below 2⁶³. -/
structure Operand (text : String) (n : Nat) : Prop where
  ne_nil : text.toList ≠ []
  digits : ∀ c ∈ text.toList, c.isDigit = true
  value : Numeral.value 10 (text.toList.map Numeral.digitValue) = n
  lt : n < 2 ^ 63

/-- **What an operation comes to.** Division is rounded toward zero, and there
is none by zero. The range is asked for where it is used. -/
inductive Operation : String → Nat → Nat → Int → Prop
  | sum (m n : Nat) : Operation "+" m n ((m : Int) + n)
  | difference (m n : Nat) : Operation "-" m n ((m : Int) - n)
  | product (m n : Nat) : Operation "*" m n ((m : Int) * n)
  | quotient (m : Nat) {n : Nat} : n ≠ 0 →
    Operation "/" m n (Int.tdiv m n)

/-- **Two texts that make up a factor 1**, which can be dropped between the
text before them and the one that comes next, if any does. This is what the
pass drops, and not what may be dropped by the laws of arithmetic. -/
inductive UnitFactor : String → String → String → Option String → Prop
  /-- `* 1` or `/ 1`, where the 1 begins no fraction. -/
  | behind (before : String) {sign : String} {next : Option String} :
    sign = "*" ∨ sign = "/" → next ≠ some "." →
    UnitFactor before sign "1" next
  /-- `1 *`, where the 1 belongs to nothing before it. -/
  | front {before : String} (next : Option String) :
    before ≠ "/" → before ≠ "%" → before ≠ "." →
    UnitFactor before "1" "*" next

/-- **One rewriting**, behind a cell `c` somewhere in a chain. The very first
cell is never dropped or changed. -/
inductive Rewrite : List Cell → List Cell → Prop
  /-- A factor 1 is dropped. -/
  | factor (before : List Cell) {c a b : Cell} {rest : List Cell} :
    UnitFactor c.text a.text b.text (rest.head?.map Cell.text) →
    Rewrite (before ++ c :: a :: b :: rest) (before ++ c :: rest)
  /-- An operation between two edges is carried out, and the cell of its
  first operand gets the result in decimal. -/
  | operation (before : List Cell) {c a op b right : Cell}
    {rest : List Cell} {m n : Nat} {v : Int} :
    Token.startsWithAny leftEdges c.text = true →
    Operand a.text m → Operation op.text m n v → Operand b.text n →
    Token.startsWithAny rightEdges right.text = true →
    -2 ^ 63 ≤ v → v < 2 ^ 63 →
    Rewrite (before ++ c :: a :: op :: b :: right :: rest)
      (before ++ c :: a.withText (toString v) :: right :: rest)

/-- **Some number of rewritings**, one after another, wherever each of them is
made. -/
inductive Rewrites : Nat → List Cell → List Cell → Prop
  | none (cells : List Cell) : Rewrites 0 cells cells
  | next {n : Nat} {xs ys zs : List Cell} :
    Rewrite xs ys → Rewrites n ys zs → Rewrites (n + 1) xs zs

/-- A rewriting takes two tokens away. -/
theorem Rewrite.length_eq (h : Rewrite xs ys) :
    ys.length + 2 = xs.length := by
  cases h <;> simp only [List.length_append, List.length_cons] <;> omega

/-- So many rewritings take twice as many tokens away. -/
theorem Rewrites.length_eq (h : Rewrites n xs ys) :
    ys.length + 2 * n = xs.length := by
  induction h with
  | none => rfl
  | next h _ ih =>
    have := h.length_eq
    omega

/-- A rewriting does not care what stands before it. -/
theorem Rewrite.cons (c : Cell) (h : Rewrite xs ys) :
    Rewrite (c :: xs) (c :: ys) := by
  cases h with
  | factor before hunit => exact .factor (c :: before) hunit
  | operation before hleft ha hop hb hright hlow hhigh =>
    exact .operation (c :: before) hleft ha hop hb hright hlow hhigh

theorem Rewrites.cons (c : Cell) (h : Rewrites n xs ys) :
    Rewrites n (c :: xs) (c :: ys) := by
  induction h with
  | none cells => exact .none (c :: cells)
  | next h _ ih => exact .next (h.cons c) ih

theorem Rewrites.trans (h : Rewrites m xs ys) (h' : Rewrites n ys zs) :
    Rewrites (m + n) xs zs := by
  induction h with
  | none => rwa [Nat.zero_add]
  | next h _ ih =>
    rw [Nat.succ_add]
    exact .next h (ih h')

theorem Rewrite.rewrites (h : Rewrite xs ys) : Rewrites 1 xs ys :=
  .next h (.none ys)

/-! ## What is looked for is where a rewriting can be made -/

theorem Operand.isDigits {text : String} (h : Operand text n) :
    Numeral.isDigits text.toList = true :=
  Numeral.isDigits_iff.mpr ⟨h.ne_nil, h.digits⟩

theorem Operand.ofDigits?_eq {text : String} (h : Operand text n) :
    Numeral.ofDigits? text.toList = some n := by
  rw [Numeral.ofDigits?, if_pos h.isDigits, h.value]

/-- **An operand is found where there is one**, and its number is the one that
its digits write. -/
theorem operand?_eq_some_iff {text : String} :
    operand? text = some n ↔ Operand text n := by
  constructor
  · intro h
    unfold operand? Numeral.ofDigits? at h
    split at h
    · next k hk =>
      split at hk
      · next hdigits =>
        split at h
        · next hlt =>
          cases hk
          cases h
          obtain ⟨hne, hall⟩ := Numeral.isDigits_iff.mp hdigits
          exact ⟨hne, hall, rfl, hlt⟩
        · cases h
      · cases hk
    · cases h
  · intro h
    rw [operand?, h.ofDigits?_eq]
    exact if_pos h.lt

theorem inRange_iff : inRange v = true ↔ -2 ^ 63 ≤ v ∧ v < 2 ^ 63 := by
  rw [inRange, Bool.and_eq_true, decide_eq_true_eq, decide_eq_true_eq]
  rfl

/-- A result is found where there is one in range, for each of the four signs,
and nowhere else. -/
theorem value?_eq_some_iff {sign : String} :
    value? sign m n = some v
      ↔ Operation sign m n v ∧ -2 ^ 63 ≤ v ∧ v < 2 ^ 63 := by
  rw [← inRange_iff]
  constructor
  · intro h
    have hkept : ∀ {w : Int},
        (if inRange w then some w else none) = some v →
          w = v ∧ inRange v = true := by
      intro w hw
      split at hw
      · next hrange =>
        exact ⟨Option.some.inj hw, Option.some.inj hw ▸ hrange⟩
      · cases hw
    unfold value? at h
    by_cases hplus : sign = "+"
    · obtain ⟨rfl, hrange⟩ := hkept (by simpa [hplus] using h)
      exact ⟨hplus ▸ .sum m n, hrange⟩
    by_cases hminus : sign = "-"
    · obtain ⟨rfl, hrange⟩ := hkept (by simpa [hminus] using h)
      exact ⟨hminus ▸ .difference m n, hrange⟩
    by_cases hstar : sign = "*"
    · obtain ⟨rfl, hrange⟩ := hkept (by simpa [hstar] using h)
      exact ⟨hstar ▸ .product m n, hrange⟩
    by_cases hslash : sign = "/"
    · by_cases hzero : n = 0
      · simp [hslash, hzero] at h
      · obtain ⟨rfl, hrange⟩ := hkept (by simpa [hslash, hzero] using h)
        exact ⟨hslash ▸ .quotient m hzero, hrange⟩
    · simp [hplus, hminus, hstar, hslash] at h
  · rintro ⟨hop, hrange⟩
    cases hop with
    | sum => simp [value?, hrange]
    | difference => simp [value?, hrange]
    | product => simp [value?, hrange]
    | quotient _ hzero =>
      simp only [value?, hzero, String.reduceEq, ↓reduceIte, hrange]

theorem whole_iff :
    whole rest = true ↔ rest.head?.map Cell.text ≠ some "." := by
  cases rest with
  | nil => simp [whole]
  | cons c rest => simp [whole]

/-- **A factor 1 is found where one can be dropped**, and nowhere else. It may
come behind its sign or in front of it. -/
theorem unitNext_cons_cons_iff :
    unitNext before (a :: b :: rest) = true
      ↔ UnitFactor before a.text b.text (rest.head?.map Cell.text) := by
  rw [unitNext_cons_cons]
  constructor
  · intro h
    split at h
    · next hsign =>
      simp only [Bool.and_eq_true, Bool.or_eq_true, beq_iff_eq] at hsign
      rw [hsign.2]
      exact .behind before hsign.1 (whole_iff.mp h)
    · split at h
      · next hone =>
        simp only [Bool.and_eq_true, beq_iff_eq] at hone
        simp only [Bool.and_eq_true, bne_iff_ne] at h
        rw [hone.1, hone.2]
        exact .front _ h.1.1 h.1.2 h.2
      · cases h
  · intro h
    generalize a.text = first, b.text = second at h
    cases h with
    | behind hsign hnext =>
      rw [if_pos (by rcases hsign with rfl | rfl <;> rfl)]
      exact whole_iff.mpr hnext
    | front _ hslash hpercent hdot => simp [hslash, hpercent, hdot]

/-- **An operation is found where one can be carried out**, and nowhere else:
between edges, and with a result in range. -/
theorem nextResult?_eq_some_iff :
    nextResult? before (a :: op :: b :: right :: rest) = some c
      ↔ Token.startsWithAny leftEdges before = true
        ∧ Token.startsWithAny rightEdges right.text = true
        ∧ ∃ m n v, Operand a.text m ∧ Operation op.text m n v
          ∧ Operand b.text n ∧ -2 ^ 63 ≤ v ∧ v < 2 ^ 63
          ∧ c = a.withText (toString v) := by
  rw [nextResult?]
  constructor
  · intro h
    split at h
    · next hedges =>
      rw [Bool.and_eq_true] at hedges
      split at h
      · next m n hm hn =>
        obtain ⟨v, hv, rfl⟩ := Option.map_eq_some_iff.mp h
        obtain ⟨hop, hlow, hhigh⟩ := value?_eq_some_iff.mp hv
        exact ⟨hedges.1, hedges.2, m, n, v, operand?_eq_some_iff.mp hm, hop,
          operand?_eq_some_iff.mp hn, hlow, hhigh,
          congrArg _ (Numeral.signedText_eq_toString v)⟩
      · cases h
    · cases h
  · rintro ⟨hleft, hright, m, n, v, ha, hop, hb, hlow, hhigh, rfl⟩
    rw [hleft, hright, operand?_eq_some_iff.mpr ha,
      operand?_eq_some_iff.mpr hb]
    dsimp only
    rw [value?_eq_some_iff.mpr ⟨hop, hlow, hhigh⟩, Option.map_some,
      Numeral.signedText_eq_toString]
    rfl

/-- **Settled arithmetic leaves no place for a rewriting**, at no cell at all. -/
theorem not_rewrite (h : Cell.Everywhere Settled xs) (ys : List Cell) :
    ¬ Rewrite xs ys := by
  intro hrewrite
  cases hrewrite with
  | factor _ hunit =>
    have hsettled := h.right.1.1
    rw [unitNext_cons_cons_iff.mpr hunit] at hsettled
    cases hsettled
  | operation _ hleft ha hop hb hright hlow hhigh =>
    have hsettled := h.right.1.2
    rw [nextResult?_eq_some_iff.mpr
      ⟨hleft, hright, _, _, _, ha, hop, hb, hlow, hhigh, rfl⟩] at hsettled
    cases hsettled

/-! ## Sweeps are rewritings -/

theorem rewrites_dropUnit (c : Cell) (rest : List Cell) (pool : SlotPool) :
    Rewrites (dropUnit c.text rest pool).count (c :: rest)
      (c :: (dropUnit c.text rest pool).cells) := by
  unfold dropUnit
  split
  · next h =>
    rcases rest with _ | ⟨a, _ | ⟨b, rest⟩⟩
    · cases h
    · cases h
    · exact (Rewrite.factor [] (unitNext_cons_cons_iff.mp h)).rewrites
  · exact .none _

theorem rewrite_of_nextResult? {result : Cell}
    (h : nextResult? c.text rest = some result) :
    Rewrite (c :: rest) (c :: result :: rest.drop 3) := by
  have hlength := length_of_nextResult? h
  rcases rest with _ | ⟨a, _ | ⟨op, _ | ⟨b, _ | ⟨right, rest⟩⟩⟩⟩
  iterate 4 simp at hlength
  obtain ⟨hleft, hright, m, n, v, ha, hop, hb, hlow, hhigh, rfl⟩ :=
    nextResult?_eq_some_iff.mp h
  exact .operation [] hleft ha hop hb hright hlow hhigh

/-- **A sweep is as many rewritings as it counts**, by induction on the cells
that are ahead. -/
theorem rewrites_sweep (cells : List Cell) (pool : SlotPool) :
    Rewrites (sweep cells pool).count cells (sweep cells pool).cells := by
  fun_induction sweep cells pool with
  | case1 pool => exact .none []
  | case2 pool c rest r result hresult ih =>
    have hunit : Rewrites r.count (c :: rest) (c :: r.cells) :=
      rewrites_dropUnit c rest pool
    have hdone := (rewrite_of_nextResult? hresult).rewrites
    exact (hunit.trans hdone).trans ((ih.cons result).cons c)
  | case3 pool c rest r _ ih =>
    have hunit : Rewrites r.count (c :: rest) (c :: r.cells) :=
      rewrites_dropUnit c rest pool
    exact hunit.trans (ih.cons c)

end Arithmetic

/-- **Folding arithmetic is as many rewritings as it counts.** -/
theorem rewrites_foldArithmetic (cells : List Cell) (pool : SlotPool) :
    Arithmetic.Rewrites (foldArithmetic cells pool).count cells
      (foldArithmetic cells pool).cells := by
  fun_induction foldArithmetic cells pool with
  | case1 cells pool r _ => exact Arithmetic.rewrites_sweep cells pool
  | case2 cells pool r _ ih =>
    exact (Arithmetic.rewrites_sweep cells pool).trans ih

/-! ## Chains -/

namespace TokenChain

variable {c : TokenChain}

/-- **A chain folded to another**, with a count. All that is said is of
rewritings and cells; sweeps do not appear. -/
structure Folded (c : TokenChain) (count : Nat) (c' : TokenChain) : Prop where
  /-- What is done is that many rewritings. -/
  rewrites : Arithmetic.Rewrites count c.cells c'.cells
  /-- The count is half of what the chain loses in cells, -/
  length : c'.cells.length + 2 * count = c.cells.length
  /-- and half of what it loses in length. -/
  len : c'.len + 2 * count = c.len
  /-- There is no place for a further rewriting. -/
  normal : ∀ cells, ¬ Arithmetic.Rewrite c'.cells cells
  /-- No choice of rewritings goes on forever. -/
  bounded : ∀ n cells, Arithmetic.Rewrites n c.cells cells →
    2 * n ≤ c.cells.length

/-- **Arithmetic is folded by rewritings, exactly as many as are counted,
until there is no place for one.** It holds of every chain. -/
theorem Laid.folded (h : c.Laid c.cells) :
    c.Folded (c.edit foldArithmetic).1 (c.edit foldArithmetic).2 := by
  have hcells := (h.edit sound_foldArithmetic).cells_eq
  have hrewrites := rewrites_foldArithmetic c.cells c.pool
  have hlength := hrewrites.length_eq
  refine ⟨?_, ?_, ?_, ?_, ?_⟩
  · rw [hcells]
    exact hrewrites
  · rw [hcells]
    exact hlength
  · have hlen : (c.edit foldArithmetic).2.len = c.len - c.ids.length
        + (foldArithmetic c.cells c.pool).cells.length := rfl
    have hids : c.ids.length = c.cells.length := by
      rw [h.ids_eq, List.length_map]
    have hle := h.length_le_len
    show (c.edit foldArithmetic).2.len
      + 2 * (foldArithmetic c.cells c.pool).count = c.len
    omega
  · rw [hcells]
    exact Arithmetic.not_rewrite
      (arithmetic_settled_foldArithmetic c.cells c.pool)
  · intro n cells hany
    have := hany.length_eq
    omega

/-- Factors dropped before and behind, a sum that shows up behind the
cursor, a negative result, and a division that cannot be carried out. -/
theorem folded_of_texts :
    let texts := ["x", "=", "(", "1", "*", "2", "+", "3", ")", "*", "4", "/",
      "1", ";", "a", "[", "7", "-", "9", "]", "=", "1", "/", "0", ";"]
    let c := (ChainOp.run TokenChain.act .empty
      (texts.map fun s => .pushBack ⟨s, 1, .first⟩)).2
    c.tokens.map Token.text = texts
      ∧ (c.edit foldArithmetic).2.tokens.map Token.text
        = ["x", "=", "(", "5", ")", "*", "4", ";", "a", "[", "-2", "]", "=",
          "1", "/", "0", ";"]
      ∧ c.Folded (c.edit foldArithmetic).1 (c.edit foldArithmetic).2 := by
  intro texts c
  refine ⟨by decide +kernel, by decide +kernel, ?_⟩
  exact (laid_empty.run _).folded

end TokenChain

end FlatC
