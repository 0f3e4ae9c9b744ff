import Mathlib.Data.Nat.Find
import FlatC.Proofs.Chain.Runs
import FlatC.Proofs.Edit.Splitting

/-!
# Where an initializer ends

An initializer is cut off by going through the cells behind the `=` and
keeping count of what is open. Here that is told without going through
anything: the **depth** behind some cells is the sum of what each of them
opens or closes, and an initializer can end at a `;` or a `,` with depth 0
before it (`EndsAt`).

Where it ends is then a question of how far the depth goes down on the way.
A closing bracket or brace that belongs to nothing in the initializer brings
it to -1, which stops nothing yet: an opening one behind it brings it back
to 0, and the initializer is cut off at an end that is not its own. Only
below -1 there is no end to be found any more (`next?_eq_none_iff`).

The initializers that are meant are those in which brackets come in pairs
and commas stand in brackets (`Enclosed`). They are gone through from end to
end, at whatever depth.
-/

namespace FlatC

namespace Declaration

variable {cells lead after xs ys rest : List Cell} {before : String}
variable {c eq name : Cell} {shape : Shape} {pool : SlotPool} {level : Int}

/-! ## Depths -/

/-- **How much deeper some cells leave** what comes after them, a closing one
counting against an opening one of either kind. -/
def depth : List Cell → Int
  | [] => 0
  | c :: cells => shift c.text + depth cells

@[simp] theorem depth_nil : depth [] = 0 := rfl

@[simp] theorem depth_cons (c : Cell) (cells : List Cell) :
    depth (c :: cells) = shift c.text + depth cells := rfl

/-- **A place where an initializer can end**: a cell that starts with `;` or
`,`, with nothing open before it, given how deep the cells begin. That nothing
was closed too often on the way is not asked. -/
def EndsAt (level : Int) (cells : List Cell) (k : Nat) : Prop :=
  level + depth (cells.take k) = 0
    ∧ (cells[k]?.any fun stop => Token.startsWithAny ending stop.text) = true

instance (level : Int) (cells : List Cell) (k : Nat) :
    Decidable (EndsAt level cells k) :=
  inferInstanceAs (Decidable (_ ∧ _))

/-- **The depth falls below a floor** before the initializer can end. -/
def FallsBelow (floor : Int) (cells : List Cell) : Prop :=
  ∃ j, depth (cells.take j) < floor ∧ ∀ k < j, ¬ EndsAt 0 cells k

/-- An initializer can end at its first cell if nothing is open. -/
theorem endsAt_zero : EndsAt level (c :: cells) 0
    ↔ level = 0 ∧ Token.startsWithAny ending c.text = true := by
  simp [EndsAt]

/-- It can end further on if it could with the first cell gone through. -/
theorem endsAt_succ (k : Nat) : EndsAt level (c :: cells) (k + 1)
    ↔ EndsAt (level + shift c.text) cells k := by
  simp [EndsAt, Int.add_assoc]

/-- **An initializer has no end** exactly if, at each place where it could
have one, the depth has been below -1 before. By induction on the cells, at
any level that is not below -1 itself. -/
theorem cutInitializer?_eq_none_iff (hlevel : -1 ≤ level) :
    cutInitializer? level cells = none
      ↔ ∀ k, EndsAt level cells k →
        ∃ j ≤ k, level + depth (cells.take j) < -1 := by
  induction cells generalizing level with
  | nil =>
    refine iff_of_true rfl fun k hk => ?_
    rw [EndsAt, List.getElem?_nil] at hk
    cases hk.2
  | cons c cells ih =>
    have hshift := neg_one_le_shift c.text
    rcases cutInitializer?_step level c.text with
      ⟨hneg, hc, hcut⟩ | ⟨hzero, hend, hcut⟩ | ⟨hnonneg, hopen, hcut⟩
    · -- The first cell already brings the depth below -1.
      refine iff_of_true (hcut c cells rfl) fun k hk => ?_
      cases k with
      | zero =>
        have := (endsAt_zero.mp hk).1
        omega
      | succ k =>
        refine ⟨1, Nat.succ_le_succ (Nat.zero_le k), ?_⟩
        rw [List.take_succ_cons, List.take_zero, depth_cons, depth_nil]
        omega
    · rw [hcut c cells rfl]
      refine iff_of_false (Option.some_ne_none _) fun h => ?_
      obtain ⟨j, hj, hbelow⟩ := h 0 (endsAt_zero.mpr ⟨hzero, hend⟩)
      obtain rfl := Nat.le_zero.mp hj
      rw [List.take_zero, depth_nil] at hbelow
      omega
    -- the first cell is passed, and all places are one further on behind it
    · rw [hcut c cells rfl, Option.map_eq_none_iff, ih (by omega)]
      constructor
      · intro h k hk
        cases k with
        | zero =>
          obtain ⟨hzero, hend⟩ := endsAt_zero.mp hk
          rw [hopen hzero] at hend
          cases hend
        | succ k =>
          obtain ⟨j, hj, hbelow⟩ := h k ((endsAt_succ k).mp hk)
          refine ⟨j + 1, Nat.succ_le_succ hj, ?_⟩
          rw [List.take_succ_cons, depth_cons]
          omega
      · intro h k hk
        obtain ⟨j, hj, hbelow⟩ := h (k + 1) ((endsAt_succ k).mpr hk)
        cases j with
        | zero =>
          rw [List.take_zero, depth_nil] at hbelow
          omega
        | succ j =>
          rw [List.take_succ_cons, depth_cons] at hbelow
          exact ⟨j, Nat.le_of_succ_le_succ hj, by omega⟩

/-- **An initializer has no end** exactly if the depth falls below -1 before
there can be one, or there can be none anyway. -/
theorem cutInitializer?_zero_eq_none_iff : cutInitializer? 0 cells = none
    ↔ FallsBelow (-1) cells ∨ ∀ k, ¬ EndsAt 0 cells k := by
  rw [cutInitializer?_eq_none_iff (by decide)]
  constructor
  · intro h
    by_cases hends : ∃ k, EndsAt 0 cells k
    · -- The first place at which it could end is behind the fall.
      obtain ⟨j, hj, hbelow⟩ := h (Nat.find hends) (Nat.find_spec hends)
      rw [Int.zero_add] at hbelow
      exact Or.inl ⟨j, hbelow, fun k hk =>
        Nat.find_min hends (Nat.lt_of_lt_of_le hk hj)⟩
    · exact Or.inr (not_exists.mp hends)
  · rintro (⟨j, hbelow, hbefore⟩ | hnone) k hk
    · refine ⟨j, Nat.le_of_not_lt fun hlt => hbefore k hlt hk, ?_⟩
      rwa [Int.zero_add]
    · exact absurd hk (hnone k)

/-- A declaration with an initializer is split exactly if the initializer
has an end. -/
theorem atEquals?_eq_none_iff {type : List Cell} :
    atEquals? lead type name eq after pool = none
      ↔ cutInitializer? 0 after = none := by
  rw [atEquals?]
  cases cutInitializer? 0 after with
  | none => exact iff_of_true rfl rfl
  | some x =>
    refine iff_of_false ?_ (Option.some_ne_none x)
    dsimp only
    split <;> exact Option.some_ne_none _

/-- **A declaration with an initializer is left as it is** exactly if the
depth behind its `=` falls below -1 before the initializer can end, or if it
can end nowhere. This is said of every declaration of this shape. -/
theorem next?_eq_none_iff
    (hbefore : Token.startsWithAny ['{', '}', ';'] c.text = true)
    (hshape : shapeOf? (lead ++ eq :: after) = some shape)
    (hlen : lead.length = shape.before) (heq : eq.text = "=")
    (pool : SlotPool) :
    (next? c.text (lead ++ eq :: after) pool = none
        ↔ FallsBelow (-1) after ∨ ∀ k, ¬ EndsAt 0 after k)
      ∧ (FallsBelow (-1) after →
        splitDeclarations (c :: (lead ++ eq :: after)) pool
          = (splitDeclarations (lead ++ eq :: after) pool).cons c) := by
  obtain ⟨name, hname⟩ :=
    exists_nameCell? (mem_shapes_of_shapeOf? hshape).1 hlen
  have hne : ¬ (eq.text == ",") = true := by
    rw [heq]
    decide
  have hnext : next? c.text (lead ++ eq :: after) pool = none
      ↔ FallsBelow (-1) after ∨ ∀ k, ¬ EndsAt 0 after k := by
    rw [next?_of_shapeOf? hbefore hshape hlen hname, if_neg hne,
      atEquals?_eq_none_iff, cutInitializer?_zero_eq_none_iff]
  exact ⟨hnext, fun h =>
    splitDeclarations_of_next?_eq_none (hnext.mpr (Or.inl h))⟩

/-- Two closing brackets that belong to nothing in the initializer, with an
opening one behind them: the `;` is no end any more. -/
theorem next?_eq_none_iff_of_texts :
    let texts := [";", "int", "a", "=", "f", ")", ")", "(", "(", ";"]
    let chain := (ChainOp.run TokenChain.act .empty
      (texts.map fun s => .pushBack ⟨s, 1, .first⟩)).2
    let c := chain.cells[0]
    let lead := [chain.cells[1], chain.cells[2]]
    let eq := chain.cells[3]
    let after := chain.cells.drop 4
    chain.cells = c :: (lead ++ eq :: after)
      ∧ Token.startsWithAny ['{', '}', ';'] c.text = true
      ∧ shapeOf? (lead ++ eq :: after)
        = some ⟨.compile "%type% %var% =", 2, 1⟩
      ∧ EndsAt 0 after 5 ∧ FallsBelow (-1) after
      ∧ next? c.text (lead ++ eq :: after) chain.pool = none := by
  intro texts chain c lead eq after
  have hbefore : Token.startsWithAny ['{', '}', ';'] c.text = true := by
    decide +kernel
  have hshape : shapeOf? (lead ++ eq :: after)
      = some ⟨.compile "%type% %var% =", 2, 1⟩ := by
    decide +kernel
  have hfalls : FallsBelow (-1) after :=
    ⟨3, by decide +kernel, by decide +kernel⟩
  refine ⟨by decide +kernel, hbefore, hshape, by decide +kernel, hfalls, ?_⟩
  exact (next?_eq_none_iff hbefore hshape rfl (by decide +kernel) _).1.mpr
    (Or.inl hfalls)

/-- **An initializer may end outside its own braces**: the `}` that closes
the block around it does not end the search, and the `{` of the next block
brings the depth back. -/
theorem not_next?_eq_none :
    let texts := ["\x7b", "int", "a", "=", "3", "\x7d", "\x7b", "b", ";",
      "\x7d"]
    let chain := (ChainOp.run TokenChain.act .empty
      (texts.map fun s => .pushBack ⟨s, 1, .first⟩)).2
    let lead := [chain.cells[1], chain.cells[2]]
    let eq := chain.cells[3]
    let after := chain.cells.drop 4
    chain.tokens.map Token.text = texts
      ∧ shapeOf? (lead ++ eq :: after)
        = some ⟨.compile "%type% %var% =", 2, 1⟩
      ∧ FallsBelow 0 after
      ∧ next? "\x7b" (lead ++ eq :: after) chain.pool ≠ none
      ∧ (chain.edit splitDeclarations).2.tokens.map Token.text
        = ["\x7b", "int", "a", ";", "a", "=", "3", "\x7d", "\x7b", "b", ";",
          "\x7d"] := by
  intro texts chain lead eq after
  refine ⟨by decide +kernel, by decide +kernel, ?_, by decide +kernel,
    by decide +kernel⟩
  exact ⟨2, by decide +kernel, by decide +kernel⟩

/-! ## Initializers in brackets -/

/-- **Texts in which brackets come in pairs** and commas stand in brackets, or
anywhere if brackets are around them. Nothing in them is a brace or starts
with a `;`. -/
inductive Enclosed : Bool → List String → Prop
  | nil (inside : Bool) : Enclosed inside []
  | neutral {inside : Bool} {text : String} {texts : List String} :
    Neutral text → Enclosed inside texts → Enclosed inside (text :: texts)
  | comma {texts : List String} : Enclosed true texts →
    Enclosed true ("," :: texts)
  | group {inside : Bool} {inner texts : List String} : Enclosed true inner →
    Enclosed inside texts →
    Enclosed inside ("(" :: inner ++ ")" :: texts)

/-- What is cut off when the cells begin further left. -/
def appendCut (xs : List Cell) (x : List Cell × Cell × List Cell) :
    List Cell × Cell × List Cell :=
  (xs ++ x.1, x.2)

/-- A cell is a part of the initializer where it cannot end it. -/
theorem cutInitializer?_cons_of_not_ends (hlevel : 0 ≤ level)
    (hend : level = 0 → Token.startsWithAny ending c.text = false)
    (rest : List Cell) : cutInitializer? level (c :: rest)
      = (cutInitializer? (level + shift c.text) rest).map (consCut c) := by
  rcases cutInitializer?_step level c.text with
    ⟨hneg, -, -⟩ | ⟨hzero, hends, -⟩ | ⟨-, -, hcut⟩
  · exact absurd hneg (Int.not_lt.mpr hlevel)
  · rw [hend hzero] at hends
    cases hends
  · exact hcut c rest rfl

/-- A cell ends the initializer where it can. -/
theorem cutInitializer?_cons_of_ends
    (h : Token.startsWithAny ending c.text = true) (rest : List Cell) :
    cutInitializer? 0 (c :: rest) = some ([], c, rest) := by
  rcases cutInitializer?_step 0 c.text with
    ⟨hneg, -, -⟩ | ⟨-, -, hcut⟩ | ⟨-, hend, -⟩
  · exact absurd hneg (Int.lt_irrefl 0)
  · exact hcut c rest rfl
  · rw [hend rfl] at h
    cases h

theorem Neutral.shift_eq {text : String} (h : Neutral text) :
    shift text = 0 := by
  rw [shift, h.opening, h.closing]
  rfl

/-- **Enclosed cells are gone through from end to end**, and what comes behind
them decides. By induction on how they are enclosed, so that nesting is of no
account. -/
theorem Enclosed.cutInitializer? {inside : Bool} {texts : List String}
    (h : Enclosed inside texts) {xs : List Cell}
    (hxs : xs.map Cell.text = texts) (hlevel : 0 ≤ level)
    (hinside : inside = true → level ≠ 0) (rest : List Cell) :
    cutInitializer? level (xs ++ rest)
      = (Declaration.cutInitializer? level rest).map (appendCut xs) := by
  induction h generalizing xs level rest with
  | nil inside =>
    obtain rfl := List.map_eq_nil_iff.mp hxs
    exact (congrFun Option.map_id _).symm
  | neutral htext _ ih =>
    obtain ⟨c, ys, rfl, rfl, hys⟩ := List.map_eq_cons_iff.mp hxs
    rw [List.cons_append, cutInitializer?_cons_of_not_ends hlevel
      (fun _ => htext.ending), htext.shift_eq, Int.add_zero,
      ih hys hlevel hinside, Option.map_map]
    rfl
  | comma _ ih =>
    obtain ⟨c, xs, rfl, hc, hxs⟩ := List.map_eq_cons_iff.mp hxs
    have hshift : shift "," = 0 := by decide +kernel
    rw [List.cons_append, cutInitializer?_cons_of_not_ends hlevel
      (fun hzero => absurd hzero (hinside rfl)), hc, hshift, Int.add_zero,
      ih hxs hlevel hinside, Option.map_map]
    rfl
  | group _ _ ihinner ih =>
    obtain ⟨o, xs, rfl, ho, hxs⟩ := List.map_eq_cons_iff.mp hxs
    obtain ⟨ys, xs, rfl, hys, hxs⟩ := List.map_eq_append_iff.mp hxs
    obtain ⟨c, xs, rfl, hc, hxs⟩ := List.map_eq_cons_iff.mp hxs
    have hopen : Token.startsWithAny ending "(" = false := by decide +kernel
    have hclose : Token.startsWithAny ending ")" = false := by decide +kernel
    have hup : shift "(" = 1 := by decide +kernel
    have hdown : shift ")" = -1 := by decide +kernel
    rw [List.cons_append, List.append_assoc, List.cons_append,
      cutInitializer?_cons_of_not_ends hlevel (fun _ => ho ▸ hopen), ho, hup,
      ihinner hys (by omega) (fun _ => by omega),
      cutInitializer?_cons_of_not_ends (by omega) (fun _ => hc ▸ hclose), hc,
      hdown, Int.add_neg_cancel_right, ih hxs hlevel hinside]
    simp only [Option.map_map]
    refine Option.map_congr fun x _ => ?_
    simp [appendCut, consCut]

end Declaration

end FlatC
