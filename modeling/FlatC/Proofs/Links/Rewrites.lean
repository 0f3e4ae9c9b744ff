import FlatC.Proofs.Edit.Arithmetic
import FlatC.Proofs.Edit.Dropping
import FlatC.Proofs.Edit.Subscript
import FlatC.Proofs.Links.Rules

/-!
# Dropping, folding and subscripts in place

Three stages drop tokens directly behind the slot that a loop has come to,
and then go on by the link of that slot, or of one that is left.

* `unsigned` is dropped by two loops, one at the head and one behind it. The
  second stays at its slot for as long as it drops what comes next, so a turn
  of it leaves nothing behind, and the usual rule for loops does not apply:
  it is followed cell by cell instead.
* Arithmetic is folded by sweeps. At one slot a factor 1 may be dropped and
  then an operation carried out, which is looked for in what the first has
  left. Sweeps are repeated until one changes nothing.
* A subscript is written over four tokens, found by three links from the
  `*` on, and the two tokens behind the last of them are dropped.
-/

namespace FlatC

namespace Links

open Cell (entry slots)

variable {passed rest : List Cell} {c d : Cell} {p : SlotPool}

/-! ## `unsigned` -/

/-- Whether a slot holds `unsigned` and leads on. As the last token it is not
dropped. -/
def qualifies (tok : TokenId) : Links Bool := do
  return (← text tok) == "unsigned" && (← next tok).isSome

/-- **The head dropped** if it qualifies. The loop goes on at what is the head
then. -/
def droppingHead (tok : TokenId) : Links (Nat × Option TokenId) := do
  if ← qualifies tok then
    let _ ← removeHead
    return (1, ← head)
  else return (0, none)

/-- **What comes after a slot dropped** if it qualifies. The loop stays where
it is then, and goes on otherwise. -/
def droppingNext (tok : TokenId) : Links (Nat × Option TokenId) := do
  match ← next tok with
  | none => return (0, ← next tok)
  | some after =>
    if ← qualifies after then
      let _ ← removeNext tok
      return (1, some tok)
    else return (0, ← next tok)

/-- **`unsigned` dropped in place**, at the head and then behind it. The two
loops are needed because the head has no slot before it. -/
def dropInPlace : Links Nat := do
  let first ← along droppingHead (← head)
  let others ← along droppingNext (← head)
  return first + others

theorem makes_qualifies {k : List Cell} {r : Row}
    (h : r.cells = k ++ c :: rest) :
    Makes (qualifies c.slot) r (c.text == "unsigned" && !rest.isEmpty) r := by
  refine (makes_text (mem_of_split h)).bind ((makes_next h).bind ?_)
  cases rest <;> exact makes_pure _ r

/-- **The loop at the head** leaves cells of which the first one is not
dropped. What the pass drops is what this loop has dropped and what the pass
would drop of the rest. -/
theorem makes_droppingHead (cells : List Cell) (p : SlotPool) :
    ∃ n left q, Makes (along droppingHead (entry cells none)) ⟨cells, p⟩ n
        ⟨left, q⟩
      ∧ dropUnsigned cells p = (dropUnsigned left q).plus n
      ∧ ∀ c rest, left = c :: rest → c.text = "unsigned" → rest = [] := by
  -- along the pass: no token, the last token, one that is dropped, and one at
  -- which this loop ends
  fun_induction dropUnsigned cells p with
  | case1 p =>
    exact ⟨0, [], p, makes_along_none _, rfl, by simp⟩
  | case2 c p =>
    have hq : Makes (qualifies c.slot) ⟨[c], p⟩ _ _ :=
      makes_qualifies (k := []) rfl
    refine ⟨0, [c], p, ?_, rfl, by simp⟩
    exact (hq.bind (.of_neg (by simp) (makes_pure _ _))).along_some
      (makes_along_none _)
  | case3 c d rest p hc ih =>
    obtain ⟨n, left, q, hmakes, hsame, hleft⟩ := ih
    have hq : Makes (qualifies c.slot) ⟨c :: d :: rest, p⟩ _ _ :=
      makes_qualifies (k := []) rfl
    rw [hc] at hq
    refine ⟨1 + n, left, q, ?_, ?_, hleft⟩
    · have hturn : Makes (droppingHead c.slot) ⟨c :: d :: rest, p⟩
          (1, entry (d :: rest) none) ⟨d :: rest, p.give c.slot⟩ := by
        refine hq.bind (.of_pos rfl ((makes_removeHead rfl).bind ?_))
        exact (makes_head _).bind (makes_pure _ _)
      exact hturn.along_some hmakes
    · rw [hsame, Edit.plus_plus]
  | case4 c d rest p hc ih =>
    have hq : Makes (qualifies c.slot) ⟨c :: d :: rest, p⟩ _ _ :=
      makes_qualifies (k := []) rfl
    have hne : c.text ≠ "unsigned" := fun he => hc (beq_iff_eq.mpr he)
    refine ⟨0, c :: d :: rest, p, ?_, ?_, ?_⟩
    · exact (hq.bind (.of_neg (by simpa using hne)
        (makes_pure _ _))).along_some (makes_along_none _)
    · rw [dropUnsigned, if_neg hc]
      exact (Edit.plus_zero _).symm
    · rintro _ _ h he
      obtain ⟨rfl, -⟩ := List.cons.inj h
      exact absurd he hne

/-- Behind the last token nothing comes. -/
theorem makes_droppingNext_last {before : List Cell} {r : Row}
    (h : r.cells = before ++ [c]) :
    Makes (along droppingNext (some c.slot)) r 0 r := by
  have hturn : Makes (droppingNext c.slot) r (0, none) r := by
    refine (makes_next h).bind ?_
    exact makes_onward h 0
  exact hturn.along_some (makes_along_none r)

/-- Where what comes next does not qualify, the loop goes on to it. -/
theorem makes_droppingNext_on
    (hd : ¬ (d.text == "unsigned" && !rest.isEmpty) = true) :
    Makes (droppingNext c.slot) ⟨passed ++ c :: d :: rest, p⟩
      (0, some d.slot) ⟨passed ++ c :: d :: rest, p⟩ := by
  have hnext : Makes (next c.slot) ⟨passed ++ c :: d :: rest, p⟩
      (entry (d :: rest) none) ⟨passed ++ c :: d :: rest, p⟩ := makes_next rfl
  have hq : Makes (qualifies d.slot) ⟨passed ++ c :: d :: rest, p⟩ _ _ :=
    makes_qualifies (List.append_cons ..)
  exact hnext.bind (hq.bind (.of_neg hd (hnext.bind (makes_pure _ _))))

/-- **The loop behind the head** drops of what comes after a slot what the
pass drops. -/
theorem makes_droppingNext (passed : List Cell) (c : Cell)
    (rest : List Cell) (p : SlotPool) :
    Makes (along droppingNext (some c.slot)) ⟨passed ++ c :: rest, p⟩
      (dropUnsigned rest p).count
      ⟨passed ++ c :: (dropUnsigned rest p).cells,
        (dropUnsigned rest p).pool⟩ := by
  -- what comes after the slot becomes less, or the loop goes on to it
  fun_induction dropUnsigned rest p generalizing passed c with
  | case1 p => exact makes_droppingNext_last rfl
  | case2 d p =>
    have hturn : Makes (droppingNext c.slot) ⟨passed ++ c :: [d], p⟩
        (0, some d.slot) ⟨passed ++ c :: [d], p⟩ :=
      makes_droppingNext_on (by simp)
    exact hturn.along_some (makes_droppingNext_last (List.append_cons ..))
  | case3 d e rest p hd ih =>
    have hq : Makes (qualifies d.slot) ⟨passed ++ c :: d :: e :: rest, p⟩ _ _ :=
      makes_qualifies (List.append_cons ..)
    rw [hd] at hq
    have hturn : Makes (droppingNext c.slot)
        ⟨passed ++ c :: d :: e :: rest, p⟩ (1, some c.slot)
        ⟨passed ++ c :: e :: rest, p.give d.slot⟩ := by
      refine (makes_next rfl).bind (hq.bind (.of_pos rfl ?_))
      exact (makes_removeNext rfl).bind (makes_pure _ _)
    exact hturn.along_some (ih passed c)
  | case4 d e rest p hd ih =>
    have hturn : Makes (droppingNext c.slot)
        ⟨passed ++ c :: d :: e :: rest, p⟩ (0, some d.slot)
        ⟨passed ++ c :: d :: e :: rest, p⟩ :=
      makes_droppingNext_on (by simpa using hd)
    have hrest := ih (passed ++ [c]) d
    rw [← List.append_cons, ← List.append_cons] at hrest
    have hboth := hturn.along_some hrest
    rwa [Nat.zero_add] at hboth

/-- **`unsigned` dropped in place** is what the pass drops. -/
theorem makes_dropInPlace (cells : List Cell) (p : SlotPool) :
    Makes dropInPlace ⟨cells, p⟩ (dropUnsigned cells p).count
      (dropUnsigned cells p).row := by
  obtain ⟨n, left, q, hfirst, hsame, hleft⟩ := makes_droppingHead cells p
  refine (makes_head _).bind (hfirst.bind ((makes_head _).bind ?_))
  rw [hsame]
  cases left with
  | nil => exact (makes_along_none _).bind (makes_pure _ _)
  | cons c rest =>
    rw [dropUnsigned_of_passed (hleft c rest rfl)]
    exact (makes_droppingNext [] c rest q).bind (makes_pure _ _)

/-! ## Arithmetic -/

/-- **A factor 1 dropped** that comes directly after a slot. The texts are all
read beforehand, and those past the end are empty. -/
def dropUnitAt (tok : TokenId) : Links Nat := do
  let first ← textAt tok 1
  let second ← textAt tok 2
  let whole := (← textAt tok 3) != "."
  let before ← text tok
  let removable :=
    if (first == "*" || first == "/") && second == "1" then whole
    else if first == "1" && second == "*" then
      before != "/" && before != "%" && before != "."
    else false
  if removable then
    let _ ← removeNextN tok 2
    return 1
  else return 0

/-- **The result of the operation that comes directly after a slot**, if it
can be carried out: where it goes, and its text. -/
def resultAt (tok : TokenId) : Links (Option (TokenId × String)) := do
  if Token.startsWithAny Arithmetic.leftEdges (← text tok) then
    match ← nth tok 1, ← nth tok 4 with
    | some left, some right =>
      if Token.startsWithAny Arithmetic.rightEdges (← text right) then
        match Arithmetic.operand? (← text left),
          Arithmetic.operand? (← textAt tok 3) with
        | some a, some b =>
          return (Arithmetic.value? (← textAt tok 2) a b).map fun value =>
            (left, Numeral.signedText value)
        | _, _ => return none
      else return none
    | _, _ => return none
  else return none

/-- **A factor 1 dropped and an operation carried out** after a slot. The
sweep goes on behind the result, if there is one. -/
def folding (tok : TokenId) : Links (Nat × Option TokenId) := do
  let dropped ← dropUnitAt tok
  match ← resultAt tok with
  | none => return (dropped, ← next tok)
  | some (left, value) =>
    setText left value
    let _ ← removeNextN left 2
    return (dropped + 1, ← next left)

/-- A sweep from the head, after which there is another if it has changed
anything. The place is no slot: the head is read anew each time. -/
def sweeping (_ : Unit) : Links (Nat × Option Unit) := do
  let changed ← along folding (← head)
  return (changed, if changed = 0 then none else some ())

/-- **Arithmetic folded in place**: sweeps until one changes nothing. -/
def foldInPlace : Links Nat := along sweeping (some ())

/-- What is dropped is read off the text of the slot and of three more. -/
theorem unitNext_eq (before : String) (c : Cell) (rest : List Cell) :
    let textAt n := ((c :: rest)[n]?.map Cell.text).getD ""
    Arithmetic.unitNext before rest
      = if (textAt 1 == "*" || textAt 1 == "/") && textAt 2 == "1" then
          textAt 3 != "."
        else if textAt 1 == "1" && textAt 2 == "*" then
          before != "/" && before != "%" && before != "."
        else false := by
  intro textAt
  rcases rest with _ | ⟨a, _ | ⟨b, _ | ⟨d, more⟩⟩⟩
  · rfl
  · have hsecond : textAt 2 = "" := rfl
    simp [hsecond, Arithmetic.unitNext]
  · rfl
  · rfl

/-- A factor is dropped exactly where the pass drops one, by two removals
behind the slot in front of it. -/
theorem makes_dropUnitAt :
    let e := Arithmetic.dropUnit c.text rest p
    Makes (dropUnitAt c.slot) ⟨passed ++ c :: rest, p⟩ e.count
      ⟨passed ++ c :: e.cells, e.pool⟩ := by
  intro e
  refine (makes_textAt rfl 1).bind ((makes_textAt rfl 2).bind
    ((makes_textAt rfl 3).bind ((makes_text (by simp)).bind ?_)))
  have hunit := unitNext_eq c.text c rest
  dsimp only at hunit ⊢
  rw [← hunit]
  show Makes _ _ (Arithmetic.dropUnit c.text rest p).count
    ⟨passed ++ c :: (Arithmetic.dropUnit c.text rest p).cells,
      (Arithmetic.dropUnit c.text rest p).pool⟩
  rw [Arithmetic.dropUnit]
  split
  · exact (makes_removeNextN rfl 2).bind (makes_pure 1 _)
  · exact makes_pure 0 _

/-- **The result is read** off the text of the slot and of four more. All five
are there exactly when the right edge is found. -/
theorem makes_resultAt :
    Makes (resultAt c.slot) ⟨passed ++ c :: rest, p⟩
      ((Arithmetic.nextResult? c.text rest).map fun r => (r.slot, r.text))
      ⟨passed ++ c :: rest, p⟩ := by
  refine (makes_text (by simp)).bind ?_
  -- with fewer than four tokens behind the slot there is no right edge to
  -- read
  by_cases hlength : 4 ≤ rest.length
  · match rest, hlength with
    | a :: op :: b :: right :: more, _ =>
      let r : Row := ⟨passed ++ c :: a :: op :: b :: right :: more, p⟩
      have hleft : Makes (nth c.slot 1) r (some a.slot) r :=
        makes_nth_some rfl rfl
      have hright : Makes (nth c.slot 4) r (some right.slot) r :=
        makes_nth_some rfl rfl
      have hsecond : Makes (textAt c.slot 3) r b.text r :=
        makes_textAt_some rfl rfl
      have hop : Makes (textAt c.slot 2) r op.text r :=
        makes_textAt_some rfl rfl
      have htext : ∀ x ∈ [a, right], Makes (text x.slot) r x.text r :=
        fun x hx => makes_text (by
          rcases List.mem_pair.mp hx with rfl | rfl <;> simp [r])
      rw [Arithmetic.nextResult?]
      cases Token.startsWithAny Arithmetic.leftEdges c.text with
      | false => exact makes_pure none r
      | true =>
        refine .of_pos rfl (hleft.bind (hright.bind
          ((htext right (by simp)).bind ?_)))
        cases Token.startsWithAny Arithmetic.rightEdges right.text with
        | false => exact makes_pure none r
        | true =>
          refine .of_pos rfl ((htext a (by simp)).bind (hsecond.bind ?_))
          rw [Bool.true_and, if_pos rfl]
          cases Arithmetic.operand? a.text with
          | none => exact makes_pure none r
          | some m =>
            cases Arithmetic.operand? b.text with
            | none => exact makes_pure none r
            | some n =>
              refine hop.bind ?_
              rw [Option.map_map]
              exact makes_pure _ r
  · have hnone : Arithmetic.nextResult? c.text rest = none := by
      refine Option.eq_none_iff_forall_ne_some.mpr fun d hd => ?_
      exact hlength (Arithmetic.length_of_nextResult? hd)
    have hend : entry ((c :: rest).drop 4) none = none := by
      rw [List.drop_eq_nil_of_le (by rw [List.length_cons]; omega)]
      rfl
    have hright := makes_nth (r := ⟨passed ++ c :: rest, p⟩) rfl 4
    rw [hend] at hright
    rw [hnone]
    split
    · refine (makes_nth rfl 1).bind (hright.bind ?_)
      split
      · next heq => cases heq
      · exact makes_pure none _
    · exact makes_pure none _

/-- The result is written over the first operand of an operation, and the
two tokens after that are dropped. -/
theorem makes_result (before more : List Cell) (a op b : Cell) (v : String)
    (n : Nat) (q : SlotPool) :
    Makes (do
        setText a.slot v
        let _ ← removeNextN a.slot 2
        return (n, ← next a.slot))
      ⟨before ++ a :: op :: b :: more, q⟩ (n, entry more none)
      ⟨before ++ a.withText v :: more, q.giveAll [op, b]⟩ := by
  refine (makes_setText (x := a) rfl v).bind ?_
  refine (makes_removeNextN (x := a.withText v) rfl 2).bind ?_
  exact makes_onward (x := a.withText v) rfl n

/-- Each turn leaves its own cell behind, and the result of an operation
behind that, so a result is not an operand of the same sweep. -/
theorem steps_folding : Steps folding Arithmetic.sweep where
  nil _ := by rw [Arithmetic.sweep]
  cons passed c rest p := by
    let e := Arithmetic.dropUnit c.text rest p
    have hdrop : Makes (dropUnitAt c.slot) ⟨passed ++ c :: rest, p⟩ e.count
        ⟨passed ++ c :: e.cells, e.pool⟩ := makes_dropUnitAt
    have hresult : Makes (resultAt c.slot) ⟨passed ++ c :: e.cells, e.pool⟩
        ((Arithmetic.nextResult? c.text e.cells).map fun r => (r.slot, r.text))
        ⟨passed ++ c :: e.cells, e.pool⟩ := makes_resultAt
    -- the operation is looked for in what dropping a factor has left, as in
    -- the pass
    cases hnext : Arithmetic.nextResult? c.text e.cells with
    | none =>
      rw [hnext] at hresult
      refine ⟨e.count, [c], e.cells, e.pool, List.cons_ne_nil _ _,
        hdrop.bind (hresult.bind ?_), ?_⟩
      · exact makes_onward rfl e.count
      · rw [Arithmetic.sweep, hnext]
        rfl
    | some result =>
      rw [hnext] at hresult
      obtain ⟨a, op, b, more, v, hcells, rfl⟩ :=
        Arithmetic.exists_of_nextResult? hnext
      have hwritten := makes_result (passed ++ [c]) more a op b
        (Numeral.signedText v) (e.count + 1) e.pool
      rw [← List.append_cons, ← List.append_cons, ← hcells] at hwritten
      refine ⟨e.count + 1, [c, a.withText (Numeral.signedText v)],
        e.cells.drop 3, e.pool.giveAll ((e.cells.drop 1).take 2),
        List.cons_ne_nil _ _, hdrop.bind (hresult.bind ?_), ?_⟩
      · rw [hcells] at hwritten ⊢
        exact hwritten
      · rw [Arithmetic.sweep, hnext]

/-- **Arithmetic folded in place** is what the pass folds. That the sweeps
come to an end is from the recursion of the pass, each of whose sweeps but the
last makes the cells fewer. -/
theorem makes_foldInPlace (cells : List Cell) (p : SlotPool) :
    Makes foldInPlace ⟨cells, p⟩ (foldArithmetic cells p).count
      (foldArithmetic cells p).row := by
  fun_induction foldArithmetic cells p with
  | case1 cells p r hzero =>
    have hturn : Makes (sweeping ()) ⟨cells, p⟩ (r.count, none) r.row := by
      refine (makes_head _).bind ((steps_folding.does [] cells p).bind ?_)
      rw [if_pos hzero]
      exact makes_pure _ _
    exact hturn.along_some (makes_along_none _)
  | case2 cells p r hne ih =>
    have hturn : Makes (sweeping ()) ⟨cells, p⟩ (r.count, some ()) r.row := by
      refine (makes_head _).bind ((steps_folding.does [] cells p).bind ?_)
      rw [if_neg hne]
      exact makes_pure _ _
    exact hturn.along_some ih

/-! ## Subscripts -/

/-- **Texts written** one after another from a slot on, along the links, and
the slot that the last one went to. A chain that ends too early leaves the
other texts unwritten. -/
def writeAll (tok : TokenId) : List String → Links TokenId
  | [] => return tok
  | [last] => do
    setText tok last
    return tok
  | first :: second :: more => do
    setText tok first
    match ← next tok with
    | none => return tok
    | some after => writeAll after (second :: more)

/-- **A subscript written** where one comes next after a slot. The loop goes
on behind it, by the link of the last slot written. -/
def subscripting (tok : TokenId) : Links (Nat × Option TokenId) := do
  if Token.startsWithAny Subscript.contexts (← text tok) then
    match ← next tok with
    | none => return (0, none)
    | some star =>
      if ← holds Subscript.shape star then
        let var ← textAt star 2
        let index ← textAt star 4
        let last ← writeAll star [var, "[", index, "]"]
        let _ ← removeNextN last 2
        return (1, ← next last)
      else return (0, some star)
  else return (0, ← next tok)

/-- **Texts written over as many cells.** The cells stay where they are, in
the order of the texts. -/
theorem makes_writeAll (before more : List Cell) (x : Cell) (xs : List Cell)
    (s : String) (ts : List String) (h : xs.length = ts.length) :
    Makes (writeAll x.slot (s :: ts)) ⟨before ++ x :: (xs ++ more), p⟩
      ((x :: xs).getLast (List.cons_ne_nil _ _)).slot
      ⟨before ++ (List.zipWith Cell.withText (x :: xs) (s :: ts) ++ more),
        p⟩ := by
  induction ts generalizing before x xs s with
  | nil =>
    obtain rfl := List.eq_nil_of_length_eq_zero h
    exact (makes_setText (x := x) rfl s).bind (makes_pure _ _)
  | cons t ts ih =>
    match xs, h with
    | y :: ys, h =>
      have hrest := ih (before ++ [x.withText s]) y ys t (Nat.succ.inj h)
      rw [← List.append_cons, List.append_assoc] at hrest
      refine (makes_setText (x := x) rfl s).bind ?_
      refine (makes_next (x := x.withText s) rfl).bind ?_
      exact hrest

/-- **A turn that finds no subscript** goes on to the next cell. Either the
text before is no context or the shape does not hold, and the program reads
them in this order. -/
theorem makes_subscripting_of_none
    (hnext : Subscript.next? c.text rest = none) (passed : List Cell) :
    Makes (subscripting c.slot) ⟨passed ++ c :: rest, p⟩ (0, entry rest none)
      ⟨passed ++ ([c] ++ rest), p⟩ := by
  have hsettled := Subscript.settled_iff.mp hnext
  refine (makes_text (by simp)).bind ?_
  split
  · next hcontext =>
    rw [hcontext, Bool.true_and] at hsettled
    refine (makes_next rfl).bind ?_
    cases rest with
    | nil => exact makes_pure _ _
    | cons star more =>
      have hholds : Makes (holds Subscript.shape star.slot)
          ⟨passed ++ c :: star :: more, p⟩ false
          ⟨passed ++ c :: star :: more, p⟩ := by
        have hshape := makes_holds (r := ⟨passed ++ c :: star :: more, p⟩)
          (List.append_cons passed c (star :: more)) Subscript.shape
        rwa [hsettled] at hshape
      exact hholds.bind (makes_pure _ _)
  · exact makes_onward rfl 0

/-- **A turn that finds a subscript** writes it over the first four cells of
the sum and drops the other two, which are behind the last slot written. -/
theorem makes_subscripting_of_some {written dropped more : List Cell}
    (hnext : Subscript.next? c.text rest = some (written, dropped, more))
    (passed : List Cell) :
    Makes (subscripting c.slot) ⟨passed ++ c :: rest, p⟩ (1, entry more none)
      ⟨passed ++ (c :: written ++ more), p.giveAll dropped⟩ := by
  obtain ⟨hcontext, star, paren, var, plus, num, close, hrest, hwritten,
    hdropped, -⟩ := Subscript.cells_of_next? hnext
  subst hrest hwritten hdropped
  -- the slots of `*` and of the three cells after it stay, with other texts
  let stays : List Cell := [star.withText var.text, paren.withText "[",
    var.withText num.text, plus.withText "]"]
  let r : Row :=
    ⟨passed ++ c :: star :: paren :: var :: plus :: num :: close :: more, p⟩
  have hopens : Subscript.shape.opens
      (star :: paren :: var :: plus :: num :: close :: more) = true := by
    by_contra hno
    rw [Subscript.settled_iff.mpr (by simp [hno])] at hnext
    cases hnext
  have hr : r.cells
      = (passed ++ [c]) ++ star :: paren :: var :: plus :: num :: close :: more :=
    List.append_cons _ _ _
  have hholds := makes_holds hr Subscript.shape
  rw [hopens] at hholds
  have hvar : Makes (textAt star.slot 2) r var.text r := makes_textAt_some hr rfl
  have hindex : Makes (textAt star.slot 4) r num.text r :=
    makes_textAt_some hr rfl
  have hwrite : Makes (writeAll star.slot [var.text, "[", num.text, "]"]) r
      plus.slot ⟨passed ++ c :: (stays ++ num :: close :: more), p⟩ := by
    have hfour := makes_writeAll (p := p) (passed ++ [c])
      (num :: close :: more) star [paren, var, plus] var.text
      ["[", num.text, "]"] rfl
    rw [← List.append_cons, ← List.append_cons] at hfour
    exact hfour
  have hwritten : passed ++ c :: (stays ++ num :: close :: more)
      = passed ++ c :: stays.dropLast
        ++ plus.withText "]" :: num :: close :: more := by simp [stays]
  refine (makes_text (by simp)).bind (.of_pos hcontext ?_)
  refine (makes_next rfl).bind (hholds.bind (hvar.bind (hindex.bind ?_)))
  refine hwrite.bind ?_
  refine (makes_removeNextN (x := plus.withText "]") hwritten 2).bind ?_
  have hgone := makes_onward (r := ⟨passed ++ c :: stays.dropLast
    ++ plus.withText "]" :: more, p.giveAll [num, close]⟩) rfl 1
  simpa [stays] using hgone

/-- Each turn leaves its own cell behind, with the four of a subscript where
one was written. -/
theorem steps_subscripting : Steps subscripting writeSubscripts where
  nil _ := by rw [writeSubscripts]
  cons passed c rest p := by
    cases hnext : Subscript.next? c.text rest with
    | none =>
      refine ⟨0, [c], rest, p, List.cons_ne_nil _ _,
        makes_subscripting_of_none hnext passed, ?_⟩
      rw [writeSubscripts_of_next?_eq_none hnext, Edit.plus_zero]
      rfl
    | some found =>
      obtain ⟨written, dropped, more⟩ := found
      exact ⟨1, c :: written, more, p.giveAll dropped, List.cons_ne_nil _ _,
        makes_subscripting_of_some hnext passed, writeSubscripts_of_next? hnext⟩

end Links

end FlatC
