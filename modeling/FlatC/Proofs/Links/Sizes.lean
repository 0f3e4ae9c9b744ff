import FlatC.Proofs.Edit.Arrays
import FlatC.Proofs.Edit.Sizeof
import FlatC.Proofs.Links.Rules

/-!
# Evaluating `sizeof` in place

Three loops have to do with sizes. One reads all tokens and puts down the
classes and structures that are named; it edits nothing. One replaces the
`sizeof` of types, at the place it has come to. The third one looks for the
declarations of arrays. Before it looks at one it looks up the slot to go on
at, and then an inner loop goes over all that comes after the declaration and
drops tokens there, up to the end of the block.

So a slot is held that was looked up before tokens were dropped, and it has
to be live afterwards. It is, because it is the slot of the name that is
declared: the inner loop begins at the `;` of the declaration, four tokens
behind it, and at each place it drops only what comes after.
-/

namespace FlatC

namespace Links

open Cell (entry slots)

variable {passed rest ahead : List Cell} {c : Cell} {p : SlotPool}

/-! ## The sizes of classes and structures -/

/-- The size recorded for the class or structure that is named at a slot. The
two shapes begin with different words, so at most one of them holds. -/
def recordedAt (tok : TokenId) : Links (Option Nat) := do
  if ← holds TypeSizes.classShape tok then return some TypeSizes.ofClass
  else if ← holds TypeSizes.structShape tok then
    return some TypeSizes.ofStruct
  else return none

/-- A size added if a class or structure is named at a slot, given the sizes
so far and how many were added. What the loop comes to is a table, so it is
not counted like the others. -/
def naming : (TypeSizes × Nat) × Option TokenId →
    Links (TypeSizes × Nat ⊕ (TypeSizes × Nat) × Option TokenId)
  | (found, none) => return .inl found
  | ((sizes, n), some tok) => do
    match ← recordedAt tok with
    | none => return .inr ((sizes, n), ← next tok)
    | some size =>
      let name ← textAt tok 1
      return .inr ((sizes.insert name size, n + 1), ← next tok)

/-- **The sizes of the classes and structures named from a slot on** added,
and how often one is named. -/
def addNamed (sizes : TypeSizes) (place : Option TokenId) :
    Links (TypeSizes × Nat) :=
  loop naming ((sizes, 0), place)

/-- What is recorded of a name is read off the same two cells, in the order in
which the loop reads them. -/
theorem named?_map_snd (c : Cell) (rest : List Cell) :
    (TypeSizes.named? (c :: rest)).map Prod.snd
      = if TypeSizes.classShape.opens (c :: rest) then some TypeSizes.ofClass
        else if TypeSizes.structShape.opens (c :: rest) then
          some TypeSizes.ofStruct
        else none := by
  cases rest with
  | nil =>
    simp [TypeSizes.named?, Pattern.opens, TypeSizes.pieces_classShape,
      TypeSizes.pieces_structShape]
  | cons name rest =>
    rw [TypeSizes.named?]
    split_ifs <;> rfl

/-- The size is read without an edit. -/
theorem makes_recordedAt :
    Makes (recordedAt c.slot) ⟨passed ++ c :: rest, p⟩
      ((TypeSizes.named? (c :: rest)).map Prod.snd)
      ⟨passed ++ c :: rest, p⟩ := by
  rw [named?_map_snd]
  exact (makes_holds rfl _).bind (makes_ite (makes_pure _ _)
    ((makes_holds rfl _).bind (makes_ite (makes_pure _ _) (makes_pure _ _))))

/-- What is named is the second cell, so the name can be read at one link from
the slot. -/
theorem exists_of_named? {name : String} {size : Nat}
    (h : TypeSizes.named? (c :: rest) = some (name, size)) :
    ∃ d more, rest = d :: more ∧ d.text = name := by
  cases rest with
  | nil => cases h
  | cons d more =>
    rw [TypeSizes.named?] at h
    refine ⟨d, more, rfl, ?_⟩
    split_ifs at h
    · exact congrArg Prod.fst (Option.some.inj h)
    · exact congrArg Prod.fst (Option.some.inj h)

/-- What the loop over the names adds to the sizes found so far, from any
sizes on and with anything counted before. -/
theorem makes_naming (sizes : TypeSizes) (n : Nat) (passed ahead : List Cell)
    (p : SlotPool) :
    Makes (loop naming ((sizes, n), entry ahead none)) ⟨passed ++ ahead, p⟩
      ((TypeSizes.addNamed sizes ahead).1,
        n + (TypeSizes.addNamed sizes ahead).2) ⟨passed ++ ahead, p⟩ := by
  -- cell by cell, with any table and count: the table grows on the way
  induction ahead generalizing passed sizes n with
  | nil => exact .loop_ends (makes_pure _ _)
  | cons c rest ih =>
    let r : Row := ⟨passed ++ c :: rest, p⟩
    have hrest : ∀ sizes n, Makes (loop naming ((sizes, n), entry rest none)) r
        ((TypeSizes.addNamed sizes rest).1,
          n + (TypeSizes.addNamed sizes rest).2) r := fun sizes n => by
      have h := ih sizes n (passed ++ [c])
      rwa [← List.append_cons] at h
    have hnext : Makes (next c.slot) r (entry rest none) r := makes_next rfl
    have hrecorded : Makes (recordedAt c.slot) r
        ((TypeSizes.named? (c :: rest)).map Prod.snd) r := makes_recordedAt
    cases hnamed : TypeSizes.named? (c :: rest) with
    | none =>
      rw [hnamed] at hrecorded
      have hturn : Makes (naming ((sizes, n), some c.slot)) r
          (.inr ((sizes, n), entry rest none)) r :=
        hrecorded.bind (hnext.bind (makes_pure _ _))
      simp only [TypeSizes.addNamed, hnamed]
      exact hturn.loop_goes (hrest sizes n)
    | some one =>
      obtain ⟨name, size⟩ := one
      obtain ⟨d, more, rfl, rfl⟩ := exists_of_named? hnamed
      have hname : Makes (textAt c.slot 1) r d.text r :=
        makes_textAt_some rfl rfl
      rw [hnamed] at hrecorded
      have hturn : Makes (naming ((sizes, n), some c.slot)) r
          (.inr ((sizes.insert d.text size, n + 1),
            entry (d :: more) none)) r :=
        hrecorded.bind (hname.bind (hnext.bind (makes_pure _ _)))
      have hgoes := hturn.loop_goes (hrest _ _)
      simp only [TypeSizes.addNamed, hnamed]
      rwa [Nat.add_assoc, Nat.add_comm 1] at hgoes

/-- **The loop over the names** adds what the recursion on cells does, and
leaves the chain alone. -/
theorem makes_addNamed (sizes : TypeSizes) (passed ahead : List Cell)
    (p : SlotPool) :
    Makes (addNamed sizes (entry ahead none)) ⟨passed ++ ahead, p⟩
      (TypeSizes.addNamed sizes ahead) ⟨passed ++ ahead, p⟩ := by
  have h := makes_naming sizes 0 passed ahead p
  rwa [Nat.zero_add] at h

/-! ## The `sizeof` of types -/

/-- **The `sizeof` of a type that begins at a slot**: its number, and how
many tokens it takes after the word itself. -/
def sizeofAt (sizes : TypeSizes) (pointer : Nat) (tok : TokenId) :
    Links (Option (Nat × Nat)) := do
  if (← text tok) == "sizeof" then
    if ← holds Sizeof.pointerShape tok then return some (pointer, 4)
    else if ← holds Sizeof.plainShape tok then
      let size := sizes.sizeOf (← textAt tok 2)
      if size > 0 then return some (size, 3) else return none
    else return none
  else return none

/-- **A `sizeof` replaced** by its number, what comes after the word being
dropped. The slot of the word stays, and the loop goes on by its link. -/
def evaluating (sizes : TypeSizes) (pointer : Nat) (tok : TokenId) :
    Links (Nat × Option TokenId) := do
  match ← sizeofAt sizes pointer tok with
  | none => return (0, ← next tok)
  | some (size, n) =>
    setText tok (Numeral.text size)
    let _ ← removeNextN tok n
    return (1, ← next tok)

/-- **What the pass reads** of the cells from a slot on, in the order in
which the loop reads it. -/
theorem value?_eq (sizes : TypeSizes) (pointer : Nat) (c : Cell)
    (rest : List Cell) :
    let size := sizes.sizeOf (((c :: rest)[2]?.map Cell.text).getD "")
    Sizeof.value? sizes pointer (c :: rest)
      = if c.text == "sizeof" then
          if Sizeof.pointerShape.opens (c :: rest) then some (pointer, 4)
          else if Sizeof.plainShape.opens (c :: rest) then
            if size > 0 then some (size, 3) else none
          else none
        else none := by
  intro size
  -- both shapes begin with the word, so it may be asked for first
  by_cases hc : c.text = "sizeof"
  · rw [if_pos (beq_iff_eq.mpr hc)]
    rcases rest with _ | ⟨_, _ | ⟨type, more⟩⟩
    · simp [Sizeof.value?, Pattern.opens, Sizeof.pieces_pointerShape,
        Sizeof.pieces_plainShape]
    · simp [Sizeof.value?, Pattern.opens, Sizeof.pieces_pointerShape,
        Sizeof.pieces_plainShape]
    · have hsize : size = sizes.sizeOf type.text := rfl
      rw [Sizeof.value?, hsize]
      by_cases hzero : sizes.sizeOf type.text = 0
      · simp [hzero]
      · simp [hzero, Nat.pos_of_ne_zero hzero]
  · have hword : ("sizeof" == c.text) = false := beq_false_of_ne (Ne.symm hc)
    rw [if_neg (by simpa using hc)]
    rcases rest with _ | ⟨_, _ | ⟨_, _⟩⟩ <;>
      simp [Sizeof.value?, Pattern.opens, Sizeof.pieces_pointerShape,
        Sizeof.pieces_plainShape, hword]

/-- The value is what the pass reads. -/
theorem makes_sizeofAt (sizes : TypeSizes) (pointer : Nat) :
    Makes (sizeofAt sizes pointer c.slot) ⟨passed ++ c :: rest, p⟩
      (Sizeof.value? sizes pointer (c :: rest)) ⟨passed ++ c :: rest, p⟩ := by
  rw [value?_eq]
  exact (makes_text (by simp)).bind (makes_ite
    ((makes_holds rfl _).bind (makes_ite (makes_pure _ _)
      ((makes_holds rfl _).bind (makes_ite
        ((makes_textAt rfl 2).bind (makes_ite (makes_pure _ _)
          (makes_pure _ _)))
        (makes_pure _ _)))))
    (makes_pure _ _))

/-- Each turn leaves one cell behind, the word or its number. In the latter
case as many cells behind it are removed as the shape has. -/
theorem steps_evaluating (sizes : TypeSizes) (pointer : Nat) :
    Steps (evaluating sizes pointer) (evalSizeof sizes pointer) where
  nil _ := by rw [evalSizeof]
  cons passed c rest p := by
    have hread : Makes (sizeofAt sizes pointer c.slot) ⟨passed ++ c :: rest, p⟩
        (Sizeof.value? sizes pointer (c :: rest)) ⟨passed ++ c :: rest, p⟩ :=
      makes_sizeofAt sizes pointer
    cases hvalue : Sizeof.value? sizes pointer (c :: rest) with
    | none =>
      rw [hvalue] at hread
      refine ⟨0, [c], rest, p, List.cons_ne_nil _ _, hread.bind ?_, ?_⟩
      · exact makes_onward rfl _
      · rw [evalSizeof, hvalue]
        exact (Edit.plus_zero _).symm
    | some found =>
      obtain ⟨size, n⟩ := found
      rw [hvalue] at hread
      refine ⟨1, [c.withText (Numeral.text size)], rest.drop n,
        p.giveAll (rest.take n), List.cons_ne_nil _ _, hread.bind ?_, ?_⟩
      · refine (makes_setText rfl _).bind ?_
        refine (makes_removeNextN (x := c.withText (Numeral.text size))
          rfl n).bind ?_
        exact makes_onward (x := c.withText (Numeral.text size)) rfl _
      · rw [evalSizeof, hvalue]
        rfl

/-! ## The `sizeof` of arrays -/

/-- **The array declared at a slot**, by name, and its size in bytes. A size
of 0, and one that is more than a word can hold, are as if there were no
declaration. -/
def declaredAt (sizes : TypeSizes) (tok : TokenId) :
    Links (Option (String × Nat)) := do
  if ← holds ArraySizeof.shape tok then
    let size := sizes.sizeOf (← text tok)
    if size == 0 then return none
    else
      let total := size * ArraySizeof.elements (← textAt tok 3)
      if total ≤ Numeral.maxWord64 then
        return some (← textAt tok 1, total)
      else return none
  else return none

/-- Whether the size of a variable of this name begins at a slot. The name is
read only where the shape holds. -/
def useAt (name : String) (tok : TokenId) : Links Bool := do
  if ← holds ArraySizeof.useShape tok then
    return (← textAt tok 2) == name
  else return false

/-- **A use of one array's size replaced**, given how many blocks have been
opened since its declaration. The loop ends with the block that the
declaration stands in. The depth goes below zero only there, and nothing is
read behind that. -/
def replacing (name total : String) (place : TokenId × Int) :
    Links (Nat × Option (TokenId × Int)) := do
  let (tok, depth) := place
  let first ← text tok
  if Token.startsWithAny ['{'] first then
    return (0, (← next tok).map (·, depth + 1))
  else if Token.startsWithAny ['}'] first then
    if depth - 1 < 0 then return (0, none)
    else return (0, (← next tok).map (·, depth - 1))
  else if ← useAt name tok then
    setText tok total
    let _ ← removeNextN tok 3
    return (1, (← next tok).map (·, depth))
  else return (0, (← next tok).map (·, depth))

/-- **An array's declaration carried out** on all that comes after it, if one
begins at a slot. The slot to go on at is looked up before that, and is
followed when tokens have been dropped in between. -/
def evaluatingArray (sizes : TypeSizes) (tok : TokenId) :
    Links (Nat × Option TokenId) := do
  let after ← next tok
  match ← declaredAt sizes tok with
  | none => return (0, after)
  | some (name, total) =>
    let scan ← nth tok 5
    let n ← along (replacing name (Numeral.text total)) (scan.map (·, 0))
    return (n, after)

/-- **What the pass reads** of a declaration, in the order in which the loop
reads it. -/
theorem declared?_eq (sizes : TypeSizes) (c : Cell) (rest : List Cell) :
    let textAt n := ((c :: rest)[n]?.map Cell.text).getD ""
    let total := sizes.sizeOf c.text * ArraySizeof.elements (textAt 3)
    ArraySizeof.declared? sizes (c :: rest)
      = if ArraySizeof.shape.opens (c :: rest) then
          if sizes.sizeOf c.text == 0 then none
          else if total ≤ Numeral.maxWord64 then some (textAt 1, total)
          else none
        else none := by
  intro textAt total
  rcases rest with _ | ⟨name, _ | ⟨_, _ | ⟨bound, more⟩⟩⟩
  iterate 3
    simp [ArraySizeof.declared?, Pattern.opens, ArraySizeof.pieces_shape]
  have htotal : total
      = sizes.sizeOf c.text * ArraySizeof.elements bound.text := rfl
  rw [ArraySizeof.declared?, htotal]
  by_cases hzero : sizes.sizeOf c.text = 0
  · simp [hzero]
  · simp only [bne_iff_ne, ne_eq, hzero, not_false_eq_true, Bool.and_eq_true,
      decide_eq_true_eq, and_true, beq_iff_eq, if_false, ite_and]
    rfl

/-- The declaration is what the pass reads. -/
theorem makes_declaredAt (sizes : TypeSizes) :
    Makes (declaredAt sizes c.slot) ⟨passed ++ c :: rest, p⟩
      (ArraySizeof.declared? sizes (c :: rest))
      ⟨passed ++ c :: rest, p⟩ := by
  rw [declared?_eq]
  exact (makes_holds rfl _).bind (makes_ite
    ((makes_text (by simp)).bind (makes_ite (makes_pure _ _)
      ((makes_textAt rfl 3).bind (makes_ite
        ((makes_textAt rfl 1).bind (makes_pure _ _)) (makes_pure _ _)))))
    (makes_pure _ _))

/-- A use is told by its shape and the third cell. -/
theorem isUse_eq (name : String) (c : Cell) (rest : List Cell) :
    ArraySizeof.isUse name (c :: rest)
      = if ArraySizeof.useShape.opens (c :: rest) then
          ((c :: rest)[2]?.map Cell.text).getD "" == name
        else false := by
  rcases rest with _ | ⟨_, _ | ⟨var, more⟩⟩
  · simp [ArraySizeof.isUse, Pattern.opens, ArraySizeof.pieces_useShape]
  · simp [ArraySizeof.isUse, Pattern.opens, ArraySizeof.pieces_useShape]
  · rw [ArraySizeof.isUse]
    cases ArraySizeof.useShape.opens (c :: _ :: var :: more) <;> rfl

/-- A use is found where the pass finds one. -/
theorem makes_useAt (name : String) :
    Makes (useAt name c.slot) ⟨passed ++ c :: rest, p⟩
      (ArraySizeof.isUse name (c :: rest)) ⟨passed ++ c :: rest, p⟩ := by
  rw [isUse_eq]
  exact (makes_holds rfl _).bind (makes_ite
    ((makes_textAt rfl 2).bind (makes_pure _ _)) (makes_pure _ _))

/-- **The inner loop** does what the recursion on cells does, up to the end
of the block. -/
theorem makes_replacing (name total : String) (depth : Nat)
    (passed ahead : List Cell) (p : SlotPool) :
    let e := ArraySizeof.replaceUses name total depth ahead p
    Makes (along (replacing name total)
        ((entry ahead none).map (·, (depth : Int))))
      ⟨passed ++ ahead, p⟩ e.count (e.prepend passed).row := by
  intro e
  have hread : ∀ {c : Cell} {rest : List Cell} {p : SlotPool}
      (passed : List Cell), Makes (text c.slot) ⟨passed ++ c :: rest, p⟩ c.text
        ⟨passed ++ c :: rest, p⟩ :=
    fun {_ _ _} _ => makes_text (by simp)
  -- the loop goes on by the link of a cell, at some level
  have hnext : ∀ {d : Cell} {left : List Cell} {q : SlotPool} {n : Nat}
      {level : Int} (passed : List Cell),
      Makes (next d.slot >>= fun place => pure (n, place.map (·, level)))
        ⟨passed ++ d :: left, q⟩ (n, (entry left none).map (·, level))
        ⟨passed ++ ([d] ++ left), q⟩ :=
    fun {_ _ _ _ _} _ => (makes_next rfl).bind (makes_pure _ _)
  -- along the recursion of the pass: a block opened, one closed that is the
  -- declaration's own, one closed within, a use, and any other cell
  fun_induction ArraySizeof.replaceUses name total depth ahead p
    generalizing passed with
  | case1 depth p => exact makes_along_none _
  | case2 depth p c rest hopen ih =>
    have hturn : Makes (replacing name total (c.slot, (depth : Int)))
        ⟨passed ++ c :: rest, p⟩ (0, (entry rest none).map (·, ((depth + 1 : Nat) : Int))) _ :=
      (hread passed).bind (.of_pos hopen (hnext passed))
    exact hturn.passes (ih (passed ++ [c]))
  | case3 p c rest hopen hclose =>
    have hturn : Makes (replacing name total (c.slot, ((0 : Nat) : Int)))
        ⟨passed ++ c :: rest, p⟩ (0, none) _ :=
      (hread passed).bind (.of_neg hopen (.of_pos hclose
        (.of_pos (by decide) (makes_pure _ _))))
    exact hturn.along_some (makes_along_none _)
  | case4 p c rest hopen hclose depth ih =>
    have hlevel : ((depth + 1 : Nat) : Int) - 1 = depth := by omega
    have hturn : Makes (replacing name total (c.slot, ((depth + 1 : Nat) : Int)))
        ⟨passed ++ c :: rest, p⟩ (0, (entry rest none).map (·, (depth : Int)))
        ⟨passed ++ ([c] ++ rest), p⟩ := by
      refine (hread passed).bind (.of_neg hopen (.of_pos hclose ?_))
      rw [hlevel]
      exact .of_neg (by omega) (hnext passed)
    exact hturn.passes (ih (passed ++ [c]))
  | case5 depth p c rest hopen hclose huse ih =>
    have huseAt : Makes (useAt name c.slot) ⟨passed ++ c :: rest, p⟩
        (ArraySizeof.isUse name (c :: rest)) ⟨passed ++ c :: rest, p⟩ :=
      makes_useAt name
    rw [huse] at huseAt
    have hturn : Makes (replacing name total (c.slot, (depth : Int)))
        ⟨passed ++ c :: rest, p⟩
        (1, (entry (rest.drop 3) none).map (·, (depth : Int)))
        ⟨passed ++ ([c.withText total] ++ rest.drop 3),
          p.giveAll (rest.take 3)⟩ := by
      refine (hread passed).bind (.of_neg hopen (.of_neg hclose
        (huseAt.bind (.of_pos rfl ?_))))
      refine (makes_setText rfl total).bind ?_
      refine (makes_removeNextN (x := c.withText total) rfl 3).bind ?_
      exact hnext (d := c.withText total) passed
    exact hturn.goes_on (ih (passed ++ [c.withText total]))
  | case6 depth p c rest hopen hclose huse ih =>
    have huseAt : Makes (useAt name c.slot) ⟨passed ++ c :: rest, p⟩
        (ArraySizeof.isUse name (c :: rest)) ⟨passed ++ c :: rest, p⟩ :=
      makes_useAt name
    rw [Bool.eq_false_iff.mpr huse] at huseAt
    have hturn : Makes (replacing name total (c.slot, (depth : Int)))
        ⟨passed ++ c :: rest, p⟩ (0, (entry rest none).map (·, (depth : Int))) _ :=
      (hread passed).bind (.of_neg hopen (.of_neg hclose
        (huseAt.bind (.of_neg Bool.false_ne_true (hnext passed)))))
    exact hturn.passes (ih (passed ++ [c]))

/-- Each turn leaves its own cell behind. What is ahead begins with the rest
of the declaration, untouched, and so with the slot that was looked up. -/
theorem steps_evaluatingArray (sizes : TypeSizes) :
    Steps (evaluatingArray sizes) (evalArraySizeof sizes) where
  nil _ := by rw [evalArraySizeof]
  cons passed c rest p := by
    have hread : Makes (declaredAt sizes c.slot) ⟨passed ++ c :: rest, p⟩
        (ArraySizeof.declared? sizes (c :: rest)) ⟨passed ++ c :: rest, p⟩ :=
      makes_declaredAt sizes
    cases hfound : ArraySizeof.declared? sizes (c :: rest) with
    | none =>
      rw [hfound] at hread
      refine ⟨0, [c], rest, p, List.cons_ne_nil _ _,
        (makes_next rfl).bind (hread.bind (makes_pure _ _)), ?_⟩
      rw [evalArraySizeof, ArraySizeof.apply_of_declared?_eq_none hfound]
      rfl
    | some found =>
      obtain ⟨five, after, rfl, hdeclares⟩ :=
        ArraySizeof.exists_of_declared? hfound
      have hlength : five.length = 5 := by
        have := hdeclares.length
        rw [List.length_cons] at this
        omega
      obtain ⟨name, total⟩ := found
      obtain ⟨n, l, b, r, stop, rfl⟩ :
          ∃ n l b r stop, five = [n, l, b, r, stop] := by
        rcases five with _ | ⟨n, _ | ⟨l, _ | ⟨b, _ | ⟨r, _ | ⟨stop, _ | _⟩⟩⟩⟩⟩ <;>
          simp_all
      rw [hfound] at hread
      let e := ArraySizeof.replaceUses name (Numeral.text total) 0
        (stop :: after) p
      have hscan : Makes (along _ (some (stop.slot, ((0 : Nat) : Int)))) _
          e.count (e.prepend (passed ++ [c, n, l, b, r])).row :=
        makes_replacing name (Numeral.text total) 0
          (passed ++ [c, n, l, b, r]) (stop :: after) p
      rw [List.append_assoc, Edit.row, Edit.cells_prepend,
        List.append_assoc] at hscan
      -- the slot of the name is live after the inner loop, behind which
      -- it stands
      refine ⟨e.count, [c], [n, l, b, r] ++ e.cells, e.pool,
        List.cons_ne_nil _ _, (makes_next rfl).bind (hread.bind ?_), ?_⟩
      · have hnth : Makes (nth c.slot 5)
            ⟨passed ++ ([c, n, l, b, r] ++ stop :: after), p⟩
            (some stop.slot) _ := makes_nth_some (x := c) rfl rfl
        exact hnth.bind (hscan.bind (makes_pure _ _))
      · rw [evalArraySizeof, ArraySizeof.apply, hfound]
        rfl

end Links

end FlatC
