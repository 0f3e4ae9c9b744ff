import FlatC.Proofs.Edit.Environment
import FlatC.Proofs.Edit.Fusion
import FlatC.Proofs.Edit.Substitution
import FlatC.Proofs.Links.Rules

/-!
# Giving names in place

Three stages write over names: fusing writes `.` for `->` when it is done,
constants are inlined and typedef names expanded. Their loops look for one
text from some slot on and write another over it (`overwriting`), and only the
long form of a typedef puts tokens in, one behind each name, and goes on
behind that.

The loops for constants and typedefs hold the slot of a declaration while an
inner loop goes over all that comes after it, and then go on by its link. So
they meet what the inner loop has written. The short form of a typedef is
carried out from its first word on, its own two names being told apart by
their slots: that they are the only ones so exempt is because no slot comes
twice in a chain.
-/

namespace FlatC

namespace Links

open Cell (entry slots)

/-! ## One text written over another -/

/-- Whether a cell has a text, and none of the slots that are exempt. The
slots are as a program holds them, so one of them may be missing. -/
def named (own : List (Option TokenId)) (old : String) (c : Cell) : Bool :=
  !own.contains (some c.slot) && c.text == old

/-- **A text written over another**, but not in the slots `own`: a turn of the
loop, which goes on by the link of its slot in either case. -/
def overwriting (own : List (Option TokenId)) (old new : String)
    (tok : TokenId) : Links (Nat × Option TokenId) := do
  if !own.contains (some tok) && (← text tok) == old then
    setText tok new
    return (1, ← next tok)
  else return (0, ← next tok)

/-- The same, of cells. Only with no slot exempt is it `Cell.rename`. -/
def overwritten (own : List (Option TokenId)) (old new : String) : Pass :=
  fun cells pool =>
    ⟨cells.map fun c => if named own old c then c.withText new else c, pool,
      cells.countP (named own old)⟩

/-- Each turn leaves one cell behind, with the one text or the other, as the
pass does. -/
theorem steps_overwriting (own : List (Option TokenId)) (old new : String) :
    Steps (overwriting own old new) (overwritten own old new) where
  nil _ := rfl
  cons passed c rest p := by
    have hread := makes_text (r := ⟨passed ++ c :: rest, p⟩) (x := c)
      (by simp)
    by_cases h : named own old c = true
    · refine ⟨1, [c.withText new], rest, p, List.cons_ne_nil _ _,
        hread.bind (.of_pos h ?_), ?_⟩
      · exact (makes_setText rfl new).bind
          (makes_onward (x := c.withText new) rfl _)
      · simp [overwritten, h, Edit.prepend, Edit.plus, Nat.add_comm]
    · refine ⟨0, [c], rest, p, List.cons_ne_nil _ _,
        hread.bind (.of_neg h ?_), ?_⟩
      · exact makes_onward rfl _
      · simp [overwritten, h, Edit.prepend, Edit.plus]

/-- **What a loop writes over a text** is what renaming all cells makes of
them, if none of their slots is exempt. -/
theorem makes_overwriting (own : List (Option TokenId)) (old new : String)
    (passed ahead : List Cell) (p : SlotPool)
    (hown : ∀ c ∈ ahead, some c.slot ∉ own) :
    Makes (along (overwriting own old new) (entry ahead none))
      ⟨passed ++ ahead, p⟩ (Cell.occurrences old ahead)
      ⟨passed ++ Cell.rename old new ahead, p⟩ := by
  have hnamed : ∀ c ∈ ahead, named own old c = (c.text == old) := by
    intro c hc
    rw [named, List.contains_eq_mem, decide_eq_false (hown c hc)]
    rfl
  have h := (steps_overwriting own old new).does passed ahead p
  have hcells : (overwritten own old new ahead p).cells
      = Cell.rename old new ahead :=
    List.map_congr_left fun c hc => by rw [hnamed c hc]
  have hcount : (overwritten own old new ahead p).count
      = Cell.occurrences old ahead :=
    List.countP_congr fun c hc => by rw [hnamed c hc]
  rw [Edit.row, Edit.cells_prepend, hcells, hcount] at h
  exact h

/-! ## Operators -/

/-- **A pair joined**: the first token is given the text of both and the
second one dropped. At the last token there is no pair. The joined token is
not looked at again, as the loop goes on to what follows it now. -/
def joining (tok : TokenId) : Links (Nat × Option TokenId) := do
  match ← next tok with
  | none => return (0, none)
  | some after =>
    match Fusion.joined? (← text tok) (← text after) with
    | none => return (0, ← next tok)
    | some joined =>
      setText tok joined
      let _ ← removeNext tok
      return (1, ← next tok)

/-- **Operators fused in place**: pairs are joined, and from the same slot on
`.` is written over `->`. -/
def fuse (start : Option TokenId) : Links Nat := do
  let joined ← along joining start
  let _ ← along (overwriting [] "->" ".") start
  return joined

/-- Each turn leaves one cell behind, a joined one or not. What it is joined
with is freed, and the next turn is at what comes behind that. -/
theorem steps_joining : Steps joining Fusion.join where
  nil _ := rfl
  cons passed c rest p := by
    cases rest with
    | nil =>
      exact ⟨0, [c], [], p, List.cons_ne_nil _ _,
        (makes_next rfl).bind (makes_pure _ _), rfl⟩
    | cons d rest =>
      have hread : ∀ {x}, x = c ∨ x = d → Makes (text x.slot)
          ⟨passed ++ c :: d :: rest, p⟩ x.text _ := fun hx =>
        makes_text (by rcases hx with rfl | rfl <;> simp)
      -- the first text is read before anything is changed, and the second
      -- slot is not used after it is dropped
      cases hjoined : Fusion.joined? c.text d.text with
      | none =>
        refine ⟨0, [c], d :: rest, p, List.cons_ne_nil _ _,
          (makes_next rfl).bind ((hread (.inl rfl)).bind
            ((hread (.inr rfl)).bind ?_)), ?_⟩
        · rw [hjoined]
          exact makes_onward rfl _
        · rw [Fusion.join, hjoined]
          exact (Edit.plus_zero _).symm
      | some joined =>
        refine ⟨1, [c.withText joined], rest, p.give d.slot,
          List.cons_ne_nil _ _, (makes_next rfl).bind
            ((hread (.inl rfl)).bind ((hread (.inr rfl)).bind ?_)), ?_⟩
        · rw [hjoined]
          exact (makes_setText rfl joined).bind
            ((makes_removeNext (x := c.withText joined) rfl).bind
              (makes_onward (x := c.withText joined) rfl _))
        · rw [Fusion.join, hjoined]
          rfl

/-- The first token of a pair stays where it is, and so the slot from which
the operators are fused is still the first when `->` is looked for. -/
theorem entry_join (cells : List Cell) (pool : SlotPool) :
    entry (Fusion.join cells pool).cells none = entry cells none := by
  fun_cases Fusion.join cells pool <;> rfl

/-- **Fusing in place** does the work of the pass. -/
theorem does_fuse : Does fuse fuseOperators := by
  intro passed ahead p
  refine (steps_joining.does passed ahead p).bind ?_
  have hdotted := makes_overwriting [] "->" "." passed
    (Fusion.join ahead p).cells (Fusion.join ahead p).pool
    fun _ _ => List.not_mem_nil
  rw [entry_join] at hdotted
  exact hdotted.bind (makes_pure _ _)

/-! ## Constants -/

/-- **A constant inlined** from behind its declaration on, if there is one at
a slot. The slot is held over the inner loop, and then left by its link. -/
def inlining (tok : TokenId) : Links (Nat × Option TokenId) := do
  if ← holds Constant.shape tok then
    let name ← textAt tok 2
    let value ← textAt tok 4
    let inlined ← along (overwriting [] name value) (← nth tok 6)
    return (inlined, ← next tok)
  else return (0, ← next tok)

/-- Each turn leaves its own cell behind unchanged. What is ahead is the rest
as the inner loop has left it, in which another name may have become a number. -/
theorem steps_inlining : Steps inlining inlineConstants where
  nil _ := by rw [inlineConstants]
  cons passed c rest p := by
    have hread := makes_holds (r := ⟨passed ++ c :: rest, p⟩) rfl
      Constant.shape
    cases hopens : Constant.shape.opens (c :: rest) with
    | false =>
      rw [hopens] at hread
      refine ⟨0, [c], rest, p, List.cons_ne_nil _ _,
        hread.bind (.of_neg Bool.false_ne_true ?_), ?_⟩
      · exact makes_onward rfl _
      · rw [Constant.inlineConstants_of_not_opens hopens]
        exact (Edit.plus_zero _).symm
    | true =>
      have hlength := Pattern.length_le_of_fits hopens
      rw [Constant.pieces_shape] at hlength
      -- the shape holds, so there are five cells behind the first
      rcases rest with _ | ⟨type, _ | ⟨name, _ | ⟨eq, _ | ⟨num, _ | ⟨stop,
        after⟩⟩⟩⟩⟩
      iterate 5 simp at hlength
      have happly : Constant.apply c (type :: name :: eq :: num :: stop
            :: after)
          = (type :: name :: eq :: num :: stop
              :: Cell.rename name.text num.text after,
            Cell.occurrences name.text after) :=
        if_pos hopens
      let r : Row :=
        ⟨passed ++ c :: type :: name :: eq :: num :: stop :: after, p⟩
      have hname : Makes (textAt c.slot 2) r name.text r :=
        makes_textAt_some rfl rfl
      have hvalue : Makes (textAt c.slot 4) r num.text r :=
        makes_textAt_some rfl rfl
      have hover := makes_overwriting [] name.text num.text
        (passed ++ [c, type, name, eq, num, stop]) after p
        fun _ _ => List.not_mem_nil
      rw [List.append_assoc, List.append_assoc] at hover
      rw [hopens] at hread
      refine ⟨Cell.occurrences name.text after, [c],
        type :: name :: eq :: num :: stop
          :: Cell.rename name.text num.text after, p, List.cons_ne_nil _ _,
        hread.bind (.of_pos rfl (hname.bind (hvalue.bind ?_))), ?_⟩
      · refine (makes_nth rfl 6).bind (hover.bind ?_)
        exact makes_onward (x := c) rfl _
      · rw [inlineConstants, happly]
        rfl

/-- **Constants inlined in place**, declaration by declaration. -/
def inline (start : Option TokenId) : Links Nat := along inlining start

/-! ## Typedefs -/

/-- **A name written out as two**, the second one being put in behind the
first, where the loop then goes on: a second word that is the name again is
not written out again. -/
def writingOut (name first second : String) (tok : TokenId) :
    Links (Nat × Option TokenId) := do
  if (← text tok) == name then
    setText tok first
    let added ← insertAfter tok ⟨second, ← line tok, ← file tok⟩
    return (1, ← next added)
  else return (0, ← next tok)

/-- Each turn leaves one cell behind, or the two that a name becomes. The
second of them is put in behind the first, and passed over. -/
theorem steps_writingOut (name first second : String) :
    Steps (writingOut name first second)
      (Typedef.writeOut name first second) where
  nil _ := rfl
  cons passed c rest p := by
    have hread := makes_text (r := ⟨passed ++ c :: rest, p⟩) (x := c)
      (by simp)
    by_cases h : (c.text == name) = true
    · let added : Cell := ⟨p.take.1, c.token.withText second⟩
      refine ⟨1, [c.withText first, added], rest, p.take.2,
        List.cons_ne_nil _ _, hread.bind (.of_pos h ?_), ?_⟩
      · refine (makes_setText rfl first).bind ?_
        refine (makes_line (x := c.withText first) (by simp)).bind ?_
        refine (makes_file (x := c.withText first) (by simp)).bind ?_
        refine (makes_insertAfter (x := c.withText first) rfl _).bind ?_
        refine (makes_next (x := added) (List.append_cons ..)).bind ?_
        exact makes_pure _ _
      · rw [Typedef.writeOut, if_pos h]
    · refine ⟨0, [c], rest, p, List.cons_ne_nil _ _,
        hread.bind (.of_neg h ?_), ?_⟩
      · exact makes_onward rfl _
      · rw [Typedef.writeOut, if_neg h]
        exact (Edit.plus_zero _).symm

/-- **A typedef of the short form carried out**, on its own first word and on
what comes after it: its two names are exempt. They are told by their slots,
since a name elsewhere can have the same text. -/
def substituteShort (tok : TokenId) : Links Nat := do
  let actual ← textAt tok 1
  let name ← textAt tok 2
  let own := [← nth tok 1, ← nth tok 2]
  along (overwriting own name actual) (some tok)

/-- **A typedef of the long form carried out** on what comes after it, from
its `;` on, which is no name. -/
def substituteLong (tok : TokenId) : Links Nat := do
  let first ← textAt tok 1
  let second ← textAt tok 2
  let name ← textAt tok 3
  along (writingOut name first second) (← nth tok 4)

/-- **A typedef carried out** that begins at a slot, if one does, to the end
of the chain. -/
def expanding (tok : TokenId) : Links (Nat × Option TokenId) := do
  if ← holds Typedef.short tok then
    let written ← substituteShort tok
    return (written, ← next tok)
  else if ← holds Typedef.long tok then
    let written ← substituteLong tok
    return (written, ← next tok)
  else return (0, ← next tok)

/-- **Typedef names expanded in place**, typedef by typedef. -/
def expand (start : Option TokenId) : Links Nat := along expanding start

section Typedefs

variable {passed after : List Cell} {c actual first second name stop : Cell}
variable {p : SlotPool}

/-- **What the short form writes over**: its first word and what comes after
it. The two names are exempt by their slots, which are no others', and the
`;` is none of them. -/
theorem overwritten_short {own : List (Option TokenId)}
    (hown : own = [some actual.slot, some name.slot])
    (hnodup : (slots (c :: actual :: name :: stop :: after)).Nodup)
    (hstop : stop.text ≠ name.text) :
    overwritten own name.text actual.text
        (c :: actual :: name :: stop :: after) p
      = ⟨(if c.text == name.text then c.withText actual.text else c)
          :: actual :: name :: stop
          :: Cell.rename name.text actual.text after, p,
        Cell.occurrences name.text (c :: after)⟩ := by
  -- any cell but the two names is decided by its text alone
  have hother : ∀ d : Cell, d.slot ≠ actual.slot → d.slot ≠ name.slot →
      named own name.text d = (d.text == name.text) := by
    intro d hactual hname
    simp [named, hown, hactual, hname]
  simp only [slots, List.map_cons, List.nodup_cons, List.mem_cons,
    not_or] at hnodup
  obtain ⟨⟨hca, hcn, -⟩, ⟨-, has, hactual⟩, ⟨hns, hname⟩, -⟩ := hnodup
  have hrest : ∀ d ∈ after,
      named own name.text d = (d.text == name.text) := fun d hd =>
    hother d (fun he => hactual (he ▸ List.mem_map_of_mem hd))
      (fun he => hname (he ▸ List.mem_map_of_mem hd))
  have hfirst := hother c hca hcn
  have hlast : named own name.text stop = false := by
    rw [hother stop (Ne.symm has) (Ne.symm hns)]
    exact beq_false_of_ne hstop
  have hexempt : ∀ d, d = actual ∨ d = name →
      named own name.text d = false := by
    rintro d (rfl | rfl) <;> simp [named, hown]
  have hmap : (after.map fun d =>
        if named own name.text d then d.withText actual.text else d)
      = Cell.rename name.text actual.text after :=
    List.map_congr_left fun d hd => by rw [hrest d hd]
  have hcount : after.countP (named own name.text)
      = Cell.occurrences name.text after :=
    List.countP_congr fun d hd => by rw [hrest d hd]
  rw [overwritten, Edit.mk.injEq]
  refine ⟨?_, rfl, ?_⟩
  · simp only [List.map_cons, hfirst, hexempt actual (.inl rfl),
      hexempt name (.inr rfl), hlast, hmap, Bool.false_eq_true, if_false]
  · simp only [List.countP_cons, hfirst, hexempt actual (.inl rfl),
      hexempt name (.inr rfl), hlast, hcount, Cell.occurrences,
      Bool.false_eq_true, if_false, Nat.add_zero]

/-- The short form carried out is `Typedef.apply`, which also says what
becomes of the first word. -/
theorem makes_substituteShort
    (hopens : Typedef.short.opens (c :: actual :: name :: stop :: after)
      = true) :
    let r := Typedef.apply c [actual, name, stop] after p
    Makes (substituteShort c.slot)
      ⟨passed ++ c :: actual :: name :: stop :: after, p⟩ r.2.count
      ⟨passed ++ r.1 :: actual :: name :: stop :: r.2.cells, r.2.pool⟩ := by
  obtain ⟨hword, hactual, hname, hstop⟩ :=
    Typedef.opens_short_iff.mp hopens
  have happly : Typedef.apply c [actual, name, stop] after p
      = (if c.text == name.text then c.withText actual.text else c,
        ⟨Cell.rename name.text actual.text after, p,
          Cell.occurrences name.text (c :: after)⟩) :=
    if_pos (Typedef.opens_short_iff.mpr ⟨hword, hactual, hname, hstop⟩)
  have hne : stop.text ≠ name.text :=
    hstop ▸ (Typedef.ne_semicolon_of_isTypeName hname).symm
  let s : Row := ⟨passed ++ c :: actual :: name :: stop :: after, p⟩
  have hactual : Makes (textAt c.slot 1) s actual.text s :=
    makes_textAt_some rfl rfl
  have hname : Makes (textAt c.slot 2) s name.text s :=
    makes_textAt_some rfl rfl
  have hfirst : Makes (nth c.slot 1) s (some actual.slot) s :=
    makes_nth_some rfl rfl
  have hsecond : Makes (nth c.slot 2) s (some name.slot) s :=
    makes_nth_some rfl rfl
  refine makes_of_nodup fun hnodup => ?_
  -- the exempt slots are no others' because the row is laid down
  rw [slots, List.map_append] at hnodup
  have hover := (steps_overwriting [some actual.slot, some name.slot]
    name.text actual.text).does passed
    (c :: actual :: name :: stop :: after) p
  rw [overwritten_short rfl (List.nodup_append.mp hnodup).2.1 hne] at hover
  rw [happly]
  exact hactual.bind (hname.bind (hfirst.bind (hsecond.bind hover)))

/-- The long form carried out is `Typedef.apply`, which leaves the whole
statement as it is. -/
theorem makes_substituteLong
    (hopens : Typedef.long.opens
      (c :: first :: second :: name :: stop :: after) = true) :
    let r := Typedef.apply c [first, second, name, stop] after p
    Makes (substituteLong c.slot)
      ⟨passed ++ c :: first :: second :: name :: stop :: after, p⟩ r.2.count
      ⟨passed ++ r.1 :: first :: second :: name :: stop :: r.2.cells,
        r.2.pool⟩ := by
  have happly : Typedef.apply c [first, second, name, stop] after p
      = (c, Typedef.writeOut name.text first.text second.text after p) :=
    if_pos (Typedef.opens_long_iff.mpr (Typedef.opens_long_iff.mp hopens))
  let s : Row := ⟨passed ++ c :: first :: second :: name :: stop :: after, p⟩
  have hfirst : Makes (textAt c.slot 1) s first.text s :=
    makes_textAt_some rfl rfl
  have hsecond : Makes (textAt c.slot 2) s second.text s :=
    makes_textAt_some rfl rfl
  have hname : Makes (textAt c.slot 3) s name.text s :=
    makes_textAt_some rfl rfl
  have hplace : Makes (nth c.slot 4) s (some stop.slot) s :=
    makes_nth_some rfl rfl
  -- the loop begins at the `;`, which is not the name
  have hne : ¬ (stop.text == name.text) = true := by
    obtain ⟨-, -, -, hname, hstop⟩ := Typedef.opens_long_iff.mp hopens
    rw [hstop, beq_iff_eq]
    exact (Typedef.ne_semicolon_of_isTypeName hname).symm
  have hwritten := (steps_writingOut name.text first.text
    second.text).does (passed ++ [c, first, second, name]) (stop :: after) p
  rw [Typedef.writeOut, if_neg hne, List.append_assoc, Edit.row,
    Edit.cells_prepend, List.append_assoc] at hwritten
  rw [happly]
  exact hfirst.bind (hsecond.bind (hname.bind (hplace.bind hwritten)))

/-- **A typedef that is carried out** leaves its first word behind, and is
followed by its other tokens and what it makes of what comes after them. -/
theorem expandTypedefs_of_typedef {own : List Cell}
    (hown : ∀ x ∈ own, x.text ≠ ";") (hc : c.text ≠ ";")
    (hstop : stop.text = ";") :
    let r := Typedef.apply c (own ++ [stop]) after p
    expandTypedefs (c :: (own ++ stop :: after)) p
      = ((expandTypedefs (own ++ stop :: r.2.cells) r.2.pool).prepend
          [r.1]).plus r.2.count := by
  have hwhole : ∀ x ∈ c :: own, x.text ≠ ";" :=
    List.forall_mem_cons.mpr ⟨hc, hown⟩
  have hcut : Typedef.cut? (c :: ((own ++ [stop]) ++ after))
      = some (c :: (own ++ [stop]), after) := by
    rw [List.append_assoc]
    exact Typedef.cut?_append_stop hwhole hstop after
  have h := Typedef.expandTypedefs_of_statement hcut p
  intro r
  dsimp only at h
  rw [List.append_assoc, List.append_assoc] at h
  exact h

end Typedefs

/-- Each turn leaves one cell behind: the first word of a typedef, as the
short form may have changed it, or a cell at which none begins. -/
theorem steps_expanding : Steps expanding expandTypedefs where
  nil _ := by rw [expandTypedefs]; rfl
  cons passed c rest p := by
    let r : Row := ⟨passed ++ c :: rest, p⟩
    have hshort := makes_holds (r := r) rfl Typedef.short
    have hlong := makes_holds (r := r) rfl Typedef.long
    -- the loop goes on by the link of the cell it has come to, even if that
    -- has been given another text
    have hgoes : ∀ {n : Nat} {d : Cell} {left : List Cell} {q : SlotPool},
        d.slot = c.slot → Makes (next c.slot >>= fun place => pure (n, place))
          ⟨passed ++ d :: left, q⟩ (n, entry left none)
          ⟨passed ++ d :: left, q⟩ :=
      fun {_ _ _ _} hd => hd ▸ (makes_next rfl).bind (makes_pure _ _)
    have hslot : ∀ more after, (Typedef.apply c more after p).1.slot = c.slot :=
      fun more after => by
        rcases Typedef.fst_apply c more after p with h | ⟨_, -, -, -, h⟩ <;>
          rw [h]
        rfl
    -- the short form, the long form, and no typedef; the first two are the
    -- same cells to the pass
    cases hs : Typedef.short.opens (c :: rest) with
    | true =>
      rw [hs] at hshort
      obtain ⟨xs, stop, after, rfl, hlength, hc, hxs, hstop⟩ :=
        Typedef.names_of_short hs
      obtain ⟨actual, name, rfl⟩ := List.length_eq_two.mp hlength
      exact ⟨_, [_], _, _, List.cons_ne_nil _ _, hshort.bind (.of_pos rfl
          ((makes_substituteShort hs).bind (hgoes (hslot _ _)))),
        expandTypedefs_of_typedef hxs (by rw [hc]; decide) hstop⟩
    | false =>
      rw [hs] at hshort
      cases hl : Typedef.long.opens (c :: rest) with
      | true =>
        rw [hl] at hlong
        obtain ⟨xs, stop, after, rfl, hlength, hc, hxs, hstop⟩ :=
          Typedef.names_of_long hl
        obtain ⟨first, second, name, rfl⟩ := List.length_eq_three.mp hlength
        exact ⟨_, [_], _, _, List.cons_ne_nil _ _,
          hshort.bind (.of_neg Bool.false_ne_true (hlong.bind (.of_pos rfl
            ((makes_substituteLong hl).bind (hgoes (hslot _ _)))))),
          expandTypedefs_of_typedef hxs (by rw [hc]; decide) hstop⟩
      | false =>
        rw [hl] at hlong
        refine ⟨0, [c], rest, p, List.cons_ne_nil _ _,
          hshort.bind (.of_neg Bool.false_ne_true
            (hlong.bind (.of_neg Bool.false_ne_true (hgoes rfl)))), ?_⟩
        rw [Typedef.expandTypedefs_cons hs hl]
        exact (Edit.plus_zero _).symm

end Links

end FlatC
