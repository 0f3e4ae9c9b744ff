import FlatC.Proofs.Edit.Typedef

/-!
# What expanding typedef names leaves

Once a typedef has been carried out, its name should be gone from what comes
behind it. Then carrying it out again, with more behind, changes nothing but
what is new (`prefix_expandTypedefs`). Two things are in the way of this.

A typedef of two words may bring its own name back. After
`typedef struct foo foo ;` each `foo` becomes `struct foo`, and would become
`struct struct foo` the next time (`Typedef.Recurs`). No other name comes
back: what is put in its place are words of the typedef, and what later
typedefs put there are texts that were there (`text_mem_of_expandTypedefs`).

And the word `typedef` is itself renamed by a typedef of the short form that
has it for its name. Such a typedef may have been begun at the end, to be
completed by what is new. Then the word is one of the last two tokens, or
else its name is.
-/

namespace FlatC

open Cell (slots)

namespace Cell

variable {old new : String} {cells xs ys : List Cell} {d : Cell}

/-- What a cell with a text given away has instead: the new text, or its own,
which is another one. -/
theorem of_mem_rename (h : d ∈ rename old new cells) :
    d.text = new ∨ d ∈ cells ∧ d.text ≠ old := by
  obtain ⟨c, hc, rfl⟩ := List.mem_map.mp h
  split
  · exact .inl rfl
  · next hne => exact .inr ⟨hc, by simpa using hne⟩

/-- Nothing is renamed where the name is not found, or stays the same. -/
theorem rename_eq_self (h : ∀ x ∈ xs, x.text = old → x.text = new) :
    rename old new xs = xs := by
  refine (List.map_congr_left fun x hx => ?_).trans (List.map_id xs)
  split
  · next hold =>
    have hnew : x.text = new := h x hx (by simpa using hold)
    rw [← hnew]
    rfl
  · rfl

/-- Renaming is done part by part. -/
theorem rename_append (old new : String) (xs ys : List Cell) :
    rename old new (xs ++ ys) = rename old new xs ++ rename old new ys :=
  List.map_append

end Cell

namespace Typedef

variable {c d first second actual name last : Cell}
variable {own more after xs ys zs cells : List Cell} {pool : SlotPool}

/-! ## The two shapes -/

/-- The short form, word by word. -/
theorem opens_short_iff :
    short.opens (c :: actual :: name :: last :: more) = true
      ↔ c.text = "typedef" ∧ Token.isTypeName actual.text = true
        ∧ Token.isTypeName name.text = true ∧ last.text = ";" := by
  simp [Pattern.opens, pieces_short, @eq_comm _ "typedef", @eq_comm _ ";"]

/-- The long form, word by word. -/
theorem opens_long_iff :
    long.opens (c :: first :: second :: name :: last :: more) = true
      ↔ c.text = "typedef" ∧ Token.isTypeName first.text = true
        ∧ Token.isTypeName second.text = true
        ∧ Token.isTypeName name.text = true ∧ last.text = ";" := by
  simp [Pattern.opens, pieces_long, @eq_comm _ "typedef", @eq_comm _ ";"]

/-- **What a part of a statement can be**: a typedef of one of the two
shapes, or nothing. -/
theorem apply_cases (c : Cell) (more after : List Cell) (pool : SlotPool) :
    (∃ actual name last, more = [actual, name, last]
        ∧ short.opens (c :: more) = true
        ∧ apply c more after pool
          = (if c.text == name.text then c.withText actual.text else c,
            ⟨Cell.rename name.text actual.text after, pool,
              Cell.occurrences name.text (c :: after)⟩))
      ∨ (∃ first second name last, more = [first, second, name, last]
        ∧ long.opens (c :: more) = true
        ∧ apply c more after pool
          = (c, writeOut name.text first.text second.text after pool))
      ∨ apply c more after pool = (c, .unchanged after pool) := by
  unfold apply
  split
  · next actual name last =>
    split
    · next h => exact .inl ⟨actual, name, last, rfl, h, rfl⟩
    · exact .inr (.inr rfl)
  · next first second name last =>
    split
    · next h => exact .inr (.inl ⟨first, second, name, last, rfl, h, rfl⟩)
    · exact .inr (.inr rfl)
  · exact .inr (.inr rfl)

/-- A typedef has three tokens after the word, or four, and with any other
number nothing is done. -/
theorem apply_of_length (h : more.length ≠ 3) (h' : more.length ≠ 4) :
    apply c more after pool = (c, .unchanged after pool) := by
  rcases apply_cases c more after pool with
    ⟨_, _, _, rfl, -⟩ | ⟨_, _, _, _, rfl, -⟩ | hnothing
  · exact absurd rfl h
  · exact absurd rfl h'
  · exact hnothing

/-- A typedef begins with the word. -/
theorem apply_of_ne (h : c.text ≠ "typedef") :
    apply c more after pool = (c, .unchanged after pool) := by
  rcases apply_cases c more after pool with
    ⟨_, _, _, rfl, hopens, -⟩ | ⟨_, _, _, _, rfl, hopens, -⟩ | hnothing
  · exact absurd (opens_short_iff.mp hopens).1 h
  · exact absurd (opens_long_iff.mp hopens).1 h
  · exact hnothing

/-- **The word itself** is renamed only to a type name. -/
theorem fst_apply (c : Cell) (more after : List Cell) (pool : SlotPool) :
    (apply c more after pool).1 = c
      ∨ ∃ actual ∈ more, c.text = "typedef"
        ∧ Token.isTypeName actual.text = true
        ∧ (apply c more after pool).1 = c.withText actual.text := by
  rcases apply_cases c more after pool with
    ⟨actual, name, last, rfl, hopens, h⟩ | ⟨_, _, _, _, -, -, h⟩ | h
  · rw [h]
    dsimp only
    split
    · obtain ⟨hword, hactual, -⟩ := opens_short_iff.mp hopens
      exact .inr ⟨actual, List.mem_cons_self, hword, hactual, rfl⟩
    · exact .inl rfl
  · exact .inl (congrArg Prod.fst h)
  · exact .inl (congrArg Prod.fst h)

/-- What becomes of a statement, cell by cell. -/
theorem own_lookThrough_cons (c : Cell) (more after : List Cell)
    (pool : SlotPool) :
    (lookThrough (c :: more) after pool).own
      = (apply c more after pool).1
        :: (lookThrough more (apply c more after pool).2.cells
          (apply c more after pool).2.pool).own := rfl

/-- What becomes of the cells behind a statement, cell by cell. -/
theorem cells_lookThrough_cons (c : Cell) (more after : List Cell)
    (pool : SlotPool) :
    (lookThrough (c :: more) after pool).after.cells
      = (lookThrough more (apply c more after pool).2.cells
          (apply c more after pool).2.pool).after.cells := rfl

/-- Three tokens are too few for a typedef. -/
theorem lookThrough_three (actual name last : Cell) (after : List Cell)
    (pool : SlotPool) :
    lookThrough [actual, name, last] after pool
      = ⟨[actual, name, last], .unchanged after pool⟩ := rfl

/-- Four tokens can be a typedef of the short form, and no more of them. -/
theorem lookThrough_four (c actual name last : Cell) (after : List Cell)
    (pool : SlotPool) :
    lookThrough [c, actual, name, last] after pool
      = ⟨[(apply c [actual, name, last] after pool).1, actual, name, last],
        (apply c [actual, name, last] after pool).2⟩ := by
  rw [lookThrough]
  generalize apply c [actual, name, last] after pool = r
  rfl

/-- In the long form the word itself is not renamed. -/
theorem fst_apply_four (c first second name last : Cell)
    (after : List Cell) (pool : SlotPool) :
    (apply c [first, second, name, last] after pool).1 = c := by
  rw [apply]
  split <;> rfl

theorem length_own_lookThrough (own after : List Cell) (pool : SlotPool) :
    (lookThrough own after pool).own.length = own.length := by
  have hslots := congrArg List.length (slots_lookThrough own after pool)
  rwa [slots, slots, List.length_map, List.length_map] at hslots

/-! ## Without a typedef -/

/-- A statement without the word is passed as it is. -/
theorem lookThrough_of_ne (h : ∀ c ∈ own, c.text ≠ "typedef") :
    lookThrough own after pool = ⟨own, .unchanged after pool⟩ := by
  induction own with
  | nil => rfl
  | cons c more ih =>
    rw [lookThrough, apply_of_ne (h c List.mem_cons_self)]
    dsimp only [Edit.cells_unchanged, Edit.pool_unchanged]
    rw [ih fun d hd => h d (List.mem_cons_of_mem c hd)]
    rfl

/-! ## No new texts -/

/-- What a name that is written out has instead. -/
theorem of_mem_writeOut {name first second : String}
    (h : d ∈ (writeOut name first second cells pool).cells) :
    d.text = first ∨ d.text = second ∨ d ∈ cells ∧ d.text ≠ name := by
  induction cells generalizing pool with
  | nil => cases h
  | cons c cells ih =>
    rw [writeOut] at h
    split at h
    · rcases List.mem_cons.mp h with rfl | h
      · exact .inl rfl
      · rcases List.mem_cons.mp h with rfl | h
        · exact .inr (.inl rfl)
        · exact (ih h).imp_right fun h => h.imp_right fun h =>
            ⟨List.mem_cons_of_mem c h.1, h.2⟩
    · next hne =>
      rcases List.mem_cons.mp h with rfl | h
      · exact .inr (.inr ⟨List.mem_cons_self, by simpa using hne⟩)
      · exact (ih h).imp_right fun h => h.imp_right fun h =>
          ⟨List.mem_cons_of_mem c h.1, h.2⟩

/-- A typedef that is carried out writes only texts that were there. -/
theorem text_mem_of_apply
    (h : d ∈ (apply c more after pool).2.cells) :
    d.text ∈ (more ++ after).map Cell.text := by
  have hmem : ∀ e ∈ more ++ after, e.text ∈ (more ++ after).map Cell.text :=
    fun e he => List.mem_map_of_mem he
  rcases apply_cases c more after pool with
    ⟨actual, name, last, rfl, -, happly⟩
    | ⟨first, second, name, last, rfl, -, happly⟩ | happly
  · rw [happly] at h
    rcases Cell.of_mem_rename h with hd | ⟨hd, -⟩
    · exact hd ▸ hmem actual (by simp)
    · exact hmem d (List.mem_append_right _ hd)
  · rw [happly] at h
    rcases of_mem_writeOut h with hd | hd | ⟨hd, -⟩
    · exact hd ▸ hmem first (by simp)
    · exact hd ▸ hmem second (by simp)
    · exact hmem d (List.mem_append_right _ hd)
  · rw [happly] at h
    exact hmem d (List.mem_append_right _ h)

/-- Looking a statement through writes only texts that were there. -/
theorem text_mem_of_lookThrough
    (h : d ∈ (lookThrough own after pool).own
      ++ (lookThrough own after pool).after.cells) :
    d.text ∈ (own ++ after).map Cell.text := by
  induction own generalizing after pool with
  | nil => exact List.mem_map_of_mem h
  | cons c more ih =>
    rw [own_lookThrough_cons, cells_lookThrough_cons, List.cons_append] at h
    rw [List.cons_append, List.map_cons]
    rcases List.mem_cons.mp h with rfl | h
    · rcases fst_apply c more after pool with hc | ⟨actual, hmem, -, -, hc⟩
      · rw [hc]
        exact List.mem_cons_self
      · rw [hc, Cell.text_withText]
        exact List.mem_cons_of_mem _
          (List.mem_map_of_mem (List.mem_append_left after hmem))
    · refine List.mem_cons_of_mem c.text ?_
      have hd := ih h
      rw [List.map_append] at hd
      rcases List.mem_append.mp hd with hd | hd
      · rw [List.map_append]
        exact List.mem_append_left _ hd
      · obtain ⟨e, he, hde⟩ := List.mem_map.mp hd
        exact hde ▸ text_mem_of_apply he

/-! ## The end of a statement -/

/-- No statement ends where there is no `;`. -/
theorem cut?_eq_none_iff :
    cut? cells = none ↔ ∀ c ∈ cells, c.text ≠ ";" := by
  induction cells with
  | nil => simp [cut?]
  | cons c cells ih =>
    rw [cut?]
    split
    · next h =>
      have hc : c.text = ";" := by simpa using h
      simp [hc]
    · next h =>
      have hc : c.text ≠ ";" := by simpa using h
      rw [Option.map_eq_none_iff, ih, List.forall_mem_cons]
      exact ⟨fun hcells => ⟨hc, hcells⟩, fun hcells => hcells.2⟩

/-- A statement that has been begun goes on to the next `;`. -/
theorem cut?_append (h : ∀ x ∈ xs, x.text ≠ ";") (ys : List Cell) :
    cut? (xs ++ ys) = (cut? ys).map fun cut => (xs ++ cut.1, cut.2) := by
  induction xs with
  | nil => simp
  | cons x xs ih =>
    rw [List.forall_mem_cons] at h
    rw [List.cons_append, cut?, if_neg (by simpa using h.1), ih h.2,
      Option.map_map]
    rfl

/-- A statement that has been looked through ends where it did, since its `;`
is no name. -/
theorem cut?_own_lookThrough (h : cut? (own ++ zs) = some (own, zs))
    (after : List Cell) (pool : SlotPool) (ys : List Cell) :
    cut? ((lookThrough own after pool).own ++ ys)
      = some ((lookThrough own after pool).own, ys) := by
  induction own generalizing after pool with
  | nil =>
    have hlen := ends_of_cut? h
    rw [List.nil_append] at hlen
    exact absurd hlen (by omega)
  | cons c more ih =>
    rw [List.cons_append, cut?] at h
    rw [own_lookThrough_cons, List.cons_append, cut?]
    split at h
    · next hc =>
      obtain ⟨hmore, -⟩ := Prod.mk.inj (Option.some.inj h)
      obtain rfl : more = [] := by simpa using hmore.symm
      exact if_pos hc
    · next hc =>
      obtain ⟨⟨own', after'⟩, hcut, heq⟩ := Option.map_eq_some_iff.mp h
      cases heq
      have hfirst : ((apply c more after pool).1.text == ";") = false := by
        rcases fst_apply c more after pool with
          hfst | ⟨actual, -, -, hactual, hfst⟩
        · rw [hfst]
          simpa using hc
        · rw [hfst]
          simpa using ne_semicolon_of_isTypeName hactual
      rw [hfirst, if_neg Bool.false_ne_true, ih hcut]
      rfl

/-! ## Statements gone through again -/

/-- **A typedef that brings its own name back**: the name is one of the two
words that it stands for, and comes again behind it. Expanding once more then
writes the name out once more. -/
def Recurs : List Cell → Prop
  | c :: first :: second :: name :: last :: more =>
    long.opens [c, first, second, name, last] = true
      ∧ (name.text = first.text ∨ name.text = second.text)
      ∧ name.text ∈ more.map Cell.text
  | _ => False

instance : (cells : List Cell) → Decidable (Recurs cells)
  | _ :: _ :: _ :: _ :: _ :: _ => inferInstanceAs (Decidable (_ ∧ _ ∧ _))
  | [] | [_] | [_, _] | [_, _, _] | [_, _, _, _] =>
    inferInstanceAs (Decidable False)

/-- A name that does not come before what is new is written out only
there. -/
theorem prefix_writeOut {name first second : String}
    (h : ∀ x ∈ xs, x.text ≠ name) (ys : List Cell) (pool : SlotPool) :
    xs <+: (writeOut name first second (xs ++ ys) pool).cells := by
  induction xs generalizing pool with
  | nil => exact List.nil_prefix
  | cons x xs ih =>
    rw [List.forall_mem_cons] at h
    rw [List.cons_append, writeOut, if_neg (by simpa using h.1)]
    exact List.cons_prefix_cons.mpr ⟨rfl, ih h.2 pool⟩

/-- **The short form where it changes only what is new**: its name stands
nowhere else, unless it stands for itself. -/
theorem apply_short_eq_self (hself : c.text = name.text →
      c.withText actual.text = c)
    (hgone : ∀ x ∈ xs, x.text = name.text → x.text = actual.text)
    (ys : List Cell) (q : SlotPool) :
    (apply c [actual, name, last] (xs ++ ys) q).1 = c
      ∧ xs <+: (apply c [actual, name, last] (xs ++ ys) q).2.cells := by
  rw [apply]
  split
  · dsimp only
    rw [Cell.rename_append, Cell.rename_eq_self hgone]
    refine ⟨?_, List.prefix_append _ _⟩
    split
    · next heq => exact hself (by simpa using heq)
    · rfl
  · exact ⟨rfl, List.prefix_append _ _⟩

/-- **The short form carried out again** is such a form: nothing has its
name any more. -/
theorem apply_short_again {f : Cell × Edit}
    (hf : apply c [actual, name, last] after pool = f)
    (hxs : ∀ x ∈ xs, x.text ∈ f.2.cells.map Cell.text)
    (ys : List Cell) (q : SlotPool) :
    (apply f.1 [actual, name, last] (xs ++ ys) q).1 = f.1
      ∧ xs <+: (apply f.1 [actual, name, last] (xs ++ ys) q).2.cells := by
  rw [apply] at hf
  split at hf
  · subst hf
    refine apply_short_eq_self ?_ ?_ ys q
    · dsimp only
      split
      · exact fun _ => rfl
      · next hne => exact fun heq => absurd heq (by simpa using hne)
    · intro x hx hname
      obtain ⟨d, hd, hdx⟩ := List.mem_map.mp (hxs x hx)
      rcases Cell.of_mem_rename hd with hactual | ⟨-, hne⟩
      · rw [← hdx, hactual]
      · exact absurd (hdx.trans hname) hne
  · next h =>
    subst hf
    rw [apply, if_neg h]
    exact ⟨rfl, List.prefix_append _ _⟩

/-- **The long form carried out again**, after the short one that it may
end in: its name has gone as well, unless it brings it back. -/
theorem prefix_apply_long_again {f : Cell × Edit}
    (hf : apply first [second, name, last]
      (apply c [first, second, name, last] after pool).2.cells
      (apply c [first, second, name, last] after pool).2.pool = f)
    (hxs : ∀ x ∈ xs, x.text ∈ f.2.cells.map Cell.text)
    (hrecurs : ¬ Recurs ([c, f.1, second, name, last] ++ xs))
    (ys : List Cell) (q : SlotPool) :
    xs <+: (apply c [f.1, second, name, last] (xs ++ ys) q).2.cells := by
  rw [apply]
  split
  · next hopens =>
    refine prefix_writeOut (fun x hx hname => hrecurs ?_) ys q
    refine ⟨hopens, ?_, hname ▸ List.mem_map_of_mem hx⟩
    obtain ⟨d, hd, hdx⟩ := List.mem_map.mp (hxs x hx)
    rw [← hdx] at hname
    by_cases hshort : short.opens [first, second, name, last] = true
    · rw [← hf, apply, if_pos hshort] at hd
      rcases Cell.of_mem_rename hd with hsecond | ⟨-, hne⟩
      · exact .inr (hname.symm.trans hsecond)
      · exact absurd hname hne
    · rw [apply, if_neg hshort] at hf
      subst hf
      rw [apply, if_pos hopens] at hd
      rcases of_mem_writeOut hd with hfirst | hsecond | ⟨-, hne⟩
      · exact .inl (hname.symm.trans hfirst)
      · exact .inr (hname.symm.trans hsecond)
      · exact absurd hname hne
  · exact List.prefix_append _ _

/-- **A part of a statement gone through again**, with what has become of the
rest of the statement. The two forms can end in the same four tokens, so both
are followed. -/
theorem apply_again {r : Cell × Edit} {o : Outcome}
    (hr : apply c more after pool = r)
    (ho : lookThrough more r.2.cells r.2.pool = o)
    (hxs : ∀ x ∈ xs, x.text ∈ o.after.cells.map Cell.text)
    (hrecurs : ¬ Recurs (r.1 :: o.own ++ xs)) (ys : List Cell)
    (q : SlotPool) :
    (apply r.1 o.own (xs ++ ys) q).1 = r.1
      ∧ xs <+: (apply r.1 o.own (xs ++ ys) q).2.cells := by
  by_cases hlen : more.length = 3 ∨ more.length = 4
  · match more, hlen with
    | [actual, name, last], _ =>
      rw [lookThrough_three] at ho
      subst ho
      exact apply_short_again hr hxs ys q
    | [first, second, name, last], _ =>
      rw [lookThrough_four] at ho
      generalize hf : apply first [second, name, last] _ _ = f at ho
      subst ho
      have hc : r.1 = c := by rw [← hr, fst_apply_four]
      rw [hc] at hrecurs ⊢
      rw [← hr] at hf
      exact ⟨fst_apply_four .., prefix_apply_long_again hf hxs hrecurs ys q⟩
  · rw [not_or] at hlen
    have hown := length_own_lookThrough more r.2.cells r.2.pool
    rw [ho] at hown
    rw [apply_of_length (hown ▸ hlen.1) (hown ▸ hlen.2)]
    exact ⟨rfl, List.prefix_append xs ys⟩

/-- **A statement gone through again** is left as it is, and so is what
followed it, which has only texts that its typedefs left. -/
theorem lookThrough_again (own after : List Cell) (pool : SlotPool)
    (hxs : ∀ x ∈ xs,
      x.text ∈ (lookThrough own after pool).after.cells.map Cell.text)
    (hrecurs : ∀ t, t <:+ (lookThrough own after pool).own →
      ¬ Recurs (t ++ xs)) (ys : List Cell) (q : SlotPool) :
    (lookThrough (lookThrough own after pool).own (xs ++ ys) q).own
        = (lookThrough own after pool).own
      ∧ xs <+: (lookThrough (lookThrough own after pool).own (xs ++ ys)
        q).after.cells := by
  induction own generalizing after pool ys q with
  | nil => exact ⟨rfl, List.prefix_append xs ys⟩
  | cons c more ih =>
    rw [own_lookThrough_cons] at hrecurs
    rw [cells_lookThrough_cons] at hxs
    obtain ⟨hfirst, ys', hys'⟩ :=
      apply_again rfl rfl hxs (hrecurs _ List.suffix_rfl) ys q
    have hmore := ih _ _ hxs
      (fun t ht => hrecurs t (ht.trans (List.suffix_cons _ _))) ys'
    rw [own_lookThrough_cons, own_lookThrough_cons, cells_lookThrough_cons,
      hfirst, ← hys']
    exact ⟨congrArg (_ :: ·) (hmore _).1, (hmore _).2⟩

/-- The word of a typedef that has been begun is not renamed when it is
completed, unless it is among the last two tokens, or its name is. -/
theorem fst_apply_append (hends : ∀ x ∈ xs, x.text ≠ ";")
    (hbegun : ∀ t, t <:+ c :: xs → t.length ≤ 2 →
      ∀ x ∈ t, x.text ≠ "typedef") (own after : List Cell)
    (pool : SlotPool) : (apply c (xs ++ own) after pool).1 = c := by
  rcases apply_cases c (xs ++ own) after pool with
    ⟨actual, name, last, hmore, hopens, h⟩ | ⟨_, _, _, _, -, -, h⟩ | h
  · rw [h]
    refine if_neg fun hname => ?_
    rw [hmore] at hopens
    obtain ⟨hword, -, -, hlast⟩ := opens_short_iff.mp hopens
    match xs with
    | [] => exact hbegun [c] List.suffix_rfl (by simp) c (by simp) hword
    | [x] => exact hbegun [c, x] List.suffix_rfl (by simp) c (by simp) hword
    | [x, y] =>
      obtain ⟨-, hy, -⟩ : x = actual ∧ y = name ∧ own = [last] := by
        simpa using hmore
      refine hbegun [x, y] (List.suffix_cons c _) (by simp) y (by simp) ?_
      rw [hy, ← hword]
      exact (beq_iff_eq.mp hname).symm
    | x :: y :: z :: xs =>
      -- The typedef would have ended before.
      have hz : z = last := by
        simp only [List.cons_append, List.cons.injEq] at hmore
        exact hmore.2.2.1
      exact hends z (by simp) (hz ▸ hlast)
  · rw [h]
  · rw [h]

/-- **A statement that has been begun** is left as it is when it is
completed. -/
theorem prefix_own_lookThrough (hends : ∀ x ∈ xs, x.text ≠ ";")
    (hbegun : ∀ t, t <:+ xs → t.length ≤ 2 → ∀ x ∈ t, x.text ≠ "typedef")
    (own after : List Cell) (pool : SlotPool) :
    xs <+: (lookThrough (xs ++ own) after pool).own := by
  induction xs generalizing after pool with
  | nil => exact List.nil_prefix
  | cons c xs ih =>
    have hends' := fun x hx => hends x (List.mem_cons_of_mem c hx)
    rw [List.cons_append, own_lookThrough_cons, List.cons_prefix_cons]
    exact ⟨(fst_apply_append hends' hbegun own after pool).symm,
      ih hends' (fun t ht => hbegun t (ht.trans (List.suffix_cons c xs))) _ _⟩

end Typedef

/-! ## All statements -/

/-- **Without the word `typedef`** nothing is expanded. -/
theorem expandTypedefs_of_ne {cells : List Cell} {pool : SlotPool}
    (h : ∀ c ∈ cells, c.text ≠ "typedef") :
    expandTypedefs cells pool = .unchanged cells pool := by
  fun_induction expandTypedefs cells pool with
  | case1 cells pool hcut => rfl
  | case2 cells pool own after hcut o ih =>
    obtain rfl := Typedef.eq_append_of_cut? hcut
    have ho : o = ⟨own, .unchanged after pool⟩ :=
      Typedef.lookThrough_of_ne fun c hc => h c (List.mem_append_left after hc)
    simp only [ho] at ih ⊢
    rw [Edit.cells_unchanged, Edit.pool_unchanged] at ih ⊢
    rw [ih fun c hc => h c (List.mem_append_right own hc)]
    rfl

/-- **Expanding brings in no new text.** So a name that has gone cannot come
back by another typedef. -/
theorem text_mem_of_expandTypedefs {cells : List Cell} {pool : SlotPool}
    {d : Cell} (h : d ∈ (expandTypedefs cells pool).cells) :
    d.text ∈ cells.map Cell.text := by
  fun_induction expandTypedefs cells pool generalizing d with
  | case1 cells pool hcut => exact List.mem_map_of_mem h
  | case2 cells pool own after hcut o =>
    rename_i ih
    rw [Typedef.eq_append_of_cut? hcut]
    rcases List.mem_append.mp h with h | h
    · exact Typedef.text_mem_of_lookThrough (List.mem_append_left _ h)
    · obtain ⟨e, he, hde⟩ := List.mem_map.mp (ih h)
      exact hde ▸ Typedef.text_mem_of_lookThrough (List.mem_append_right _ he)

/-- **What has been expanded stays**, whatever is behind it, if no typedef
brings its own name back and no typedef is begun in the last two tokens. Both
conditions are needed. -/
theorem prefix_expandTypedefs {cells : List Cell} {pool : SlotPool}
    (hrecurs : ∀ t, t <:+ (expandTypedefs cells pool).cells →
      ¬ Typedef.Recurs t)
    (hbegun : ∀ t, t <:+ (expandTypedefs cells pool).cells → t.length ≤ 2 →
      ∀ x ∈ t, x.text ≠ "typedef") (ys : List Cell) (q : SlotPool) :
    (expandTypedefs cells pool).cells
      <+: (expandTypedefs ((expandTypedefs cells pool).cells ++ ys)
        q).cells := by
  fun_induction expandTypedefs cells pool generalizing ys q with
  | case1 cells pool hcut =>
    have hends := Typedef.cut?_eq_none_iff.mp hcut
    have hcut' := Typedef.cut?_append hends ys
    rw [Edit.cells_unchanged]
    cases hys : Typedef.cut? ys with
    | none =>
      rw [hys] at hcut'
      rw [expandTypedefs_of_cut?_eq_none hcut']
      exact List.prefix_append cells ys
    | some cut =>
      rw [hys] at hcut'
      rw [expandTypedefs_of_cut? hcut']
      exact (Typedef.prefix_own_lookThrough hends hbegun _ _ _).trans
        (List.prefix_append _ _)
  | case2 cells pool own after hcut o =>
    rename_i ih
    obtain rfl := Typedef.eq_append_of_cut? hcut
    simp only [Edit.cells_plus, Edit.cells_prepend] at hrecurs hbegun ⊢
    obtain ⟨hown, ys', hys'⟩ := Typedef.lookThrough_again own after pool
      (fun x hx => text_mem_of_expandTypedefs hx)
      (fun t ht => hrecurs _ (by
        obtain ⟨before, ht⟩ := ht
        exact ⟨before, by rw [← List.append_assoc, ht]⟩)) ys q
    rw [List.append_assoc,
      expandTypedefs_of_cut? (Typedef.cut?_own_lookThrough hcut after pool _)]
    simp only [Edit.cells_plus, Edit.cells_prepend]
    rw [hown, ← hys']
    refine (List.prefix_append_right_inj _).mpr (ih ?_ ?_ ys' _)
    · exact fun t ht => hrecurs t (ht.trans (List.suffix_append _ _))
    · exact fun t ht => hbegun t (ht.trans (List.suffix_append _ _))

end FlatC
