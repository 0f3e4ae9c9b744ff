import FlatC.Edit.Declaration
import FlatC.Proofs.Edit.Basic
import FlatC.Proofs.Edit.Everywhere

/-!
# Splitting declarations is sound

What splitting does is told by three lemmas: `cells_of_next?`, which says
where the pieces of a declaration lie and what is written for it,
`cells_of_atEquals?`, which says the same of the part behind the `=`, and
`cutInitializer?_step`, which says what one cell does to an initializer.
Every slot of a declaration is kept, and what is put in is copied, so the
slots come out even.
-/

namespace FlatC

open Cell (slots)

namespace Declaration

variable {xs ys lead type after : List Cell} {before : String}
variable {name eq sep c d : Cell} {pool : SlotPool} {s : Split} {depth : Int}

/-! ## What a declaration is split into -/

/-- What is cut off when the cells begin one further left: the initializer has
that cell in front. -/
def consCut (c : Cell) (x : List Cell × Cell × List Cell) :
    List Cell × Cell × List Cell :=
  (c :: x.1, x.2)

/-- How much deeper a text leaves what comes after it, which its first
character tells. -/
def shift (text : String) : Int :=
  if Token.startsWithAny opening text then 1
  else if Token.startsWithAny closing text then -1
  else 0

/-- A text moves the depth by one at most, so it cannot pass a level unseen. -/
theorem neg_one_le_shift (text : String) : -1 ≤ shift text := by
  unfold shift
  split
  · decide
  · split <;> decide

/-- What an initializer may open does not end it. -/
theorem ending_of_opening {text : String}
    (h : Token.startsWithAny opening text = true) :
    Token.startsWithAny ending text = false := by
  refine Token.leads_eq_false (q := fun c => ending.contains c) h
    fun c hc => ?_
  rcases List.mem_pair.mp (List.contains_iff_mem.mp hc) with rfl | rfl <;> rfl

/-- What an initializer may close does not end it, so the order in which the
two are asked for does not matter. -/
theorem ending_of_closing {text : String}
    (h : Token.startsWithAny closing text = true) :
    Token.startsWithAny ending text = false := by
  refine Token.leads_eq_false (q := fun c => ending.contains c) h
    fun c hc => ?_
  rcases List.mem_pair.mp (List.contains_iff_mem.mp hc) with rfl | rfl <;> rfl

/-- **What a cell does to an initializer** depends on its text and the depth
alone: it closes too much and ends the search, or it ends the initializer,
or it is a part of it. -/
theorem cutInitializer?_step (depth : Int) (text : String) :
    (depth < 0 ∧ shift text = -1 ∧ ∀ c rest, c.text = text →
        cutInitializer? depth (c :: rest) = none)
      ∨ (depth = 0 ∧ Token.startsWithAny ending text = true
        ∧ ∀ c rest, c.text = text →
          cutInitializer? depth (c :: rest) = some ([], c, rest))
      ∨ (depth < 0 → 0 ≤ shift text)
        ∧ (depth = 0 → Token.startsWithAny ending text = false)
        ∧ ∀ c rest, c.text = text →
          cutInitializer? depth (c :: rest)
            = (cutInitializer? (depth + shift text) rest).map
                (consCut c) := by
  unfold shift
  split
  · next hopen =>
    refine Or.inr (Or.inr ⟨fun _ => by decide,
      fun _ => ending_of_opening hopen, fun c rest hc => ?_⟩)
    rw [cutInitializer?, hc, if_pos hopen]
    rfl
  · next hopen =>
    split
    · next hclose =>
      by_cases hdepth : depth < 0
      · refine Or.inl ⟨hdepth, rfl, fun c rest hc => ?_⟩
        rw [cutInitializer?, hc, if_neg hopen, if_pos hclose, if_pos hdepth]
      · refine Or.inr (Or.inr ⟨fun h => absurd h hdepth,
          fun _ => ending_of_closing hclose, fun c rest hc => ?_⟩)
        rw [cutInitializer?, hc, if_neg hopen, if_pos hclose, if_neg hdepth]
        rfl
    · next hclose =>
      by_cases hend : (Token.startsWithAny ending text && depth == 0) = true
      · obtain ⟨hends, hdepth⟩ := Bool.and_eq_true_iff.mp hend
        refine Or.inr (Or.inl ⟨eq_of_beq hdepth, hends, fun c rest hc => ?_⟩)
        rw [cutInitializer?, hc, if_neg hopen, if_neg hclose, if_pos hend]
      · refine Or.inr (Or.inr ⟨fun _ => Int.le_refl 0, fun hdepth => ?_,
          fun c rest hc => ?_⟩)
        · rw [hdepth, beq_self_eq_true, Bool.and_true] at hend
          exact Bool.eq_false_iff.mpr hend
        · rw [cutInitializer?, hc, if_neg hopen, if_neg hclose, if_neg hend,
            Int.add_zero]
          rfl

/-- An initializer that is cut off is cut out of its cells, in the order in
which they stood. -/
theorem eq_append_of_cutInitializer? {init more : List Cell} {stop : Cell}
    (h : cutInitializer? depth xs = some (init, stop, more)) :
    xs = init ++ stop :: more := by
  induction xs generalizing depth init with
  | nil => cases h
  | cons c xs ih =>
    rcases cutInitializer?_step depth c.text with
      ⟨-, -, hc⟩ | ⟨-, -, hc⟩ | ⟨-, -, hc⟩
    · rw [hc c xs rfl] at h
      cases h
    · rw [hc c xs rfl] at h
      cases h
      rfl
    · rw [hc c xs rfl] at h
      obtain ⟨⟨i, e, m⟩, hcut, heq⟩ := Option.map_eq_some_iff.mp h
      cases heq
      rw [List.cons_append, ← ih hcut]

/-- **What is written for a declaration with an initializer**: with a `;`
behind it only the name and the `=` are put in, and with a comma the type as
well. -/
theorem cells_of_atEquals?
    (h : atEquals? lead type name eq after pool = some s) :
    ∃ init stop more, cutInitializer? 0 after = some (init, stop, more)
      ∧ (stop.text = "," ∧ s =
          ⟨lead ++ eq.withText ";" :: (pool.copy [name.token, eq.token]).1,
            init ++ stop.withText ";"
              :: (((pool.copy [name.token, eq.token]).2.copy
                (type.map Cell.token)).1 ++ more),
            ((pool.copy [name.token, eq.token]).2.copy
              (type.map Cell.token)).2⟩
        ∨ stop.text ≠ "," ∧ s =
          ⟨lead ++ eq.withText ";" :: (pool.copy [name.token, eq.token]).1,
            init ++ stop :: more,
            (pool.copy [name.token, eq.token]).2⟩) := by
  unfold atEquals? at h
  split at h
  · cases h
  · next init stop more hcut =>
    refine ⟨init, stop, more, hcut, ?_⟩
    dsimp only at h
    split at h
    · next hstop =>
      cases h
      exact Or.inl ⟨eq_of_beq hstop, rfl⟩
    · next hstop =>
      cases h
      exact Or.inr ⟨fun he => hstop (beq_iff_eq.mpr he), rfl⟩

/-- **What the declaration that comes next is split into.** All that is known
of a split is here: its shape, where its cells lie, and which of the two kinds
it is. -/
theorem cells_of_next? (h : next? before xs pool = some s) :
    Token.startsWithAny ['{', '}', ';'] before = true
      ∧ ∃ shape lead sep after name, shapeOf? xs = some shape
        ∧ xs = lead ++ sep :: after ∧ lead.length = shape.before
        ∧ nameCell? (lead.drop shape.type) = some name
        ∧ (sep.text = ","
            ∧ s = atComma lead (lead.take shape.type) sep after pool
          ∨ sep.text ≠ ","
            ∧ atEquals? lead (lead.take shape.type) name sep after pool
              = some s) := by
  unfold next? at h
  split at h
  · next hbefore =>
    refine ⟨hbefore, ?_⟩
    split at h
    · cases h
    · next shape hshape =>
      dsimp only at h
      split at h
      · next sep after name hdrop hname =>
        have hxs : xs = xs.take shape.before ++ sep :: after := by
          rw [← hdrop, List.take_append_drop]
        have hlen : (xs.take shape.before).length = shape.before := by
          have := congrArg List.length hdrop
          rw [List.length_drop, List.length_cons] at this
          rw [List.length_take]
          omega
        refine ⟨shape, xs.take shape.before, sep, after, name, hshape, hxs,
          hlen, hname, ?_⟩
        split at h
        · next hsep =>
          cases h
          exact Or.inl ⟨eq_of_beq hsep, rfl⟩
        · next hsep => exact Or.inr ⟨fun he => hsep (beq_iff_eq.mpr he), h⟩
      · cases h
  · cases h

/-- **A declaration is split at its separator** where one comes next. -/
theorem next?_of_shapeOf? {shape : Shape}
    (hbefore : Token.startsWithAny ['{', '}', ';'] before = true)
    (hshape : shapeOf? (lead ++ sep :: after) = some shape)
    (hlen : lead.length = shape.before)
    (hname : nameCell? (lead.drop shape.type) = some name) (pool : SlotPool) :
    next? before (lead ++ sep :: after) pool
      = if sep.text == "," then
          some (atComma lead (lead.take shape.type) sep after pool)
        else atEquals? lead (lead.take shape.type) name sep after pool := by
  rw [next?, if_pos hbefore, hshape]
  dsimp only
  rw [← hlen, List.take_left, List.drop_left, hname]

/-! ## Slots -/

/-- A comma that is split takes as many slots as the type has tokens. -/
theorem exchanged_atComma (lead type : List Cell) (comma : Cell)
    (after : List Cell) (pool : SlotPool) :
    Row.Exchanged ⟨lead ++ comma :: after, pool⟩
      ⟨(atComma lead type comma after pool).written
          ++ (atComma lead type comma after pool).left,
        (atComma lead type comma after pool).pool⟩ :=
  ((Row.Exchanged.copied (type.map Cell.token) after pool).cons (c := comma)
    (d := comma.withText ";") rfl).append lead _ rfl

/-- An initializer that is split off takes slots and gives none back. -/
theorem exchanged_atEquals?
    (h : atEquals? lead type name eq after pool = some s) :
    Row.Exchanged ⟨lead ++ eq :: after, pool⟩
      ⟨s.written ++ s.left, s.pool⟩ := by
  obtain ⟨init, stop, more, hcut, hs⟩ := cells_of_atEquals? h
  rw [eq_append_of_cutInitializer? hcut]
  have hcopy := Row.Exchanged.copied [name.token, eq.token]
    (init ++ stop :: more) pool
  rcases hs with ⟨-, rfl⟩ | ⟨-, rfl⟩
  · have htypes := ((Row.Exchanged.copied (type.map Cell.token) more
      (pool.copy [name.token, eq.token]).2).cons (c := stop)
        (d := stop.withText ";") rfl).append init _ rfl
    have hall := ((hcopy.trans (htypes.append _ _ rfl)).cons (c := eq)
      (d := eq.withText ";") rfl).append lead _ rfl
    simpa using hall
  · have hall := (hcopy.cons (c := eq) (d := eq.withText ";") rfl).append
      lead _ rfl
    simpa using hall

/-- Whatever declaration is split, slots are only taken. -/
theorem exchanged_of_next? (h : next? before xs pool = some s) :
    Row.Exchanged ⟨xs, pool⟩ ⟨s.written ++ s.left, s.pool⟩ := by
  obtain ⟨-, shape, lead, sep, after, name, -, rfl, -, -, hs⟩ :=
    cells_of_next? h
  rcases hs with ⟨-, rfl⟩ | ⟨-, hs⟩
  · exact exchanged_atComma lead _ sep after pool
  · exact exchanged_atEquals? hs

/-! ## Tokens -/

/-- The pieces of a cut initializer, alike. -/
def SameCut (x y : List Cell × Cell × List Cell) : Prop :=
  Cell.Alike x.1 y.1 ∧ x.2.1.token = y.2.1.token ∧ Cell.Alike x.2.2 y.2.2

/-- Two splits of alike declarations. -/
structure Split.Alike (s t : Split) : Prop where
  written : Cell.Alike s.written t.written
  left : Cell.Alike s.left t.left

/-- Where an initializer ends is read off the texts. -/
theorem rel_cutInitializer? (depth : Int) (h : Cell.Alike xs ys) :
    Option.Rel SameCut (cutInitializer? depth xs)
      (cutInitializer? depth ys) := by
  induction xs generalizing ys depth with
  | nil =>
    obtain rfl := h.eq_nil
    exact .none
  | cons c xs ih =>
    obtain ⟨d, ys, rfl, hc, hys⟩ := h.exists_cons
    have htext := (Cell.text_eq hc).symm
    rcases cutInitializer?_step depth c.text with
      ⟨-, -, hstep⟩ | ⟨-, -, hstep⟩ | ⟨-, -, hstep⟩
    · rw [hstep c xs rfl, hstep d ys htext]
      exact .none
    · rw [hstep c xs rfl, hstep d ys htext]
      exact .some ⟨.refl [], hc, hys⟩
    · rw [hstep c xs rfl, hstep d ys htext]
      have hrest := ih (depth + shift c.text) hys
      generalize cutInitializer? _ xs = x at hrest ⊢
      generalize cutInitializer? _ ys = y at hrest ⊢
      cases hrest with
      | none => exact .none
      | some hrest => exact .some ⟨hrest.1.cons hc, hrest.2⟩

theorem rel_nameCell? (h : Cell.Alike xs ys) :
    Option.Rel (fun c d => c.token = d.token) (nameCell? xs)
      (nameCell? ys) := by
  rcases h.forall₂ with _ | ⟨h₁, _ | ⟨h₂, _⟩⟩
  · exact .none
  · exact .some h₁
  · rw [nameCell?, nameCell?, Cell.text_eq h₁]
    split
    · exact .some h₂
    · exact .some h₁

/-- The shape of a declaration is read off the texts. -/
theorem shapeOf?_of_alike (h : Cell.Alike xs ys) :
    shapeOf? xs = shapeOf? ys := by
  rw [shapeOf?, shapeOf?, funext fun s : Shape => h.opens s.pattern]

/-- Copies of alike cells are alike. -/
theorem alike_copy (p q : SlotPool) {ts us : List Token} (h : ts = us) :
    Cell.Alike (p.copy ts).1 (q.copy us).1 := by
  rw [Cell.Alike, SlotPool.map_token_copy, SlotPool.map_token_copy, h]

section Parts

variable {lead' type' after' : List Cell} {name' sep' : Cell}
variable (hlead : Cell.Alike lead lead') (htype : Cell.Alike type type')
variable (hsep : sep.token = sep'.token) (hafter : Cell.Alike after after')
include hlead htype hsep hafter

theorem alike_atComma (p q : SlotPool) :
    (atComma lead type sep after p).Alike
      (atComma lead' type' sep' after' q) :=
  ⟨hlead, .cons (Cell.token_withText_eq hsep _)
    ((alike_copy p q htype).append hafter)⟩

theorem rel_atEquals? (p q : SlotPool) (hname : name.token = name'.token) :
    Option.Rel Split.Alike (atEquals? lead type name sep after p)
      (atEquals? lead' type' name' sep' after' q) := by
  have hcut := rel_cutInitializer? 0 hafter
  rw [atEquals?, atEquals?]
  generalize cutInitializer? 0 after = x at hcut ⊢
  generalize cutInitializer? 0 after' = y at hcut ⊢
  cases hcut with
  | none => exact .none
  | @some a b hcut =>
    obtain ⟨init, stop, more⟩ := a
    obtain ⟨init', stop', more'⟩ := b
    obtain ⟨hinit, hstop, hmore⟩ := hcut
    have hcopies : Cell.Alike (p.copy [name.token, sep.token]).1
        (q.copy [name'.token, sep'.token]).1 :=
      alike_copy p q (by rw [hname, hsep])
    have hwritten := hlead.append
      (.cons (Cell.token_withText_eq hsep ";") hcopies)
    dsimp only
    rw [Cell.text_eq hstop]
    split
    · exact .some ⟨hwritten, hinit.append
        (.cons (Cell.token_withText_eq hstop _)
          ((alike_copy _ _ htype).append hmore))⟩
    · exact .some ⟨hwritten, hinit.append (.cons hstop hmore)⟩

end Parts

/-- Whether a declaration comes next, and what it is split into, are read off
the texts. -/
theorem rel_next? (before : String) (p q : SlotPool)
    (h : Cell.Alike xs ys) :
    Option.Rel Split.Alike (next? before xs p) (next? before ys q) := by
  rw [next?, next?, shapeOf?_of_alike h]
  split
  · split
    · exact .none
    · next shape _ =>
      have hlead := h.take shape.before
      have hrest := h.drop shape.before
      have hname := rel_nameCell? (hlead.drop shape.type)
      dsimp only
      generalize xs.drop shape.before = x at hrest ⊢
      generalize ys.drop shape.before = y at hrest ⊢
      generalize nameCell? ((xs.take shape.before).drop shape.type) = m
        at hname ⊢
      generalize nameCell? ((ys.take shape.before).drop shape.type) = n
        at hname ⊢
      cases x with
      | nil =>
        rw [hrest.eq_nil]
        exact .none
      | cons sep after =>
        obtain ⟨sep', after', rfl, hsep, hafter⟩ := hrest.exists_cons
        cases hname with
        | none => exact .none
        | some hname =>
          dsimp only
          rw [Cell.text_eq hsep]
          split
          · exact .some (alike_atComma hlead (hlead.take _) hsep hafter p q)
          · exact rel_atEquals? hlead (hlead.take _) hsep hafter p q hname
  · exact .none

end Declaration

section Equations

variable {c : Cell} {rest : List Cell} {pool : SlotPool}

/-- Where no declaration comes next, a cell is passed. -/
theorem splitDeclarations_of_next?_eq_none
    (h : Declaration.next? c.text rest pool = none) :
    splitDeclarations (c :: rest) pool
      = (splitDeclarations rest pool).cons c := by
  rw [splitDeclarations]
  split
  · next hnext =>
    rw [h] at hnext
    cases hnext
  · rfl

/-- A declaration that comes next is split, and the pass goes on behind what
is written for it. -/
theorem splitDeclarations_of_next? {s : Declaration.Split}
    (h : Declaration.next? c.text rest pool = some s) :
    splitDeclarations (c :: rest) pool
      = ((splitDeclarations s.left s.pool).prepend (c :: s.written)).plus
          1 := by
  rw [splitDeclarations]
  split
  · next hnext =>
    rw [h] at hnext
    cases hnext
    rfl
  · next hnext =>
    rw [h] at hnext
    cases hnext

end Equations

/-- Splitting declarations is a sound pass. -/
theorem sound_splitDeclarations : Pass.Sound splitDeclarations where
  exchanged := fun cells pool => by
    fun_induction splitDeclarations cells pool with
    | case1 pool => exact Row.Exchanged.refl _
    | case2 pool c rest s hnext ih =>
      have hdone := Declaration.exchanged_of_next? hnext
      exact (hdone.trans (ih.append _ _ rfl)).cons rfl
    | case3 pool c rest _ ih => exact ih.cons rfl
  alike := fun {xs ys} p q h => by
    fun_induction splitDeclarations xs p generalizing ys q with
    | case1 p =>
      obtain rfl := h.eq_nil
      rw [splitDeclarations]
      exact .unchanged h p q
    | case2 p c rest s hnext ih =>
      obtain ⟨d, ys, rfl, hc, hys⟩ := h.exists_cons
      have hrel := Declaration.rel_next? d.text p q hys
      rw [← Cell.text_eq hc, hnext, Cell.text_eq hc] at hrel
      obtain ⟨t, hy, hst⟩ := exists_of_rel_some hrel
      rw [splitDeclarations_of_next? hy]
      exact ((ih _ hst.left).prepend (hst.written.cons hc)).plus rfl
    | case3 p c rest hnext ih =>
      obtain ⟨d, ys, rfl, hc, hys⟩ := h.exists_cons
      have hrel := Declaration.rel_next? d.text p q hys
      rw [← Cell.text_eq hc, hnext, Cell.text_eq hc] at hrel
      rw [splitDeclarations_of_next?_eq_none (eq_none_of_rel hrel)]
      exact (ih _ hys).cons hc

end FlatC
