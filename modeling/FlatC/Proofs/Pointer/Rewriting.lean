import FlatC.Proofs.Chain.Runs
import FlatC.Proofs.Edit.Replacing
import FlatC.Proofs.Pointer.Grammar

/-!
# Writing subscripts in an expression

A subscript is written where a `*` stands behind a context, and of the tokens
of an assignment the contexts are `=` and `(`. So it is written for a `*` that
begins the expression or one in parentheses, and for no other: behind a `+`,
a `[` or another `*` it is left. What becomes of an expression can therefore
be told along its tree (`Sum.subscripted`), and the pass leaves just the texts
of that (`Sum.leaves`).

The pass looks at the six tokens of `* ( p + n )` and at the one before. What
comes behind them belongs to the parentheses, if it is a subscript or a
member; but once `p [ n ]` is written it goes behind that, and is no longer
under the `*` (`Access.rebased?`). So the tree is kept just if nothing of the
kind comes behind a sum that a subscript is written for (`Sum.Tight`,
`TokenChain.Laid.keeps_tree_iff`). That it may come is seen from
`* ( p + 1 ) . x` (`TokenChain.not_keeps_tree`).
-/

namespace FlatC

namespace Pointer

open Subscript (contexts)

/-! ## What becomes of an expression -/

/-- The name and the number that an expression is the sum of, if it is nothing
more: what the pass looks for between parentheses. -/
def Sum.offset? : Sum → Option (Variable × Literal)
  | .plus (.operand (.access (.name p))) (.access (.number n)) => some (p, n)
  | _ => none

mutual

/-- What becomes of an access with no `*` in front. In parentheses there is a
context, as `(` is one, and in square brackets there is none. -/
def Access.subscripted : Access → Access
  | .name x => .name x
  | .number n => .number n
  | .group e => .group (e.subscripted true)
  | .index a e => .index a.subscripted (e.subscripted false)
  | .member a x => .member a.subscripted x

/-- **What becomes of an access with a `*` in front** that begins an operand,
if that is written as a subscript: whatever stands behind the parentheses of
the sum stands behind the subscript then. The pass does not look at what that
is. -/
def Access.rebased? : Access → Option Access
  | .name _ => none
  | .number _ => none
  | .group e => e.offset?.map fun (p, n) =>
    .index (.name p) (.operand (.access (.number n)))
  | .index a e => a.rebased?.map fun b => .index b (e.subscripted false)
  | .member a x => a.rebased?.map fun b => .member b x

/-- The same for an operand: with a second `*` in front there is nothing to be
written at the first. -/
def Operand.rebased? : Operand → Option Access
  | .access a => a.rebased?
  | .deref _ => none

/-- What becomes of an operand, if it stands in a context or not. Only the
outermost `*` can, since the one behind it is no context. -/
def Operand.subscripted (inContext : Bool) : Operand → Operand
  | .access a => .access a.subscripted
  | .deref o =>
    match inContext, o.rebased? with
    | true, some a => .access a
    | _, _ => .deref (o.subscripted false)

/-- **What becomes of an expression**, if it stands in a context or not. Only
its first operand does, as `+` is no context. -/
def Sum.subscripted (inContext : Bool) : Sum → Sum
  | .operand o => .operand (o.subscripted inContext)
  | .plus e o => .plus (e.subscripted inContext) (o.subscripted false)

end

/-! ## When nothing stands behind the sums -/

/-- Whether an operand is an expression in parentheses, with nothing behind
them. -/
def Operand.IsGroup : Operand → Prop
  | .access (.group _) => True
  | _ => False

mutual

/-- In an access, nothing stands behind a sum that a subscript is written for.
This goes into its brackets as the pass does. -/
def Access.Tight : Access → Prop
  | .name _ => True
  | .number _ => True
  | .group e => e.Tight true
  | .index a e => a.Tight ∧ e.Tight false
  | .member a _ => a.Tight

/-- The same for an operand: where a subscript is written, the parentheses are
all of it. -/
def Operand.Tight (inContext : Bool) : Operand → Prop
  | .access a => a.Tight
  | .deref o =>
    match inContext, o.rebased? with
    | true, some _ => o.IsGroup
    | _, _ => o.Tight false

/-- **No subscript or member stands behind a sum** that a subscript is written
for, here or in its brackets. It is decided by the tree alone and does not
mention the pass. -/
def Sum.Tight (inContext : Bool) : Sum → Prop
  | .operand o => o.Tight inContext
  | .plus e o => e.Tight inContext ∧ o.Tight false

end

section Trees

variable {a b : Access} {e : Sum} {o : Operand} {p : Variable} {n : Literal}

/-- In a context, the `*` is taken away where there is a subscript to be
written. -/
theorem Operand.subscripted_of_rebased? (h : o.rebased? = some b) :
    (Operand.deref o).subscripted true = .access b := by
  unfold Operand.subscripted
  rw [h]

/-- Such an operand is tight just if the parentheses are all that is
dereferenced. -/
theorem Operand.tight_of_rebased? (h : o.rebased? = some b) :
    (Operand.deref o).Tight true ↔ o.IsGroup := by
  unfold Operand.Tight
  rw [h]

/-- Everywhere else the `*` is kept. -/
theorem Operand.subscripted_deref {inContext : Bool}
    (h : ¬ (inContext = true ∧ o.rebased?.isSome = true)) :
    (Operand.deref o).subscripted inContext
      = .deref (o.subscripted false) := by
  rw [Operand.subscripted]
  rintro b rfl hb
  exact h ⟨rfl, by rw [hb]; rfl⟩

/-- Everywhere else it is what is behind the `*` that has to be tight. -/
theorem Operand.tight_deref {inContext : Bool}
    (h : ¬ (inContext = true ∧ o.rebased?.isSome = true)) :
    (Operand.deref o).Tight inContext ↔ o.Tight false := by
  rw [Operand.Tight]
  rintro b rfl hb
  exact h ⟨rfl, by rw [hb]; rfl⟩

/-- What is the sum of a name and a number has no other form. -/
theorem Sum.eq_of_offset? (h : e.offset? = some (p, n)) :
    e = .plus (.operand (.access (.name p))) (.access (.number n)) := by
  unfold offset? at h
  split at h
  · cases h
    rfl
  · cases h

/-- The pass makes no name of an access that was none, and leaves those that
were. -/
theorem Access.name?_subscripted (a : Access) :
    a.subscripted.name? = a.name? := by
  cases a <;> rfl

/-- An access that is a name has no other form. -/
theorem Access.eq_of_name? (h : a.name? = some p) : a = .name p := by
  cases a <;> cases h
  rfl

/-- An expression that is a number has no other form. -/
theorem Sum.eq_of_number? (h : e.number? = some n) :
    e = .operand (.access (.number n)) := by
  unfold number? at h
  split at h
  · cases h
    rfl
  · cases h

/-- What stands in no context becomes no number that was none. So a subscript
is not taken for one that was written only because of what is in its brackets. -/
theorem Sum.number?_subscripted (e : Sum) :
    (e.subscripted false).number? = e.number? := by
  rcases e with ⟨⟨a⟩ | ⟨o⟩⟩ | ⟨e, o⟩
  · cases a <;> rfl
  · rfl
  · rfl

/-- What is written as a subscript is not just a name. -/
theorem Access.name?_of_rebased? (h : a.rebased? = some b) :
    b.name? = none := by
  cases a with
  | name x | number n => cases h
  | group e | index a e | member a x =>
    obtain ⟨_, -, rfl⟩ := Option.map_eq_some_iff.mp h
    rfl

/-- **Only in front of the parentheses alone** does the `*` go with what it
went with before. With more behind them the outermost node of one tree is a
`*`, and that of the other is not. -/
theorem Operand.tree_of_rebased? (h : o.rebased? = some b) :
    b.tree = .deref o.tree ↔ o.IsGroup := by
  rcases o with ⟨a⟩ | ⟨o⟩
  · cases a with
    | name x | number n => cases h
    | group e =>
      obtain ⟨⟨p, n⟩, hoffset, rfl⟩ := Option.map_eq_some_iff.mp h
      obtain rfl := Sum.eq_of_offset? hoffset
      exact iff_of_true rfl trivial
    | index a e =>
      obtain ⟨c, hc, rfl⟩ := Option.map_eq_some_iff.mp h
      refine iff_of_false (fun htree => ?_) id
      rw [Access.tree, Access.name?_of_rebased? hc] at htree
      cases htree
    | member a x =>
      obtain ⟨c, hc, rfl⟩ := Option.map_eq_some_iff.mp h
      refine iff_of_false (fun htree => ?_) id
      cases htree
  · cases h

mutual

/-- **An access keeps its tree** just if it is tight. The induction goes over
the three kinds of trees at once; a subscript is split by whether it is one of
a name and a number, as that is told in another way. -/
theorem Access.tree_subscripted_iff : ∀ a : Access,
    a.subscripted.tree = a.tree ↔ a.Tight
  | .name x => iff_of_true rfl trivial
  | .number n => iff_of_true rfl trivial
  | .group e => by
    rw [Access.subscripted, Access.tree, Access.tree, Tree.paren.injEq,
      Access.Tight]
    exact e.tree_subscripted_iff true
  | .index a e => by
    have ha := a.tree_subscripted_iff
    have he := e.tree_subscripted_iff false
    rw [Access.subscripted, Access.tree, Access.tree,
      Access.name?_subscripted, Sum.number?_subscripted, Access.Tight]
    split
    · next p n hp hn =>
      obtain rfl := Access.eq_of_name? hp
      obtain rfl := Sum.eq_of_number? hn
      exact iff_of_true rfl ⟨trivial, trivial⟩
    · rw [Tree.index.injEq]
      exact and_congr ha he
  | .member a x => by
    rw [Access.subscripted, Access.tree, Access.tree, Tree.member.injEq,
      Access.Tight]
    exact (and_iff_left rfl).trans a.tree_subscripted_iff

/-- An operand keeps its tree just if it is tight. The only case with
something to see is a `*` that is taken away. -/
theorem Operand.tree_subscripted_iff (inContext : Bool) : ∀ o : Operand,
    (o.subscripted inContext).tree = o.tree ↔ o.Tight inContext
  | .access a => a.tree_subscripted_iff
  | .deref o => by
    have ho := o.tree_subscripted_iff false
    by_cases h : inContext = true ∧ o.rebased?.isSome = true
    · obtain ⟨rfl, hsome⟩ := h
      obtain ⟨b, hb⟩ := Option.isSome_iff_exists.mp hsome
      rw [Operand.subscripted_of_rebased? hb, Operand.tight_of_rebased? hb]
      exact Operand.tree_of_rebased? hb
    · rw [Operand.subscripted_deref h, Operand.tight_deref h, Operand.tree,
        Operand.tree, Tree.deref.injEq]
      exact ho

/-- **An expression keeps its tree** just if it is tight, part by part. -/
theorem Sum.tree_subscripted_iff (inContext : Bool) : ∀ e : Sum,
    (e.subscripted inContext).tree = e.tree ↔ e.Tight inContext
  | .operand o => o.tree_subscripted_iff inContext
  | .plus e o => by
    rw [Sum.subscripted, Sum.tree, Sum.tree, Tree.sum.injEq, Sum.Tight]
    exact and_congr (e.tree_subscripted_iff inContext)
      (o.tree_subscripted_iff false)

end

end Trees

/-! ## How an expression begins -/

section Begins

variable {s t : String} {rest : List String}

/-- **An access that is a single text**, as what comes next belongs to no
access. It is then a name or a number, told apart by its text. -/
theorem Access.eq_of_texts (ht : t ≠ "(") (hs : s ≠ "[") (hs' : s ≠ ".") :
    ∀ (a : Access) (r : List String), a.texts ++ r = t :: s :: rest →
      ((∃ x, a = .name x ∧ x.text = t) ∨ ∃ n, a = .number n ∧ n.text = t)
        ∧ r = s :: rest
  | .name x, r, h => by
    obtain ⟨hx, hr⟩ := List.cons.inj h
    exact ⟨.inl ⟨x, rfl, hx⟩, hr⟩
  | .number n, r, h => by
    obtain ⟨hn, hr⟩ := List.cons.inj h
    exact ⟨.inr ⟨n, rfl, hn⟩, hr⟩
  | .group e, r, h => absurd (List.cons.inj h).1.symm ht
  | .index a e, r, h => by
    rw [Access.texts, List.append_assoc] at h
    obtain ⟨-, hr⟩ := a.eq_of_texts ht hs hs' _ h
    exact absurd (List.cons.inj hr).1.symm hs
  | .member a x, r, h => by
    rw [Access.texts, List.append_assoc] at h
    obtain ⟨-, hr⟩ := a.eq_of_texts ht hs hs' _ h
    exact absurd (List.cons.inj hr).1.symm hs'

/-- An operand that is a single text, which is no `*` either. -/
theorem Operand.eq_of_texts (ht : t ≠ "(") (ht' : t ≠ "*") (hs : s ≠ "[")
    (hs' : s ≠ ".") (o : Operand) (r : List String)
    (h : o.texts ++ r = t :: s :: rest) :
    ((∃ x, o = .access (.name x) ∧ x.text = t)
        ∨ ∃ n, o = .access (.number n) ∧ n.text = t)
      ∧ r = s :: rest := by
  cases o with
  | deref o => exact absurd (List.cons.inj h).1.symm ht'
  | access a =>
    obtain ⟨ha, hr⟩ := a.eq_of_texts ht hs hs' r h
    refine ⟨ha.imp ?_ ?_, hr⟩
    · rintro ⟨x, rfl, hx⟩
      exact ⟨x, rfl, hx⟩
    · rintro ⟨n, rfl, hn⟩
      exact ⟨n, rfl, hn⟩

section Offset

variable {p n : String} {more : List String}
variable (hp : Token.isName p = true) (hn : Token.isNumber n = true)
include hp hn

/-- **A sum of a name and a number**, unless more of it comes. The pass looks
at texts and not at trees, and this is where the closing parenthesis tells
that the sum is over. -/
theorem Sum.isSome_offset? : ∀ (e : Sum) (r : List String),
    e.texts ++ r = p :: "+" :: n :: ")" :: more →
      (∃ x, e = .operand (.access (.name x)))
          ∧ r = "+" :: n :: ")" :: more
        ∨ e.offset?.isSome = true ∧ r = ")" :: more
  | .operand o, r, h => by
    obtain ⟨⟨x, rfl, -⟩ | ⟨m, -, hm⟩, hr⟩ := o.eq_of_texts
      (Token.ne_of_isName hp (by decide +kernel))
      (Token.ne_of_isName hp (by decide +kernel)) (by decide) (by decide) r h
    · exact .inl ⟨⟨x, rfl⟩, hr⟩
    · rw [← hm, Numeral.isName_of_isDigits m.isDigits] at hp
      cases hp
  | .plus e o, r, h => by
    rw [Sum.texts, List.append_assoc] at h
    have hne : ∀ {s : String}, Token.isNumber s = false → n ≠ s := by
      rintro s hs rfl
      exact absurd (hn.symm.trans hs) Bool.noConfusion
    obtain ⟨⟨x, rfl⟩, hr⟩ | ⟨-, hr⟩ := e.isSome_offset? _ h
    · obtain ⟨⟨y, -, hy⟩ | ⟨m, rfl, -⟩, hr'⟩ := o.eq_of_texts
        (hne (by decide +kernel)) (hne (by decide +kernel)) (by decide)
        (by decide) r (List.cons.inj hr).2
      · have hname := y.isName
        rw [hy, Numeral.isName_of_isNumber hn] at hname
        cases hname
      · exact .inr ⟨rfl, hr'⟩
    · exact absurd (List.cons.inj hr).1 (by decide)

/-- **An access that begins with the parentheses of such a sum**, with any
subscripts and members behind them. -/
theorem Access.isSome_rebased? : ∀ (a : Access) (r : List String),
    a.texts ++ r = "(" :: p :: "+" :: n :: ")" :: more →
      a.rebased?.isSome = true
  | .name x, r, h => by
    have hname := x.isName
    rw [(List.cons.inj h).1] at hname
    exact absurd hname (by decide +kernel)
  | .number m, r, h => by
    have hdigits := m.isDigits
    rw [(List.cons.inj h).1] at hdigits
    exact absurd hdigits (by decide +kernel)
  | .group e, r, h => by
    rw [Access.texts, List.cons_append, List.append_assoc] at h
    obtain ⟨-, hr⟩ | ⟨hsome, -⟩ := e.isSome_offset? hp hn _ (List.cons.inj h).2
    · exact absurd (List.cons.inj hr).1 (by decide)
    · rw [Access.rebased?, Option.isSome_map]
      exact hsome
  | .index a e, r, h => by
    rw [Access.texts, List.append_assoc] at h
    rw [Access.rebased?, Option.isSome_map]
    exact a.isSome_rebased? _ h
  | .member a x, r, h => by
    rw [Access.texts, List.append_assoc] at h
    rw [Access.rebased?, Option.isSome_map]
    exact a.isSome_rebased? _ h

end Offset

end Begins

/-! ## What the pass leaves -/

/-- **Some texts that a subscript is written for**, in a context. It is the
pattern of the pass, and the first texts decide. -/
def Begins (texts : List String) : Prop :=
  ∃ p n more, texts = "*" :: "(" :: p :: "+" :: n :: ")" :: more
    ∧ Token.isName p = true ∧ Token.isNumber n = true

/-- An operand begins so only if it has a subscript to be written: the pattern
finds no more than the trees do. -/
theorem Operand.isSome_rebased? {o : Operand} {r : List String}
    (h : Begins ("*" :: (o.texts ++ r))) : o.rebased?.isSome = true := by
  obtain ⟨p, n, more, htexts, hp, hn⟩ := h
  cases o with
  | access a => exact a.isSome_rebased? hp hn r (List.cons.inj htexts).2
  | deref o =>
    exact absurd (List.cons.inj (List.cons.inj htexts).2).1 (by decide)

/-- **What the pass leaves of some texts** behind a cell, if that is a context
or not. The cells may be any with these texts, since the pass looks at nothing
else. -/
def Leaves (inContext : Bool) (texts out : List String) : Prop :=
  ∀ (c : Cell) (cells : List Cell) (pool : SlotPool),
    Token.startsWithAny contexts c.text = inContext →
    cells.map Cell.text = texts →
    (writeSubscripts (c :: cells) pool).cells.map Cell.text = c.text :: out

namespace Leaves

variable {inContext : Bool} {p n s : String} {rest out : List String}

/-- Of no texts nothing is left. -/
theorem nil (inContext : Bool) : Leaves inContext [] [] := by
  intro c cells pool _ hcells
  obtain rfl := List.map_eq_nil_iff.mp hcells
  have hnext : Subscript.next? c.text [] = none := rfl
  rw [writeSubscripts_of_next?_eq_none hnext, writeSubscripts]
  rfl

/-- **A text that is kept**: no subscript is written for what it begins. What
is left of the rest hangs on whether this text is a context. -/
theorem kept (hbegins : inContext = true → ¬ Begins (s :: rest))
    (h : Leaves (Token.startsWithAny contexts s) rest out) :
    Leaves inContext (s :: rest) (s :: out) := by
  intro c cells pool hc hcells
  cases hnext : Subscript.next? c.text cells with
  | none =>
    obtain ⟨d, cells, rfl, rfl, rfl⟩ := List.map_eq_cons_iff.mp hcells
    rw [writeSubscripts_of_next?_eq_none hnext, Edit.cells_cons,
      List.map_cons, h d cells pool rfl rfl]
  | some next =>
    obtain ⟨written, dropped, more⟩ := next
    obtain ⟨x, _, rfl, -, -, hwrites⟩ := Subscript.writes_of_next? hnext
    cases hwrites with
    | subscript hcontext hstar hparen hvar hplus hnum hclose =>
      refine absurd ?_ (hbegins (hc.symm.trans hcontext))
      rw [← hcells]
      refine ⟨_, _, more.map Cell.text, ?_, hvar, hnum⟩
      simp [hstar, hparen, hplus, hclose]

/-- A text that is no `*` is kept, as subscripts are written only for what a
`*` begins. -/
theorem cons {next : Bool} (hs : s ≠ "*")
    (hnext : Token.startsWithAny contexts s = next)
    (h : Leaves next rest out) : Leaves inContext (s :: rest) (s :: out) := by
  subst hnext
  refine kept ?_ h
  rintro - ⟨p, n, more, htexts, -⟩
  exact hs (List.cons.inj htexts).1

/-- A text that is no context either is kept, and behind it nothing is
written. -/
theorem mark (hs : s ∈ [")", "[", "]", ".", "+"])
    (h : Leaves false rest out) : Leaves inContext (s :: rest) (s :: out) := by
  have hmarks : ∀ s ∈ [")", "[", "]", ".", "+"],
      s ≠ "*" ∧ Token.startsWithAny contexts s = false := by
    decide +kernel
  exact .cons (hmarks s hs).1 (hmarks s hs).2 h

/-- A name is kept, and is no context. -/
theorem name (x : Variable) (h : Leaves false rest out) :
    Leaves inContext (x.text :: rest) (x.text :: out) :=
  .cons (Token.ne_of_isName x.isName (by decide +kernel))
    (Token.startsWithAny_of_isName x.isName (by decide)) h

/-- A number is kept, and is no context. -/
theorem number (n : Literal) (h : Leaves false rest out) :
    Leaves inContext (n.text :: rest) (n.text :: out) := by
  have hnumber := Numeral.isNumber_of_isDigits n.isDigits
  refine .cons ?_ (Token.startsWithAny_of_isNumber hnumber (by decide)) h
  intro hstar
  rw [hstar] at hnumber
  exact absurd hnumber (by decide +kernel)

/-- **A subscript that is written.** Six texts become four, and the pass goes
on behind the last of them, which is no context. -/
theorem written (hp : Token.isName p = true) (hn : Token.isNumber n = true)
    (h : Leaves false rest out) :
    Leaves true ("*" :: "(" :: p :: "+" :: n :: ")" :: rest)
      (p :: "[" :: n :: "]" :: out) := by
  intro c cells pool hc hcells
  have hsplit : cells.map Cell.text = ["*", "(", p, "+", n, ")"] ++ rest :=
    hcells
  obtain ⟨window, more, rfl, hwindow, rfl⟩ := List.map_eq_append_iff.mp hsplit
  simp only [List.map_eq_cons_iff, List.map_eq_nil_iff] at hwindow
  obtain ⟨star, _, rfl, hstar, paren, _, rfl, hparen, var, _, rfl, rfl, plus, _,
    rfl, hplus, num, _, rfl, rfl, close, _, rfl, hclose, rfl⟩ := hwindow
  have hwrites := Subscript.Writes.subscript hc hstar hparen hp hplus hn hclose
  obtain ⟨b, dropped, hb, hnext⟩ := hwrites.next?_eq more
  obtain rfl := Option.some.inj hb
  have hclosing : Subscript.next? close.text more = none :=
    Subscript.settled_of_context (by rw [hclose]; decide +kernel) more
  have hmore := h close more (pool.giveAll dropped)
    (by rw [hclose]; decide +kernel) rfl
  rw [writeSubscripts_of_next?_eq_none hclosing] at hmore
  rw [writeSubscripts_of_next? hnext]
  simpa using (List.cons.inj hmore).2

end Leaves

mutual

/-- What the pass leaves of an access. The rest behind it is left open, so
that parts can be put together. -/
theorem Access.leaves (inContext : Bool) : ∀ (a : Access)
    {r out : List String}, Leaves false r out →
    Leaves inContext (a.texts ++ r) (a.subscripted.texts ++ out)
  | .name x, r, out, h => .name x h
  | .number n, r, out, h => .number n h
  | .group e, r, out, h => by
    have he := e.leaves true (.mark (s := ")") (by decide) h)
    have hopening : Leaves inContext ("(" :: _) ("(" :: _) :=
      .cons (by decide) (by decide +kernel) he
    simpa [Access.texts, Access.subscripted] using hopening
  | .index a e, r, out, h => by
    have he := e.leaves false (.mark (s := "]") (by decide) h)
    have ha := a.leaves inContext (.mark (s := "[") (by decide) he)
    simpa [Access.texts, Access.subscripted] using ha
  | .member a x, r, out, h => by
    have ha := a.leaves inContext (.mark (s := ".") (by decide) (.name x h))
    simpa [Access.texts, Access.subscripted] using ha

/-- What the pass leaves of an access with a `*` in front that is not there
any more. At the bottom are the parentheses of the sum, and what is behind
them is left as by itself. -/
theorem Access.leaves_rebased : ∀ (a : Access) {b : Access}
    {r out : List String}, a.rebased? = some b → Leaves false r out →
    Leaves true ("*" :: (a.texts ++ r)) (b.texts ++ out)
  | .group e, _, r, out, hb, h => by
    obtain ⟨⟨p, n⟩, hoffset, rfl⟩ := Option.map_eq_some_iff.mp hb
    obtain rfl := Sum.eq_of_offset? hoffset
    exact .written p.isName (Numeral.isNumber_of_isDigits n.isDigits) h
  | .index a e, _, r, out, hb, h => by
    obtain ⟨c, hc, rfl⟩ := Option.map_eq_some_iff.mp hb
    have he := e.leaves false (.mark (s := "]") (by decide) h)
    have ha := a.leaves_rebased hc (.mark (s := "[") (by decide) he)
    simpa [Access.texts] using ha
  | .member a x, _, r, out, hb, h => by
    obtain ⟨c, hc, rfl⟩ := Option.map_eq_some_iff.mp hb
    have ha := a.leaves_rebased hc (.mark (s := ".") (by decide) (.name x h))
    simpa [Access.texts] using ha

/-- The same for an operand, which has no further `*` then. -/
theorem Operand.leaves_rebased : ∀ (o : Operand) {b : Access}
    {r out : List String}, o.rebased? = some b → Leaves false r out →
    Leaves true ("*" :: (o.texts ++ r)) (b.texts ++ out)
  | .access a, _, _, _, hb, h => a.leaves_rebased hb h

/-- What the pass leaves of an operand. A `*` in a context is split by whether
there is a subscript to be written. -/
theorem Operand.leaves (inContext : Bool) : ∀ (o : Operand)
    {r out : List String}, Leaves false r out →
    Leaves inContext (o.texts ++ r) ((o.subscripted inContext).texts ++ out)
  | .access a, r, out, h => a.leaves inContext h
  | .deref o, r, out, h => by
    have ho := o.leaves false h
    by_cases hrebased : inContext = true ∧ o.rebased?.isSome = true
    · obtain ⟨rfl, hsome⟩ := hrebased
      obtain ⟨b, hb⟩ := Option.isSome_iff_exists.mp hsome
      rw [Operand.subscripted_of_rebased? hb]
      exact o.leaves_rebased hb h
    · rw [Operand.subscripted_deref hrebased]
      refine .kept (fun hcontext hbegins => ?_) ho
      exact hrebased ⟨hcontext, Operand.isSome_rebased? hbegins⟩

/-- **What the pass leaves of an expression**: the texts of what becomes of
it, wherever it stands. -/
theorem Sum.leaves (inContext : Bool) : ∀ (e : Sum) {r out : List String},
    Leaves false r out →
    Leaves inContext (e.texts ++ r) ((e.subscripted inContext).texts ++ out)
  | .operand o, r, out, h => o.leaves inContext h
  | .plus e o, r, out, h => by
    have ho := o.leaves false h
    have he := e.leaves inContext (.mark (s := "+") (by decide) ho)
    simpa [Sum.texts, Sum.subscripted] using he

end

end Pointer

/-! ## Chains -/

namespace TokenChain

open Pointer (Sum)

variable {c : TokenChain} {v : Variable} {e : Sum}

/-- **A chain that spells out an assignment**, from the variable to the
semicolon. -/
def Assigns (c : TokenChain) (v : Variable) (e : Sum) : Prop :=
  c.tokens.map Token.text = e.assigned v

/-- **Writing subscripts keeps the tree** of an expression just if it is
tight; what is left is again one expression and no other. So an expression
that is not tight is left with another meaning. -/
theorem Laid.keeps_tree_iff (h : c.Laid c.cells) (hc : c.Assigns v e) :
    ∃ e', (c.edit writeSubscripts).2.Assigns v e'
      ∧ (∀ e'', (c.edit writeSubscripts).2.Assigns v e'' → e'' = e')
      ∧ (e'.tree = e.tree ↔ e.Tight true) := by
  have hassigns :
      (c.edit writeSubscripts).2.Assigns v (e.subscripted true) := by
    rw [Assigns, map_text_tokens] at hc ⊢
    rw [(h.edit sound_writeSubscripts).cells_eq]
    obtain ⟨first, cells, hcells, hfirst, htexts⟩ :=
      List.map_eq_cons_iff.mp hc
    have hend : Pointer.Leaves false [";"] [";"] :=
      .cons (by decide) (by decide +kernel) (.nil true)
    have hequals : Pointer.Leaves false ("=" :: _) ("=" :: _) :=
      .cons (by decide) (by decide +kernel) (e.leaves true hend)
    have hcontext :
        Token.startsWithAny Subscript.contexts first.text = false := by
      rw [hfirst]
      exact Token.startsWithAny_of_isName v.isName (by decide)
    rw [hcells, hequals first cells c.pool hcontext htexts, hfirst]
    rfl
  refine ⟨_, hassigns, fun e'' he'' => ?_, e.tree_subscripted_iff true⟩
  exact Sum.assigned_injective (he''.symm.trans hassigns)

/-- A dereference that goes on with a `+`, and one in parentheses that goes on
with a member. -/
theorem keeps_tree_of_texts :
    let v : Variable := ⟨"v", rfl⟩
    let p : Variable := ⟨"p", rfl⟩
    let one : Pointer.Operand := .access (.number ⟨"1", rfl⟩)
    let star : Pointer.Operand :=
      .deref (.access (.group (.plus (.operand (.access (.name p))) one)))
    let e : Sum := .plus (.operand star)
      (.access (.member (.group (.operand star)) ⟨"x", rfl⟩))
    let c := (ChainOp.run TokenChain.act .empty
      ((e.assigned v).map fun s => .pushBack ⟨s, 1, .first⟩)).2
    e.assigned v = ["v", "=", "*", "(", "p", "+", "1", ")", "+", "(", "*",
        "(", "p", "+", "1", ")", ")", ".", "x", ";"]
      ∧ (c.edit writeSubscripts).2.tokens.map Token.text
        = ["v", "=", "p", "[", "1", "]", "+", "(", "p", "[", "1", "]", ")",
          ".", "x", ";"]
      ∧ c.Assigns v e
      ∧ ∃ e', (c.edit writeSubscripts).2.Assigns v e' ∧ e'.tree = e.tree := by
  intro v p one star e c
  have hassigns : c.Assigns v e := by
    show c.tokens.map Token.text = e.assigned v
    decide +kernel
  have htight : e.Tight true := ⟨trivial, trivial⟩
  have hlaid : c.Laid c.cells := laid_empty.run _
  obtain ⟨e', he', -, htree⟩ := hlaid.keeps_tree_iff hassigns
  exact ⟨by decide +kernel, by decide +kernel, hassigns, e', he',
    htree.mpr htight⟩

/-- **What stands behind a sum is torn off it.** In `* ( p + 1 ) . x` a member
is dereferenced, and what is left, `p [ 1 ] . x`, is a member of what is
dereferenced. -/
theorem not_keeps_tree :
    let v : Variable := ⟨"v", rfl⟩
    let p : Variable := ⟨"p", rfl⟩
    let x : Variable := ⟨"x", rfl⟩
    let one : Pointer.Operand := .access (.number ⟨"1", rfl⟩)
    let e : Sum := .operand (.deref (.access (.member (.group
      (.plus (.operand (.access (.name p))) one)) x)))
    let c := (ChainOp.run TokenChain.act .empty
      ((e.assigned v).map fun s => .pushBack ⟨s, 1, .first⟩)).2
    e.assigned v = ["v", "=", "*", "(", "p", "+", "1", ")", ".", "x", ";"]
      ∧ (c.edit writeSubscripts).2.tokens.map Token.text
        = ["v", "=", "p", "[", "1", "]", ".", "x", ";"]
      ∧ c.Assigns v e
      ∧ ¬ ∃ e', (c.edit writeSubscripts).2.Assigns v e'
        ∧ e'.tree = e.tree := by
  intro v p x one e c
  have hassigns : c.Assigns v e := by
    show c.tokens.map Token.text = e.assigned v
    decide +kernel
  refine ⟨by decide +kernel, by decide +kernel, hassigns, ?_⟩
  rintro ⟨e', he', htree⟩
  let left : Sum := .operand (.access (.member
    (.index (.name p) (.operand one)) x))
  have hleft : (c.edit writeSubscripts).2.Assigns v left := by
    show (c.edit writeSubscripts).2.tokens.map Token.text = left.assigned v
    decide +kernel
  obtain rfl : e' = left := Sum.assigned_injective (he'.symm.trans hleft)
  cases htree

end TokenChain

end FlatC
