import FlatC.Proofs.Edit.Rewriting
import FlatC.Proofs.Expression.Alike

/-!
# Folding arithmetic in an expression

Folding looks at a few neighbouring tokens and knows nothing of trees. That it
is right all the same is seen by reading the tokens before and after a
rewriting from left to right: the parse of what stands before the replaced
tokens is the same, the parse is alike again behind them, and from there on it
goes on alike.

An operation that is carried out stands between edges, and of the tokens of an
assignment these are `=` and `(` on the left and `)` and `;` on the right. So
it is all of an expression, and the number put in its place is an expression
alike. A factor 1 that is dropped is where one changes nothing, as long as no
term goes on with `*` behind a division by a negated 1.

Folding an assignment `x = e ;` with such an expression therefore leaves an
assignment to the same variable, with an expression of the same value
(`TokenChain.Laid.exists_value?_eq`). The condition is needed: the `1 *` of
`6 / - 1 * 2` is dropped, as the token before the 1 is neither `/` nor `%`, but
what is left is `6 / - 2` (`TokenChain.not_exists_value?_eq`).
-/

namespace FlatC

open Arithmetic (Operand Operation UnitFactor Rewrite Rewrites leftEdges
  rightEdges)

/-! ## Terminals by their texts -/

namespace Terminal

variable {a : Terminal} {m n : Nat} {v : Int}

/-- **A number that can be calculated with is a number** of the grammar,
namely the terminal with that value: no other terminal has a text that is read
as digits. -/
theorem eq_number_of_operand (h : Operand a.text m) : a = number m := by
  have hof := h.ofDigits?_eq
  cases a with
  | equals | semicolon | opening | closing => cases hof
  | product op => cases op <;> cases hof
  | sum op => cases op <;> cases hof
  | name x =>
    have hname := Numeral.isName_of_isDigits h.isDigits
    rw [text, x.isName] at hname
    cases hname
  | number n => rw [Numeral.eq_of_ofDigits?_toString hof]

/-- The sign of an operation, and what it makes of the operands. The pass and
the grammar agree on the value, for the sums always and for the products
wherever the pass carries them out. -/
theorem sign_of_operation (h : Operation a.text m n v) :
    (∃ op, a = sum op ∧ op.value m n = v)
      ∨ ∃ op, a = product op ∧ op.value? m n = some v := by
  generalize htext : a.text = text at h
  cases h with
  | sum =>
    exact .inl ⟨.plus, text_injective (b := sum .plus) htext, rfl⟩
  | difference =>
    exact .inl ⟨.minus, text_injective (b := sum .minus) htext, rfl⟩
  | product =>
    exact .inr ⟨.times, text_injective (b := product .times) htext, rfl⟩
  | quotient _ hzero =>
    refine .inr ⟨.slash, text_injective (b := product .slash) htext, ?_⟩
    exact if_neg fun h => hzero (Int.ofNat_eq_zero.mp h)

end Terminal

namespace Parse

variable {ok : Term → ProductSign → Prop} {s t u : Parse} {a : Terminal}
variable {p : FactorPlace} {q : TermPlace} {outer : List GroupPlace}

/-! ## Edges -/

/-- **Between edges there is an expression**: behind a left edge no factor has
been read, neither in this term nor a term in this expression. -/
theorem Step.eq_first (h : Step ok s a (awaiting p q outer))
    (hedge : Token.startsWithAny leftEdges a.text = true) :
    p = .first ∧ q = .first := by
  cases h with
  | equals => exact ⟨rfl, rfl⟩
  | opening => exact ⟨rfl, rfl⟩
  | negated => cases hedge
  | product op => cases op <;> cases hedge
  | sum op => cases op <;> cases hedge

/-- **At a right edge an expression is over**, and all that matters is which
expression it is. How it is split into a first part and a last term is then
forgotten, so an expression can be replaced by one of another shape and the
same value. -/
theorem Step.exists_alike_of_edge {t' : Term} {q' : TermPlace} {tm : Term}
    (h : Step ok (holding tm q outer) a u)
    (hedge : Token.startsWithAny rightEdges a.text = true)
    (halike : (q.plug tm).Alike (q'.plug t')) :
    ∃ u', Step ok (holding t' q' outer) a u' ∧ u.Alike u' := by
  cases h with
  | product op => cases op <;> cases hedge
  | sum op => cases op <;> cases hedge
  | @closing _ _ g outer =>
    refine ⟨_, .closing, .holding ?_ (.refl _) ?_⟩
    · exact (FactorPlace.Alike.refl _).plug halike.group
    · exact GroupPlace.forall₂_alike_refl outer
  | semicolon => exact ⟨_, .semicolon, .done halike⟩

/-- **What divides is in front of the factor**, unless a sign is. So a look at
the one token in front of a factor tells whether it is divided by, but for
signs in between. -/
theorem Step.of_divides (h : Step ok s a (awaiting p q outer))
    (hdivides : p.divides = true) :
    (∃ p', p = .negated p') ∨ a = .product .slash
      ∨ a = .product .percent := by
  cases h with
  | equals => cases hdivides
  | opening => cases hdivides
  | @negated p => exact .inl ⟨p, rfl⟩
  | sum op => cases hdivides
  | product op =>
    cases op with
    | times => cases hdivides
    | slash => exact .inr (.inl rfl)
    | percent => exact .inr (.inr rfl)

/-! ## Cells read -/

/-- **Cells read by their texts**, where no term goes on with `*` behind a
division by a negated 1. The pass works on cells and the grammar on terminals,
and this ties the two: there are terminals with the texts of the cells. -/
def Reads (s : Parse) (cells : List Cell) (u : Parse) : Prop :=
  ∃ as : List Terminal, cells.map Cell.text = as.map Terminal.text
    ∧ Steps Term.GoesOn s as u

variable {c x left op right : Cell} {cells xs ys rest : List Cell}
variable {m n : Nat} {v : Int} {next : Option String} {e : Expression}

/-- No cells are read as they are. -/
theorem Reads.nil (s : Parse) : Reads s [] s :=
  ⟨[], rfl, .nil s⟩

/-- A cell with the text of a terminal is read where the terminal is. -/
theorem Reads.cons (htext : c.text = a.text) (hstep : Step Term.GoesOn s a t)
    (h : Reads t cells u) : Reads s (c :: cells) u := by
  obtain ⟨as, htexts, hsteps⟩ := h
  refine ⟨a :: as, ?_, .cons hstep hsteps⟩
  rw [List.map_cons, List.map_cons, htext, htexts]

/-- The first of some cells is read, and then the rest. -/
theorem Reads.of_cons (h : Reads s (c :: cells) u) :
    ∃ a t, c.text = a.text ∧ Step Term.GoesOn s a t ∧ Reads t cells u := by
  obtain ⟨as, htexts, hsteps⟩ := h
  cases hsteps with
  | nil => cases htexts
  | cons hstep hsteps =>
    obtain ⟨htext, htexts⟩ := List.cons.inj htexts
    exact ⟨_, _, htext, hstep, _, htexts, hsteps⟩

/-- Cells are read one stretch after another. -/
theorem Reads.append (h : Reads s xs t) (h' : Reads t ys u) :
    Reads s (xs ++ ys) u := by
  obtain ⟨as, hxs, has⟩ := h
  obtain ⟨bs, hys, hbs⟩ := h'
  refine ⟨as ++ bs, ?_, has.append hbs⟩
  rw [List.map_append, List.map_append, hxs, hys]

/-- Cells read are read up to any place among them. With this a rewriting is
looked at where it happens, and the cells in front of it are left alone. -/
theorem Reads.of_append (h : Reads s (xs ++ ys) u) :
    ∃ t, Reads s xs t ∧ Reads t ys u := by
  obtain ⟨as, htexts, hsteps⟩ := h
  rw [List.map_append] at htexts
  obtain ⟨as, bs, rfl, hxs, hys⟩ := List.append_eq_map_iff.mp htexts
  obtain ⟨t, has, hbs⟩ := hsteps.exists_of_append
  exact ⟨t, ⟨as, hxs.symm, has⟩, ⟨bs, hys.symm, hbs⟩⟩

/-- **Cells are read alike** from parses alike, whatever the cells are. -/
theorem Reads.exists_alike (h : Reads s cells u) {s' : Parse}
    (halike : s.Alike s') : ∃ u', Reads s' cells u' ∧ u.Alike u' := by
  obtain ⟨as, htexts, hsteps⟩ := h
  obtain ⟨u', hsteps', hu⟩ := hsteps.exists_alike halike
  exact ⟨u', ⟨as, htexts, hsteps'⟩, hu⟩

/-! ## Rewritings -/

/-- **A factor 1 that is dropped is one that changes nothing.** The pass drops
`1 *` unless `/` or `%` is in front. What it does not look at are signs
between the `/` and the 1; but then the term would end with a division by a
negated 1, behind which it may not go on with `*`. -/
theorem Reads.of_unitFactor {b : Cell}
    (h : Reads s (left :: c :: b :: rest) u)
    (hunit : UnitFactor left.text c.text b.text next) :
    ∃ u', Reads s (left :: rest) u' ∧ u.Alike u' := by
  obtain ⟨a₁, s₁, htext₁, hleft, h⟩ := h.of_cons
  obtain ⟨a₂, s₂, htext₂, hfirst, h⟩ := h.of_cons
  obtain ⟨a₃, s₃, htext₃, hsecond, h⟩ := h.of_cons
  -- what is left to compare is the parse behind the three cells with the
  -- parse behind the first
  have hsuffices : s₃.Alike s₁ →
      ∃ u', Reads s (left :: rest) u' ∧ u.Alike u' := by
    intro halike
    obtain ⟨u', hrest, hu⟩ := h.exists_alike halike
    exact ⟨u', .cons htext₁ hleft hrest, hu⟩
  refine hsuffices ?_
  rw [htext₁, htext₂, htext₃] at hunit
  generalize hone : a₂.text = first, hsign : a₃.text = second at hunit
  cases hunit with
  | behind hsigns _ =>
    obtain rfl : a₃ = .number 1 :=
      Terminal.text_injective (b := .number 1) hsign
    obtain ⟨op, hop, rfl⟩ : ∃ op, op ≠ .percent ∧ a₂ = .product op := by
      rcases hsigns with rfl | rfl
      · exact ⟨.times, by decide,
          Terminal.text_injective (b := .product .times) hone⟩
      · exact ⟨.slash, by decide,
          Terminal.text_injective (b := .product .slash) hone⟩
    cases hfirst
    cases hsecond
    exact .holding (Term.alike_product_one hop) (.refl _)
      (GroupPlace.forall₂_alike_refl _)
  | front _ hslash hpercent _ =>
    obtain rfl : a₂ = .number 1 :=
      Terminal.text_injective (b := .number 1) hone
    obtain rfl : a₃ = .product .times :=
      Terminal.text_injective (b := .product .times) hsign
    cases hfirst with
    | @number p =>
      cases hsecond with
      | product _ hgoes =>
        -- a sign in front would make what has been read end with a division
        -- by a negated 1
        have hdivides : p.divides = false := by
          rw [Bool.eq_false_iff]
          intro hdivides
          rcases hleft.of_divides hdivides with ⟨p', rfl⟩ | rfl | rfl
          · have hplug := FactorPlace.dividesByNegatedOne_plug
              (p := p') (f := .negated (.number 1)) hdivides rfl
            exact Bool.false_ne_true ((hgoes rfl).symm.trans hplug)
          · exact hslash rfl
          · exact hpercent rfl
        exact .awaiting (FactorPlace.alike_behind_one hdivides) (.refl _)
          (GroupPlace.forall₂_alike_refl _)

/-- **An operation between numbers is read as an expression of its value.**
The two operands and their sign are all that this expression has so far, so it
can be compared with one that is the number `v`. -/
theorem Reads.of_operands {b : Cell} {outer : List GroupPlace}
    (h : Reads (awaiting .first .first outer) (c :: op :: b :: rest) u)
    (hc : Operand c.text m) (hop : Operation op.text m n v)
    (hb : Operand b.text n) :
    ∃ tm q, Reads (holding tm q outer) rest u
      ∧ (q.plug tm).Alike (TermPlace.first.plug (.factor (.number v))) := by
  obtain ⟨a₁, s₁, htext₁, hfirst, h⟩ := h.of_cons
  obtain ⟨a₂, s₂, htext₂, hsign, h⟩ := h.of_cons
  obtain ⟨a₃, s₃, htext₃, hsecond, h⟩ := h.of_cons
  obtain rfl := Terminal.eq_number_of_operand (htext₁ ▸ hc)
  obtain rfl := Terminal.eq_number_of_operand (htext₃ ▸ hb)
  cases hfirst
  rcases Terminal.sign_of_operation (htext₂ ▸ hop) with
    ⟨op, rfl, rfl⟩ | ⟨op, rfl, hvalue⟩
  · cases hsign
    cases hsecond
    exact ⟨_, _, h, fun _ => rfl⟩
  · cases hsign
    cases hsecond
    exact ⟨_, _, h, fun _ => hvalue⟩

/-- **An operation that is carried out is all of an expression.** The edges on
both sides see to that: on the left nothing has been read, on the right the
expression is over. So its value can stand for it. -/
theorem Reads.of_operation {b : Cell}
    (h : Reads s (left :: c :: op :: b :: right :: rest) u)
    (hleft : Token.startsWithAny leftEdges left.text = true)
    (hc : Operand c.text m) (hop : Operation op.text m n v)
    (hb : Operand b.text n)
    (hright : Token.startsWithAny rightEdges right.text = true) :
    ∃ u', Reads s (left :: c.withText (toString v) :: right :: rest) u'
      ∧ u.Alike u' := by
  obtain ⟨a, t, htext, hstep, h⟩ := h.of_cons
  obtain ⟨a₁, s₁, htext₁, hfirst, -⟩ := h.of_cons
  obtain rfl := Terminal.eq_number_of_operand (htext₁ ▸ hc)
  cases hfirst with
  | @number p q outer =>
    obtain ⟨rfl, rfl⟩ := hstep.eq_first (htext ▸ hleft)
    obtain ⟨tm, q, h, hvalue⟩ := h.of_operands hc hop hb
    obtain ⟨a', t', htext', hedge, h⟩ := h.of_cons
    obtain ⟨s', hedge', halike⟩ :=
      hedge.exists_alike_of_edge (htext' ▸ hright) hvalue
    obtain ⟨u', hrest, hu⟩ := h.exists_alike halike
    exact ⟨u', .cons htext hstep (.cons rfl (.number v)
      (.cons htext' hedge' hrest)), hu⟩

/-- **A rewriting leaves what is read alike**, wherever it happens among the
cells and of whichever of the two kinds it is. -/
theorem Reads.of_rewrite (h : Reads s xs u) (hrewrite : Rewrite xs ys) :
    ∃ u', Reads s ys u' ∧ u.Alike u' := by
  cases hrewrite with
  | factor before hunit =>
    obtain ⟨t, hbefore, h⟩ := h.of_append
    obtain ⟨u', h', hu⟩ := h.of_unitFactor hunit
    exact ⟨u', hbefore.append h', hu⟩
  | operation before hleft hc hop hb hright _ _ =>
    obtain ⟨t, hbefore, h⟩ := h.of_append
    obtain ⟨u', h', hu⟩ := h.of_operation hleft hc hop hb hright
    exact ⟨u', hbefore.append h', hu⟩

/-- In front of `=` there is nothing to rewrite: the assigned variable is
kept, whatever its name. What the pass looks at in front of a place is a sign
or an edge, and a place with `=` in it is neither a 1 nor an operand. -/
theorem Reads.exists_rewrite_of_cons (h : Reads start xs (done e))
    (hrewrite : Rewrite (x :: xs) ys) :
    ∃ ys', ys = x :: ys' ∧ Rewrite xs ys' := by
  have hequals : ∀ c ∈ xs.head?, c.text = "=" := by
    intro c hc
    obtain ⟨xs, rfl⟩ := List.head?_eq_some_iff.mp hc
    obtain ⟨a, t, htext, hstep, -⟩ := h.of_cons
    cases hstep
    exact htext
  generalize hcells : x :: xs = cells at hrewrite
  cases hrewrite with
  | @factor before _ a b _ hunit =>
    cases before with
    | nil =>
      obtain ⟨rfl, rfl⟩ := List.cons.inj hcells
      have htext := hequals a rfl
      generalize a.text = first, b.text = second at hunit htext
      cases hunit with
      | behind hsigns _ =>
        rcases hsigns with rfl | rfl <;> exact absurd htext (by decide)
      | front => exact absurd htext (by decide)
    | cons c before =>
      obtain ⟨rfl, rfl⟩ := List.cons.inj hcells
      exact ⟨_, rfl, .factor before hunit⟩
  | operation before hleft hc hop hb hright hlow hhigh =>
    cases before with
    | nil =>
      obtain ⟨rfl, rfl⟩ := List.cons.inj hcells
      have hof := hc.ofDigits?_eq
      rw [hequals _ rfl] at hof
      cases hof
    | cons c before =>
      obtain ⟨rfl, rfl⟩ := List.cons.inj hcells
      exact ⟨_, rfl, .operation before hleft hc hop hb hright hlow hhigh⟩

/-- **Rewritings of an assignment** leave an assignment to the same cell, of
an expression alike. The induction is on the number of rewritings, with the
expression left open, as each of them makes another one. -/
theorem Reads.of_rewrites {k : Nat} (hrewrites : Rewrites k (x :: xs) ys)
    (h : Reads start xs (done e)) :
    ∃ ys' e', ys = x :: ys' ∧ Reads start ys' (done e') ∧ e.Alike e' := by
  generalize hcells : x :: xs = cells at hrewrites
  induction hrewrites generalizing xs e with
  | none => exact ⟨xs, e, hcells.symm, h, fun _ => rfl⟩
  | next hrewrite _ ih =>
    subst hcells
    obtain ⟨zs, rfl, hrest⟩ := h.exists_rewrite_of_cons hrewrite
    obtain ⟨u', h', halike⟩ := h.of_rewrite hrest
    cases halike with
    | done he =>
      obtain ⟨ys', e', rfl, h', he'⟩ := ih h' rfl
      exact ⟨ys', e', rfl, h', fun assigned =>
        (he assigned).trans (he' assigned)⟩

end Parse

/-! ## Chains -/

namespace TokenChain

variable {c : TokenChain}

/-- **Folding arithmetic keeps values**: an assignment stays one, to the same
variable and of an expression of the same value, if no term in it goes on with
`*` behind a division by a negated 1. Values are those of whole numbers
without a bound, with division as C has it, and an expression that has none
keeps having none. -/
theorem Laid.exists_value?_eq {x : Variable} {e : Expression}
    (h : c.Laid c.cells) (htexts : c.tokens.map Token.text = e.texts x)
    (he : e.Foldable) :
    ∃ e' : Expression,
      (c.edit foldArithmetic).2.tokens.map Token.text = e'.texts x
        ∧ ∀ assigned, e'.value? assigned = e.value? assigned := by
  have hrewrites := rewrites_foldArithmetic c.cells c.pool
  rw [map_text_tokens] at htexts ⊢
  rw [(h.edit sound_foldArithmetic).cells_eq]
  generalize (foldArithmetic c.cells c.pool).cells = ys at hrewrites ⊢
  generalize c.cells = cells at hrewrites htexts
  obtain ⟨target, xs, rfl, htarget, hxs⟩ := List.map_eq_cons_iff.mp htexts
  obtain ⟨ys', e', rfl, ⟨as, hys, hsteps⟩, halike⟩ :=
    Parse.Reads.of_rewrites hrewrites ⟨_, hxs, e.steps he⟩
  refine ⟨e', ?_, fun assigned => (halike assigned).symm⟩
  rw [List.map_cons, hys, Parse.terminals_of_steps hsteps, htarget]
  rfl

/-- Factors 1 before and behind, among signs and divisions, and two
operations carried out, one of which comes to a negative number. -/
theorem exists_value?_eq_of_texts :
    let texts := ["x", "=", "(", "1", "*", "a", "+", "6", "/", "-", "2", "*",
      "1", ")", "%", "(", "3", "-", "5", ")", "*", "-", "1", "*", "(", "2",
      "*", "7", ")", ";"]
    let x : Variable := ⟨"x", rfl⟩
    let a : Variable := ⟨"a", rfl⟩
    let quotient : Term :=
      .product (.factor (.number 6)) .slash (.negated (.number 2))
    let e : Expression := .term (.product (.product (.product
      (.factor (.group (.sum
        (.term (.product (.factor (.number 1)) .times (.name a))) .plus
        (.product quotient .times (.number 1)))))
      .percent (.group (.sum (.term (.factor (.number 3))) .minus
        (.factor (.number 5)))))
      .times (.negated (.number 1)))
      .times (.group (.term
        (.product (.factor (.number 2)) .times (.number 7)))))
    let c := (ChainOp.run TokenChain.act .empty
      (texts.map fun s => .pushBack ⟨s, 1, .first⟩)).2
    c.tokens.map Token.text = texts
      ∧ (c.edit foldArithmetic).2.tokens.map Token.text
        = ["x", "=", "(", "a", "+", "6", "/", "-", "2", ")", "%", "(", "-2",
          ")", "*", "-", "(", "14", ")", ";"]
      ∧ ∃ e' : Expression,
        (c.edit foldArithmetic).2.tokens.map Token.text = e'.texts x
          ∧ ∀ assigned, e'.value? assigned = e.value? assigned := by
  intro texts x a quotient e c
  have he : e.Foldable := by
    simp [e, quotient, Expression.Foldable, Expression.Products,
      Term.Products, Factor.Products, Term.GoesOn, Term.dividesByNegatedOne,
      Factor.isOne, Factor.isNegatedOne]
  refine ⟨by decide +kernel, by decide +kernel, ?_⟩
  exact (laid_empty.run _).exists_value?_eq (by decide +kernel) he

/-- **Behind a division by a negated 1 folding does not keep the value.** Of
`6 / - 1 * 2`, which is -12, the `1 *` is dropped, and `6 / - 2` is -3. -/
theorem not_exists_value?_eq :
    let texts := ["x", "=", "6", "/", "-", "1", "*", "2", ";"]
    let x : Variable := ⟨"x", rfl⟩
    let e : Expression := .term (.product (.product (.factor (.number 6))
      .slash (.negated (.number 1))) .times (.number 2))
    let c := (ChainOp.run TokenChain.act .empty
      (texts.map fun s => .pushBack ⟨s, 1, .first⟩)).2
    c.tokens.map Token.text = texts ∧ e.texts x = texts
      ∧ e.value? (fun _ => 0) = some (-12)
      ∧ ¬ ∃ e' : Expression,
        (c.edit foldArithmetic).2.tokens.map Token.text = e'.texts x
          ∧ ∀ assigned, e.value? assigned ≠ none →
            e'.value? assigned = e.value? assigned := by
  intro texts x e c
  refine ⟨by decide +kernel, by decide +kernel, by decide +kernel, ?_⟩
  rintro ⟨e', htexts, hvalue⟩
  let left : Expression := .term (.product (.factor (.number 6)) .slash
    (.negated (.number 2)))
  have hleft : (c.edit foldArithmetic).2.tokens.map Token.text
      = left.texts x := by
    decide +kernel
  obtain rfl : e' = left :=
    Expression.texts_injective (htexts.symm.trans hleft)
  exact absurd (hvalue (fun _ => 0) (by decide +kernel)) (by decide +kernel)

end TokenChain

end FlatC
