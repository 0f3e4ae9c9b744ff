import FlatC.Proofs.Edit.Everywhere
import FlatC.Proofs.Edit.Unsigned
import FlatC.Proofs.Expression.Grammar

/-!
# Expressions read from left to right

A tree does not show what an edit does at some place, as the tokens around
the place belong to any number of trees around each other. What shows it is
how the tokens are read. A **parse** goes through the terminals of `= e ;`
from left to right. It knows what it has read as a place in a tree that is
still open: whether a factor has to come next, in which product, behind which
signs and in which sum, or a term has been read in some sum; and the same for
each parenthesis that is open.

What a parse has read is what its terminals spell out
(`Parse.terminals_of_steps`), and those of an expression can be read to the
end, with that expression as what has been read (`Expression.steps`). There is
one way to read them, so the tokens of an expression are those of no other
(`Expression.texts_injective`).

Parses can be kept from products that are not of some kind, and then they get
through the expressions whose products all are.
-/

namespace FlatC

/-! ## Places -/

/-- **Where a factor has to come** in a term: first, behind a term and a sign,
or negated. It is the term with a hole at its right end. -/
inductive FactorPlace where
  | first
  | behind (t : Term) (op : ProductSign)
  | negated (p : FactorPlace)

/-- **Where a term has to come** in an expression: first, or behind an
expression and a sign. -/
inductive TermPlace where
  | first
  | behind (e : Expression) (op : SumSign)

/-- The term that a factor in its place makes, with the signs in front of it
taken in. -/
def FactorPlace.plug : FactorPlace → Factor → Term
  | .first, f => .factor f
  | .behind t op, f => .product t op f
  | .negated p, f => p.plug (.negated f)

/-- The expression that a term in its place makes. -/
def TermPlace.plug : TermPlace → Term → Expression
  | .first, t => .term t
  | .behind e op, t => .sum e op t

/-- What is in front of a place in its term. -/
def FactorPlace.terminals : FactorPlace → List Terminal
  | .first => []
  | .behind t op => t.terminals ++ [.product op]
  | .negated p => p.terminals ++ [.sum .minus]

/-- What is in front of a place in its expression. -/
def TermPlace.terminals : TermPlace → List Terminal
  | .first => []
  | .behind e op => e.terminals ++ [.sum op]

/-- A factor is written behind what is in front of its place. -/
theorem FactorPlace.terminals_plug (p : FactorPlace) (f : Factor) :
    (p.plug f).terminals = p.terminals ++ f.terminals := by
  induction p generalizing f with
  | first => rfl
  | behind t op => simp [plug, terminals, Term.terminals]
  | negated p ih => simp [plug, terminals, ih, Factor.terminals]

/-- A term is written behind what is in front of its place. -/
theorem TermPlace.terminals_plug (q : TermPlace) (t : Term) :
    (q.plug t).terminals = q.terminals ++ t.terminals := by
  cases q with
  | first => rfl
  | behind e op => simp [plug, terminals, Expression.terminals]

/-- **The place of an expression in parentheses**: of the factor that it
makes, and of the term with that factor. -/
structure GroupPlace where
  factor : FactorPlace
  term : TermPlace

/-- What is in front of what stands in some parentheses, the innermost first.
Each of them ends with the parenthesis that opens it. -/
def GroupPlace.terminals : List GroupPlace → List Terminal
  | [] => []
  | g :: outer =>
    terminals outer ++ g.term.terminals ++ g.factor.terminals ++ [.opening]

/-! ## Parses -/

/-- **A parse** of the terminals of `= e ;`. Its stack has a place for each
parenthesis that is open, so a parse is all that is known of the tree so far
and needs no look ahead. -/
inductive Parse where
  | start
  /-- A factor has to come next. -/
  | awaiting (p : FactorPlace) (q : TermPlace) (outer : List GroupPlace)
  /-- A term has been read, which may go on. -/
  | holding (t : Term) (q : TermPlace) (outer : List GroupPlace)
  | done (e : Expression)

namespace Parse

/-- What a parse has read, from `=` on. A parse forgets nothing, so this
determines the terminals. -/
def terminals : Parse → List Terminal
  | start => []
  | awaiting p q outer =>
    .equals :: (GroupPlace.terminals outer ++ q.terminals ++ p.terminals)
  | holding t q outer =>
    .equals :: (GroupPlace.terminals outer ++ q.terminals ++ t.terminals)
  | done e => .equals :: (e.terminals ++ [.semicolon])

/-- **A terminal read**, if a term goes on with a sign only where it is `ok`.
One constructor for each terminal that may come, but for the minus, which is a
sign where a factor has to come and a difference behind a term. -/
inductive Step (ok : Term → ProductSign → Prop) :
    Parse → Terminal → Parse → Prop
  | equals : Step ok start .equals (awaiting .first .first [])
  | name {p : FactorPlace} {q : TermPlace} {outer : List GroupPlace}
    (x : Variable) :
    Step ok (awaiting p q outer) (.name x)
      (holding (p.plug (.name x)) q outer)
  | number {p : FactorPlace} {q : TermPlace} {outer : List GroupPlace}
    (n : Int) :
    Step ok (awaiting p q outer) (.number n)
      (holding (p.plug (.number n)) q outer)
  | negated {p : FactorPlace} {q : TermPlace} {outer : List GroupPlace} :
    Step ok (awaiting p q outer) (.sum .minus)
      (awaiting (.negated p) q outer)
  | opening {p : FactorPlace} {q : TermPlace} {outer : List GroupPlace} :
    Step ok (awaiting p q outer) .opening
      (awaiting .first .first (⟨p, q⟩ :: outer))
  | product {t : Term} {q : TermPlace} {outer : List GroupPlace}
    (op : ProductSign) : ok t op →
    Step ok (holding t q outer) (.product op)
      (awaiting (.behind t op) q outer)
  | sum {t : Term} {q : TermPlace} {outer : List GroupPlace} (op : SumSign) :
    Step ok (holding t q outer) (.sum op)
      (awaiting .first (.behind (q.plug t) op) outer)
  | closing {t : Term} {q : TermPlace} {g : GroupPlace}
    {outer : List GroupPlace} :
    Step ok (holding t q (g :: outer)) .closing
      (holding (g.factor.plug (.group (q.plug t))) g.term outer)
  | semicolon {t : Term} {q : TermPlace} :
    Step ok (holding t q []) .semicolon (done (q.plug t))

/-- **Terminals read**, one after another, with no choice left at any of them. -/
inductive Steps (ok : Term → ProductSign → Prop) :
    Parse → List Terminal → Parse → Prop
  | nil (s : Parse) : Steps ok s [] s
  | cons {s t u : Parse} {a : Terminal} {as : List Terminal} :
    Step ok s a t → Steps ok t as u → Steps ok s (a :: as) u

variable {ok : Term → ProductSign → Prop} {s t t' u : Parse} {a : Terminal}
variable {as bs : List Terminal} {e : Expression}

/-- One terminal read is terminals read. -/
theorem Step.steps (h : Step ok s a t) : Steps ok s [a] t :=
  .cons h (.nil t)

/-- Terminals are read one stretch after another. -/
theorem Steps.append (h : Steps ok s as t) (h' : Steps ok t bs u) :
    Steps ok s (as ++ bs) u := by
  induction h with
  | nil => exact h'
  | cons hstep _ ih => exact .cons hstep (ih h')

/-- Terminals read are read up to any place among them. -/
theorem Steps.exists_of_append (h : Steps ok s (as ++ bs) u) :
    ∃ t, Steps ok s as t ∧ Steps ok t bs u := by
  induction as generalizing s with
  | nil => exact ⟨s, .nil s, h⟩
  | cons a as ih =>
    cases h with
    | cons hstep h =>
      obtain ⟨t, has, hbs⟩ := ih h
      exact ⟨t, .cons hstep has, hbs⟩

/-- **There is one way to read a terminal**, as what has to come next tells
a negation from a difference. -/
theorem Step.unique (h : Step ok s a t) (h' : Step ok s a t') : t = t' := by
  cases h <;> cases h' <;> rfl

/-- There is one way to read terminals, so what they spell out is determined. -/
theorem Steps.unique (h : Steps ok s as t) (h' : Steps ok s as t') :
    t = t' := by
  induction h with
  | nil =>
    cases h'
    rfl
  | cons hstep _ ih =>
    cases h' with
    | cons hstep' h' =>
      cases hstep.unique hstep'
      exact ih h'

/-- **What is read is put behind what has been read.** One case for each
terminal; only a closing parenthesis moves what it closes to another place. -/
theorem Step.terminals_eq (h : Step ok s a t) :
    t.terminals = s.terminals ++ [a] := by
  cases h with
  | equals => rfl
  | name x =>
    simp [terminals, FactorPlace.terminals_plug, Factor.terminals]
  | number n =>
    simp [terminals, FactorPlace.terminals_plug, Factor.terminals]
  | negated => simp [terminals, FactorPlace.terminals]
  | opening =>
    simp [terminals, GroupPlace.terminals, FactorPlace.terminals,
      TermPlace.terminals]
  | product op => simp [terminals, FactorPlace.terminals]
  | sum op =>
    simp [terminals, FactorPlace.terminals, TermPlace.terminals,
      TermPlace.terminals_plug]
  | closing =>
    simp [terminals, GroupPlace.terminals, FactorPlace.terminals_plug,
      TermPlace.terminals_plug, Factor.terminals]
  | semicolon =>
    simp [terminals, GroupPlace.terminals, TermPlace.terminals_plug]

/-- What a parse has read in the end is what it had read and the terminals. -/
theorem Steps.terminals_eq (h : Steps ok s as t) :
    t.terminals = s.terminals ++ as := by
  induction h with
  | nil => rw [List.append_nil]
  | cons hstep _ ih =>
    rw [ih, hstep.terminals_eq, List.append_assoc]
    rfl

/-- **What has been read at the end is what the terminals spell out**, so an
expression read from a text is one with this text. -/
theorem terminals_of_steps (h : Steps ok start as (done e)) :
    as = .equals :: (e.terminals ++ [.semicolon]) :=
  h.terminals_eq.symm

end Parse

/-! ## Expressions are read to the end -/

section Steps

variable {ok : Term → ProductSign → Prop}

open Parse (Steps awaiting holding)

mutual

/-- A factor is read in its place. The induction goes over the three kinds of
trees at once, with the place and the open parentheses left open. -/
theorem Factor.steps (p : FactorPlace) (q : TermPlace)
    (outer : List GroupPlace) : ∀ f : Factor, f.Products ok →
    Steps ok (awaiting p q outer) f.terminals (holding (p.plug f) q outer)
  | .name x, _ => (Parse.Step.name x).steps
  | .number n, _ => (Parse.Step.number n).steps
  | .negated f, h => .cons .negated (f.steps (.negated p) q outer h)
  | .group e, h => by
    obtain ⟨t, r, hplug, hsteps⟩ := e.exists_steps (⟨p, q⟩ :: outer) h
    have hclosing : Parse.Step ok (holding t r (⟨p, q⟩ :: outer)) .closing
        (holding (p.plug (.group (r.plug t))) q outer) :=
      .closing
    rw [hplug] at hclosing
    exact .cons .opening (hsteps.append hclosing.steps)

/-- A term is read, from its first factor on. -/
theorem Term.steps (q : TermPlace) (outer : List GroupPlace) :
    ∀ t : Term, t.Products ok →
    Steps ok (awaiting .first q outer) t.terminals (holding t q outer)
  | .factor f, h => f.steps .first q outer h
  | .product t op f, h =>
    (t.steps q outer h.1).append
      (.cons (.product op h.2.1) (f.steps (.behind t op) q outer h.2.2))

/-- An expression is read, but for what its last term goes on with. That term
is still held at the end, as a product sign might follow, and is put into the
expression by what comes behind it. -/
theorem Expression.exists_steps (outer : List GroupPlace) :
    ∀ e : Expression, e.Products ok → ∃ t q, TermPlace.plug q t = e
      ∧ Steps ok (awaiting .first .first outer) e.terminals
        (holding t q outer)
  | .term t, h => ⟨t, .first, rfl, t.steps .first outer h⟩
  | .sum e op t, h => by
    obtain ⟨t', q, rfl, hsteps⟩ := e.exists_steps outer h.1
    exact ⟨t, .behind (q.plug t') op, rfl,
      hsteps.append (.cons (.sum op) (t.steps _ outer h.2))⟩

end

/-- **An expression is read to the end**: if each product in it is of its
kind, the terminals of the assignment are read and give this expression. -/
theorem Expression.steps (e : Expression) (h : e.Products ok) :
    Steps ok .start (.equals :: (e.terminals ++ [.semicolon])) (.done e) := by
  obtain ⟨t, q, hplug, hsteps⟩ := e.exists_steps [] h
  have hend : Parse.Step ok (holding t q []) .semicolon
      (.done (q.plug t)) :=
    .semicolon
  rw [hplug] at hend
  exact .cons .equals (hsteps.append hend.steps)

end Steps

/-- **Expressions with the same texts are the same.** So it makes sense to
speak of the value of a text, and of what a pass does to it. -/
theorem Expression.texts_injective {x : Variable} {e e' : Expression}
    (h : e.texts x = e'.texts x) : e = e' := by
  have hread : ∀ e : Expression, Parse.Steps (fun _ _ => True) .start
      (.equals :: (e.terminals ++ [.semicolon])) (.done e) := fun e =>
    e.steps (e.products_of_forall fun _ _ => trivial)
  have hterminals := List.map_injective_iff.mpr
    (fun _ _ => Terminal.text_injective) h
  rw [List.cons.injEq] at hterminals
  exact Parse.done.inj ((hread e).unique (hterminals.2 ▸ hread e'))

end FlatC
