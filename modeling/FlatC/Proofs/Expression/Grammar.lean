import FlatC.Proofs.Text.Numeral

/-!
# Expressions

The tokens that folding arithmetic goes over are those of expressions, and
whether folding is right is a matter of what these expressions come to. So
here they are as a grammar has them: an **expression** is terms with `+` and
`-` between them, a **term** is factors with `*`, `/` and `%` between them,
and a **factor** is a variable, a number, a negated factor or an expression
in parentheses. Which operation is inner and which is outer is therefore a
matter of the tree, and a tree that the signs do not spell out cannot be
built.

A number may be negative. Source has no such token, but folding writes one:
the result of `7 - 9` is the token `-2`, and it is to be read as that number.

Values are integers of any size. Division rounds toward zero, the remainder
goes with it, and neither is there by zero.
-/

namespace FlatC

/-- **A variable**, by its name. The name is one that the passes take for a
name, so no variable is a number or a mark. -/
structure Variable where
  text : String
  isName : Token.isName text = true

/-- The signs between the factors of a term: multiplication, division and
remainder. -/
inductive ProductSign where
  | times
  | slash
  | percent
  deriving DecidableEq, Repr

/-- The signs between the terms of an expression. The minus is also the sign
in front of a negated factor. -/
inductive SumSign where
  | plus
  | minus
  deriving DecidableEq, Repr

/-! ## Terminals -/

/-- **What an assignment `x = e ;` is made of**, token by token. Numbers are
whole, as folding writes a negative outcome as one token. -/
inductive Terminal where
  | equals
  | semicolon
  | opening
  | closing
  | name (x : Variable)
  | number (n : Int)
  | product (op : ProductSign)
  | sum (op : SumSign)

namespace Terminal

/-- The text of a terminal, the one that the token has in the chain. -/
def text : Terminal → String
  | equals => "="
  | semicolon => ";"
  | opening => "("
  | closing => ")"
  | name x => x.text
  | number n => toString n
  | product .times => "*"
  | product .slash => "/"
  | product .percent => "%"
  | sum .plus => "+"
  | sum .minus => "-"

/-- The terminals that are always the same text, as against names and numbers. -/
def marks : List Terminal :=
  [equals, semicolon, opening, closing, product .times, product .slash,
    product .percent, sum .plus, sum .minus]

/-- **The terminal with a text**, if there is one. The marks are tried first,
then names, then numbers, and no text is two of these. -/
def ofText? (text : String) : Option Terminal :=
  match marks.find? fun a => a.text == text with
  | some a => some a
  | none =>
    if h : Token.isName text = true then some (name ⟨text, h⟩)
    else (Numeral.ofSigned? text.toList).map number

/-- No mark is a name or a number. The marks are tried one by one, as there
are nine of them. -/
theorem find?_marks_eq_none {text : String}
    (h : Token.isName text = true
      ∨ (Numeral.ofSigned? text.toList).isSome = true) :
    marks.find? (fun a => a.text == text) = none := by
  have hmarks : ∀ a ∈ marks, Token.isName a.text = false
      ∧ (Numeral.ofSigned? a.text.toList).isSome = false := by
    simp only [marks, List.forall_mem_cons, List.not_mem_nil, false_imp_iff,
      implies_true, and_true]
    decide
  rw [List.find?_eq_none]
  intro a ha heq
  obtain ⟨hname, hnumber⟩ := hmarks a ha
  rw [beq_iff_eq.mp heq] at hname hnumber
  rw [hname, hnumber] at h
  exact absurd h (by decide)

/-- **A terminal is told from its text**, so nothing is lost when an
expression is written down as texts. -/
theorem ofText?_text (a : Terminal) : ofText? a.text = some a := by
  cases a with
  | equals | semicolon | opening | closing => rfl
  | product op => cases op <;> rfl
  | sum op => cases op <;> rfl
  | name x =>
    rw [ofText?, text, find?_marks_eq_none (.inl x.isName)]
    exact dif_pos x.isName
  | number n =>
    have hnumber := Numeral.ofSigned?_toString n
    have hname : ¬ Token.isName (toString n) = true := by
      rw [Numeral.isName_toString]
      exact Bool.false_ne_true
    rw [ofText?, text, find?_marks_eq_none (.inr (by rw [hnumber]; rfl))]
    dsimp only
    rw [dif_neg hname, hnumber]
    rfl

/-- **Terminals with the same text are the same.** -/
theorem text_injective {a b : Terminal} (h : a.text = b.text) : a = b :=
  Option.some.inj
    ((ofText?_text a).symm.trans ((congrArg ofText? h).trans (ofText?_text b)))

end Terminal

/-! ## Trees -/

mutual

/-- **A factor**: a name, a number, a factor with a sign in front, or an
expression in parentheses. -/
inductive Factor where
  | name (x : Variable)
  | number (n : Int)
  | negated (f : Factor)
  | group (e : Expression)

/-- **A term**: factors from left to right. As in C, products group to the
left, so the tree is built at its right end. -/
inductive Term where
  | factor (f : Factor)
  | product (t : Term) (op : ProductSign) (f : Factor)

/-- **An expression**: terms from left to right, grouped to the left like the
factors of a term. -/
inductive Expression where
  | term (t : Term)
  | sum (e : Expression) (op : SumSign) (t : Term)

end

mutual

/-- The terminals of a factor, in the order in which they are written. -/
def Factor.terminals : Factor → List Terminal
  | .name x => [.name x]
  | .number n => [.number n]
  | .negated f => .sum .minus :: f.terminals
  | .group e => .opening :: e.terminals ++ [.closing]

/-- The terminals of a term. No parentheses are put in, as its factors have
their own. -/
def Term.terminals : Term → List Terminal
  | .factor f => f.terminals
  | .product t op f => t.terminals ++ .product op :: f.terminals

/-- **The terminals of an expression.** -/
def Expression.terminals : Expression → List Terminal
  | .term t => t.terminals
  | .sum e op t => e.terminals ++ .sum op :: t.terminals

end

/-- **The texts of an assignment** `x = e ;`, from the variable to the
semicolon. This is the form in which the chain has it. -/
def Expression.texts (x : Variable) (e : Expression) : List String :=
  (.name x :: .equals :: (e.terminals ++ [.semicolon])).map Terminal.text

/-! ## Values -/

/-- What a sign makes of two numbers. Division goes towards zero and the
remainder has the sign of what is divided, as in C; by zero there is no value. -/
def ProductSign.value? : ProductSign → Int → Int → Option Int
  | .times, m, n => some (m * n)
  | .slash, m, n => if n = 0 then none else some (m.tdiv n)
  | .percent, m, n => if n = 0 then none else some (m.tmod n)

/-- What a sign makes of two numbers, without a bound on the outcome. -/
def SumSign.value : SumSign → Int → Int → Int
  | .plus, m, n => m + n
  | .minus, m, n => m - n

section Values

variable (assigned : String → Int)

mutual

/-- The value of a factor, if the expressions in it have one. -/
def Factor.value? : Factor → Option Int
  | .name x => some (assigned x.text)
  | .number n => some n
  | .negated f => f.value?.map fun n => -n
  | .group e => e.value?

/-- The value of a term, from left to right. It has none if one of its factors
has none, or where it divides by zero. -/
def Term.value? : Term → Option Int
  | .factor f => f.value?
  | .product t op f =>
    t.value?.bind fun m => f.value?.bind fun n => op.value? m n

/-- **The value of an expression**, if it has one, for what is assigned to
its variables. -/
def Expression.value? : Expression → Option Int
  | .term t => t.value?
  | .sum e op t => e.value?.bind fun m => t.value?.map fun n => op.value m n

end

end Values

/-! ## Products -/

section Products

variable (ok : Term → ProductSign → Prop)

mutual

/-- Each product in a factor is of its kind, those in its parentheses too. -/
def Factor.Products : Factor → Prop
  | .name _ => True
  | .number _ => True
  | .negated f => f.Products
  | .group e => e.Products

/-- Each product in a term is of its kind: what stands in front of a sign, as
a term of its own, may go on with that sign. -/
def Term.Products : Term → Prop
  | .factor f => f.Products
  | .product t op f => t.Products ∧ ok t op ∧ f.Products

/-- **Each product in an expression** has a left side and a sign of some kind.
The kind is a parameter, so that the same parse serves for all expressions and
for those that may be folded. -/
def Expression.Products : Expression → Prop
  | .term t => t.Products
  | .sum e _ t => e.Products ∧ t.Products

end

end Products

section All

variable {ok : Term → ProductSign → Prop}

mutual

/-- Each product in a factor is of a kind that all products are of. -/
theorem Factor.products_of_forall (h : ∀ t op, ok t op) :
    ∀ f : Factor, f.Products ok
  | .name _ => trivial
  | .number _ => trivial
  | .negated f => f.products_of_forall h
  | .group e => e.products_of_forall h

/-- Each product in a term is of a kind that all products are of. -/
theorem Term.products_of_forall (h : ∀ t op, ok t op) :
    ∀ t : Term, t.Products ok
  | .factor f => f.products_of_forall h
  | .product t op f =>
    ⟨t.products_of_forall h, h t op, f.products_of_forall h⟩

/-- Each product is of a kind that all products are of. -/
theorem Expression.products_of_forall (h : ∀ t op, ok t op) :
    ∀ e : Expression, e.Products ok
  | .term t => t.products_of_forall h
  | .sum e _ t => ⟨e.products_of_forall h, t.products_of_forall h⟩

end

end All

/-! ## Division by a negated 1 -/

/-- Whether a factor is 1, written as a number and without a sign. -/
def Factor.isOne : Factor → Bool
  | .number n => n == 1
  | _ => false

/-- Whether a factor is 1 with signs in front, at least one. How many there
are does not matter: `- - 1` is one too, as the pass does not count signs
either. -/
def Factor.isNegatedOne : Factor → Bool
  | .negated f => f.isOne || f.isNegatedOne
  | _ => false

/-- **Whether a term ends with a division by a negated 1**, the remainder
included. Behind the division there may be factors 1, as these are dropped
first and leave the division at the end. -/
def Term.dividesByNegatedOne : Term → Bool
  | .factor _ => false
  | .product t op f =>
    if op != .percent && f.isOne then t.dividesByNegatedOne
    else op != .times && f.isNegatedOne

/-- **Whether a term may go on with a sign**: not with `*` behind a division
by a negated 1. There the pass takes the 1 for a factor of what follows. -/
def Term.GoesOn (t : Term) (op : ProductSign) : Prop :=
  op = .times → t.dividesByNegatedOne = false

/-- **An expression that may be folded**: no term in it goes on with `*`
behind a division by a negated 1, at any depth of parentheses. Among these are
all expressions without a sign in front of a factor. -/
def Expression.Foldable (e : Expression) : Prop := e.Products Term.GoesOn

end FlatC
