import FlatC.Proofs.Edit.Everywhere
import FlatC.Proofs.Expression.Grammar

/-!
# Expressions with pointers

The sums that subscripts are written for stand in expressions in which a `*`
is no multiplication. An **access** is a name, a number or an expression in
parentheses, with subscripts and members behind it; an **operand** is an
access with `*` in front; and an expression is operands with `+` between
them. So what stands behind an access belongs to the access, and a `*` goes
with all of it: `* ( p + 1 ) . x` dereferences a member.

What a subscript stands for is another matter than how it is written, and
`p [ 1 ]` is read here as `* ( p + 1 )`. That is no expression where an
access has to come, as in `p [ 1 ] . x`. So expressions are compared by their
**trees** (`Tree`), in which anything may be part of anything, and in which
the parentheses are kept.

The texts of an expression are those of no other (`Sum.assigned_injective`):
they are read from left to right (`Parse.read`), and what has been read is
told by a place in an expression that is still open, and by what is open
around it.
-/

namespace FlatC

/-- **A decimal literal**, by its digits. Zeros in front are part of it, as it
is a text and not a number that the pass copies. -/
structure Literal where
  text : String
  isDigits : Numeral.isDigits text.toList = true

namespace Pointer

mutual

/-- **An access**: what subscripts and members go behind. They bind more
tightly than a `*` in front, so they belong to the access and not to what is
dereferenced. -/
inductive Access where
  | name (x : Variable)
  | number (n : Literal)
  | group (e : Sum)
  | index (a : Access) (e : Sum)
  | member (a : Access) (x : Variable)

/-- **An operand**: an access, dereferenced any number of times. -/
inductive Operand where
  | access (a : Access)
  | deref (o : Operand)

/-- **An expression**: operands from left to right, with a `+` between each
two. That is the one sign between operands that the pass looks for. -/
inductive Sum where
  | operand (o : Operand)
  | plus (e : Sum) (o : Operand)

end

/-! ## Texts -/

mutual

/-- The texts of an access, from left to right. -/
def Access.texts : Access → List String
  | .name x => [x.text]
  | .number n => [n.text]
  | .group e => "(" :: (e.texts ++ [")"])
  | .index a e => a.texts ++ "[" :: (e.texts ++ ["]"])
  | .member a x => a.texts ++ [".", x.text]

/-- The texts of an operand. -/
def Operand.texts : Operand → List String
  | .access a => a.texts
  | .deref o => "*" :: o.texts

/-- **The texts of an expression.** Nothing is put in but the brackets that
are in the tree. -/
def Sum.texts : Sum → List String
  | .operand o => o.texts
  | .plus e o => e.texts ++ "+" :: o.texts

end

/-- **The texts of an assignment** `v = e ;`. -/
def Sum.assigned (v : Variable) (e : Sum) : List String :=
  v.text :: "=" :: (e.texts ++ [";"])

/-! ## Trees -/

/-- **A tree**, with parentheses. Those that are written are kept as nodes, so
that trees are equal only if the parentheses are. -/
inductive Tree where
  | name (x : Variable)
  | number (n : Literal)
  | paren (t : Tree)
  | index (t u : Tree)
  | member (t : Tree) (x : Variable)
  | deref (t : Tree)
  | sum (t u : Tree)

/-- The name that an access is, if it is nothing more. -/
def Access.name? : Access → Option Variable
  | .name x => some x
  | _ => none

/-- The number that an expression is, if it is nothing more. -/
def Sum.number? : Sum → Option Literal
  | .operand (.access (.number n)) => some n
  | _ => none

mutual

/-- The tree of an access. What a name and a number make as a subscript is `*
( p + n )`, which is what C takes it for. Other subscripts are kept as they
are, since the pass never writes one. -/
def Access.tree : Access → Tree
  | .name x => .name x
  | .number n => .number n
  | .group e => .paren e.tree
  | .index a e =>
    match a.name?, e.number? with
    | some p, some n => .deref (.paren (.sum (.name p) (.number n)))
    | _, _ => .index a.tree e.tree
  | .member a x => .member a.tree x

/-- The tree of an operand. -/
def Operand.tree : Operand → Tree
  | .access a => a.tree
  | .deref o => .deref o.tree

/-- **The tree of an expression**, grouped to the left as sums are in C. -/
def Sum.tree : Sum → Tree
  | .operand o => o.tree
  | .plus e o => .sum e.tree o.tree

end

/-! ## Reading -/

/-- **Where an operand has to come**: first, behind a `+`, or dereferenced. -/
inductive Place where
  | first
  | behind (e : Sum)
  | deref (p : Place)

/-- The expression that an operand in its place makes, with the stars in front
of it taken in. -/
def Place.fill : Place → Operand → Sum
  | first, o => .operand o
  | behind e, o => .plus e o
  | deref p, o => p.fill (.deref o)

/-- **A bracket that is open**, and the place of what it belongs to. A square
one remembers the access that it is a subscript of. -/
inductive Bracket where
  | round (p : Place)
  | square (a : Access) (p : Place)

/-- **A parse** of the texts of `= e ;`. What has been read is kept as trees
with one hole, so nothing has to be read twice. -/
inductive Parse where
  | start
  /-- An operand has to come next. -/
  | awaiting (p : Place) (outer : List Bracket)
  /-- An access has been read, which may go on. -/
  | holding (a : Access) (p : Place) (outer : List Bracket)
  /-- A `.` has been read behind an access. -/
  | naming (a : Access) (p : Place) (outer : List Bracket)
  | done (e : Sum)

namespace Parse

/-- **The next text read**, if it can come. It is a function, as a text leaves
no choice: a `*` is always a dereference here, and a bracket is closed only by
its own kind. -/
def read : Parse → String → Option Parse
  | start, text => if text = "=" then some (awaiting .first []) else none
  | awaiting p outer, text =>
    if text = "*" then some (awaiting (.deref p) outer)
    else if text = "(" then some (awaiting .first (.round p :: outer))
    else if h : Token.isName text = true then
      some (holding (.name ⟨text, h⟩) p outer)
    else if h : Numeral.isDigits text.toList = true then
      some (holding (.number ⟨text, h⟩) p outer)
    else none
  | holding a p outer, text =>
    let e := p.fill (.access a)
    if text = "+" then some (awaiting (.behind e) outer)
    else if text = "[" then some (awaiting .first (.square a p :: outer))
    else if text = "." then some (naming a p outer)
    else
      match outer with
      | .round q :: outer =>
        if text = ")" then some (holding (.group e) q outer) else none
      | .square b q :: outer =>
        if text = "]" then some (holding (.index b e) q outer) else none
      | [] => if text = ";" then some (done e) else none
  | naming a p outer, text =>
    if h : Token.isName text = true then
      some (holding (.member a ⟨text, h⟩) p outer)
    else none
  | done _, _ => none

/-- **Texts read**, one after another, each of which can come. -/
def Reads (s : Parse) (texts : List String) (t : Parse) : Prop :=
  texts.foldlM read s = some t

variable {s t u : Parse} {text : String} {xs ys : List String}

/-- Texts are read one stretch after another. -/
theorem Reads.append (h : Reads s xs t) (h' : Reads t ys u) :
    Reads s (xs ++ ys) u := by
  rw [Reads, List.foldlM_append, h]
  exact h'

/-- A text and what comes behind it are read. -/
theorem Reads.cons (h : s.read text = some t) (h' : Reads t xs u) :
    Reads s (text :: xs) u := by
  rw [Reads, List.foldlM_cons, h]
  exact h'

/-- One text that can come is texts read. -/
theorem reads_singleton (h : s.read text = some t) : Reads s [text] t :=
  Reads.cons h rfl

/-- There is one way to read texts, since reading is a function. -/
theorem Reads.unique (h : Reads s xs t) (h' : Reads s xs u) : t = u :=
  Option.some.inj (h.symm.trans h')

variable {a : Access} {p : Place} {outer : List Bracket}

/-- Where an operand has to come a name can, and is then held. That it is no
mark and no number follows from what names begin with. -/
theorem read_name (x : Variable) :
    (awaiting p outer).read x.text = some (holding (.name x) p outer) := by
  have hstar := Token.ne_of_isName x.isName (by decide +kernel :
    Token.isName "*" = false)
  have hopen := Token.ne_of_isName x.isName (by decide +kernel :
    Token.isName "(" = false)
  rw [read, if_neg hstar, if_neg hopen, dif_pos x.isName]

/-- Where an operand has to come a number can, and is then held. -/
theorem read_number (n : Literal) :
    (awaiting p outer).read n.text = some (holding (.number n) p outer) := by
  have hne : ∀ {s : String}, Numeral.isDigits s.toList = false →
      n.text ≠ s := by
    rintro s hs rfl
    exact absurd (n.isDigits.symm.trans hs) Bool.noConfusion
  have hname : ¬ Token.isName n.text = true := by
    rw [Numeral.isName_of_isDigits n.isDigits]
    exact Bool.false_ne_true
  rw [read, if_neg (hne (by decide +kernel)),
    if_neg (hne (by decide +kernel)), dif_neg hname, dif_pos n.isDigits]

/-- Behind a dot a name can come, and is the member. -/
theorem read_member (x : Variable) :
    (naming a p outer).read x.text = some (holding (.member a x) p outer) := by
  rw [read, dif_pos x.isName]

end Parse

section Reads

open Pointer.Parse (Reads awaiting holding)

mutual

/-- An access is read in its place. The induction goes over the three kinds of
trees at once, with the place and the open brackets left open. -/
theorem Access.reads (p : Place) (outer : List Bracket) : ∀ a : Access,
    Reads (awaiting p outer) a.texts (holding a p outer)
  | .name x => Parse.reads_singleton (Parse.read_name x)
  | .number n => Parse.reads_singleton (Parse.read_number n)
  | .group e => by
    obtain ⟨a, q, rfl, hreads⟩ := e.exists_reads (.round p :: outer)
    exact .cons rfl (hreads.append (Parse.reads_singleton rfl))
  | .index a e => by
    obtain ⟨b, q, rfl, hreads⟩ := e.exists_reads (.square a p :: outer)
    exact (a.reads p outer).append
      (.cons rfl (hreads.append (Parse.reads_singleton rfl)))
  | .member a x =>
    (a.reads p outer).append
      (.cons rfl (Parse.reads_singleton (Parse.read_member x)))

/-- An operand is read, but for what its access goes on with. Its stars have
moved into the place of the access by then. -/
theorem Operand.exists_reads (p : Place) (outer : List Bracket) :
    ∀ o : Operand, ∃ a q, Place.fill q (.access a) = p.fill o
      ∧ Reads (awaiting p outer) o.texts (holding a q outer)
  | .access a => ⟨a, p, rfl, a.reads p outer⟩
  | .deref o => by
    obtain ⟨a, q, hfill, hreads⟩ := o.exists_reads (.deref p) outer
    exact ⟨a, q, hfill, .cons rfl hreads⟩

/-- **An expression is read**, but for what its last access goes on with,
which the next text decides. -/
theorem Sum.exists_reads (outer : List Bracket) :
    ∀ e : Sum, ∃ a q, Place.fill q (.access a) = e
      ∧ Reads (awaiting .first outer) e.texts (holding a q outer)
  | .operand o => o.exists_reads .first outer
  | .plus e o => by
    obtain ⟨a, q, rfl, hreads⟩ := e.exists_reads outer
    obtain ⟨b, r, hfill, hreads'⟩ :=
      o.exists_reads (.behind (q.fill (.access a))) outer
    exact ⟨b, r, hfill, hreads.append (.cons rfl hreads')⟩

end

end Reads

/-- **Expressions with the same texts are the same.** So it makes sense to ask
for the tree of a text, before the pass and after it. -/
theorem Sum.assigned_injective {v v' : Variable} {e e' : Sum}
    (h : e.assigned v = e'.assigned v') : e = e' := by
  have hread : ∀ e : Sum,
      Parse.Reads .start ("=" :: (e.texts ++ [";"])) (.done e) := fun e => by
    obtain ⟨a, q, rfl, hreads⟩ := e.exists_reads []
    exact .cons rfl (hreads.append (Parse.reads_singleton rfl))
  have htexts := (List.cons.inj h).2
  exact Parse.done.inj ((hread e).unique (htexts ▸ hread e'))

end Pointer

end FlatC
