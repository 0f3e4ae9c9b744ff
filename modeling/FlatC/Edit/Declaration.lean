import FlatC.Pattern.Basic
import FlatC.Edit.Basic

/-!
# One declarator for each statement

Where a statement begins, after a token that starts with `;`, `{` or `}`,
a declaration is split until each statement declares one name and sets
nothing:

* `T a , …` becomes `T a ; T …`, the type being copied;
* `T a = init ;` becomes `T a ; a = init ;`, and if the initializer ends
  in a comma, as in `T a = init , …`, that comma is split as well.

The type is one word or `struct` and one word, and the name may have a `*`
before it or, where a comma follows, a number in brackets after it.

An initializer ends at the first `;` or `,` outside its parentheses and
braces; a closing one that was never opened is put up with once, and a
second makes the declaration no declaration. What is written for a
declaration can begin no other, so the pass goes on behind it: at the
`;` that was a comma, or at the initializer.
-/

namespace FlatC

namespace Declaration

/-- **How a declaration begins**: a pattern, and how many tokens stand
before its `,` or `=` and how many of these are the type. -/
structure Shape where
  pattern : Pattern
  before : Nat
  type : Nat
  deriving DecidableEq, Repr

/-- The ways a declaration begins, in the order they are tried. No two of them
begin the same cells, so the order decides nothing but the time it takes. -/
def shapes : List Shape :=
  [⟨.compile "%type% %var% ,", 2, 1⟩,
    ⟨.compile "%type% * %var% ,", 3, 1⟩,
    ⟨.compile "%type% %var% [ %num% ] ,", 5, 1⟩,
    ⟨.compile "%type% * %var% [ %num% ] ,", 6, 1⟩,
    ⟨.compile "struct %type% %var% ,", 3, 2⟩,
    ⟨.compile "struct %type% * %var% ,", 4, 2⟩,
    ⟨.compile "%type% %var% =", 2, 1⟩,
    ⟨.compile "%type% * %var% =", 3, 1⟩,
    ⟨.compile "struct %type% * %var% =", 4, 2⟩]

/-- The way some cells begin a declaration, if they begin one. -/
def shapeOf? (cells : List Cell) : Option Shape :=
  shapes.find? fun s => s.pattern.opens cells

/-- What an initializer may open. Brackets are not among these, so a comma in
brackets ends an initializer. -/
def opening : List Char := ['{', '(']

/-- What an initializer may close, a brace for a parenthesis as well as its
own. -/
def closing : List Char := ['}', ')']

/-- What an initializer may end in, outside of all it has opened. -/
def ending : List Char := [';', ',']

/-- **An initializer cut off**: its cells, the one it ends in and the cells
after that, given how deep inside it the cells begin. The depth is asked for
before a closing token is counted, so it can go down to -1. -/
def cutInitializer? (depth : Int) :
    List Cell → Option (List Cell × Cell × List Cell)
  | [] => none
  | c :: rest =>
    if Token.startsWithAny opening c.text then
      (cutInitializer? (depth + 1) rest).map fun (i, e, more) => (c :: i, e, more)
    else if Token.startsWithAny closing c.text then
      if depth < 0 then none
      else
        (cutInitializer? (depth - 1) rest).map fun (i, e, more) =>
          (c :: i, e, more)
    else if Token.startsWithAny ending c.text && depth == 0 then
      some ([], c, rest)
    else
      (cutInitializer? depth rest).map fun (i, e, more) => (c :: i, e, more)

/-- The cell of the name that is declared, behind the type. It is the second
one where a `*` comes first. -/
def nameCell? : List Cell → Option Cell
  | [] => none
  | [c] => some c
  | c :: d :: _ => if c.text == "*" then some d else some c

/-- A declaration split once: the cells written for it, the cells to go on
with, and the pool. The written ones are done with. -/
structure Split where
  written : List Cell
  left : List Cell
  pool : SlotPool

/-- **A declaration split at its comma**: the comma becomes `;` and the type
is copied behind it. To go on with is the `;`, after which the next declarator
stands with its type. -/
def atComma (lead type : List Cell) (comma : Cell) (after : List Cell)
    (pool : SlotPool) : Split :=
  let types := pool.copy (type.map Cell.token)
  ⟨lead, comma.withText ";" :: (types.1 ++ after), types.2⟩

/-- **A declaration split at its `=`**, which becomes `;` with the name and an
`=` copied behind it. A comma that ends the initializer is split in turn.
Without an end of the initializer there is no split. -/
def atEquals? (lead type : List Cell) (name eq : Cell) (after : List Cell)
    (pool : SlotPool) : Option Split :=
  match cutInitializer? 0 after with
  | none => none
  | some (init, stop, more) =>
    let copies := pool.copy [name.token, eq.token]
    let written := lead ++ eq.withText ";" :: copies.1
    if stop.text == "," then
      let types := copies.2.copy (type.map Cell.token)
      some ⟨written, init ++ stop.withText ";" :: (types.1 ++ more), types.2⟩
    else some ⟨written, init ++ stop :: more, copies.2⟩

/-- **The declaration that comes next**, after a token with the given text,
split once. Only the text of that token is looked at, to tell whether a
statement begins. -/
def next? (before : String) (rest : List Cell) (pool : SlotPool) :
    Option Split :=
  if Token.startsWithAny ['{', '}', ';'] before then
    match shapeOf? rest with
    | none => none
    | some shape =>
      let lead := rest.take shape.before
      let type := lead.take shape.type
      match rest.drop shape.before, nameCell? (lead.drop shape.type) with
      | separator :: after, some name =>
        if separator.text == "," then
          some (atComma lead type separator after pool)
        else atEquals? lead type name separator after pool
      | _, _ => none
  else none

/-! ## Splitting comes to an end -/

/-- Cutting an initializer off loses no cell. -/
theorem length_of_cutInitializer? {depth : Int} {cells init more : List Cell}
    {stop : Cell} (h : cutInitializer? depth cells = some (init, stop, more)) :
    init.length + 1 + more.length = cells.length := by
  induction cells generalizing depth init stop more with
  | nil => cases h
  | cons c cells ih =>
    have step : ∀ {d : Int},
        (cutInitializer? d cells).map (fun (i, e, more) => (c :: i, e, more))
          = some (init, stop, more)
        → init.length + 1 + more.length = (c :: cells).length := by
      intro d hd
      obtain ⟨⟨i, e, m⟩, hcut, heq⟩ := Option.map_eq_some_iff.mp hd
      cases heq
      have := ih hcut
      simp only [List.length_cons]
      omega
    rw [cutInitializer?] at h
    split at h
    · exact step h
    · split at h
      · split at h
        · cases h
        · exact step h
      · split at h
        · cases h
          simp only [List.length_nil, List.length_cons]
          omega
        · exact step h

/-- **What is left to go on with is shorter** than what the declaration
was found in, together with the token before it. -/
theorem length_of_next? {before : String} {rest : List Cell}
    {pool : SlotPool} {s : Split} (h : next? before rest pool = some s) :
    s.left.length ≤ rest.length := by
  unfold next? at h
  split at h
  · split at h
    · cases h
    · next shape _ =>
      dsimp only at h
      split at h
      · next separator after name hdrop _ =>
        have hlen := congrArg List.length hdrop
        have htype : ((rest.take shape.before).take shape.type).length
            ≤ (rest.take shape.before).length := by
          rw [List.length_take]
          exact Nat.min_le_right _ _
        rw [List.length_drop, List.length_cons] at hlen
        rw [List.length_take (i := shape.before)] at htype
        split at h
        · cases h
          simp only [atComma, List.length_cons, List.length_append,
            SlotPool.length_copy, List.length_map]
          omega
        · unfold atEquals? at h
          split at h
          · cases h
          · next init stop more hcut =>
            have hcut := length_of_cutInitializer? hcut
            dsimp only at h
            split at h
            · cases h
              simp only [List.length_cons, List.length_append,
                SlotPool.length_copy, List.length_map]
              omega
            · cases h
              simp only [List.length_cons, List.length_append]
              omega
      · cases h
  · cases h

end Declaration

/-- **Declarations split.** The count is the number of declarators that were
split off or freed of their initializer. What is gone on with is no longer
than what was looked at, copies included, so this ends. -/
def splitDeclarations (cells : List Cell) (pool : SlotPool) : Edit :=
  match cells with
  | [] => .unchanged [] pool
  | c :: rest =>
    match _h : Declaration.next? c.text rest pool with
    | some s =>
      ((splitDeclarations s.left s.pool).prepend (c :: s.written)).plus 1
    | none => (splitDeclarations rest pool).cons c
termination_by cells.length
decreasing_by
  · exact Nat.lt_succ_of_le (Declaration.length_of_next? _h)
  · exact Nat.lt_succ_self _

end FlatC
