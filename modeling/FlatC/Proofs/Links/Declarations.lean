import FlatC.Proofs.Edit.Walking
import FlatC.Proofs.Links.Rules

/-!
# Splitting declarations in place

The loop that splits declarations holds more than one slot at a time: that
of the token before the statement, of the first token of the type, and of the
`,` or `=` behind the name. Where it is an `=`, an inner loop looks for the
end of the initializer with all of these in hand. All edits are made only
when the end has been found, and the last one, for a comma at the end, copies
the type from the front of the declaration over to behind what was copied
before. Nothing is dropped, so all these slots stay live.

The loop goes on by the link of the slot before the statement, and so through
the declaration just split. That it finds nothing there to split once more is
`Declaration.splitDeclarations_written`.
-/

namespace FlatC

namespace Links

open Cell (entry slots)
open Declaration (Shape shapes shapeOf? opening ending cutInitializer?
  nameCell? atComma atEquals?)

variable {r s : Row} {before passed lead after : List Cell}
variable {first name eq stop sep c : Cell} {shape : Shape} {type n : Nat}
variable {p : SlotPool}

/-! ## The loop -/

/-- **A comma split**, given where the declaration starts and how many tokens
the type has: the comma becomes `;` and the type is copied behind it, from
wherever it starts, which may be far before. -/
def splitAtComma (start comma : TokenId) (type : Nat) : Links Unit := do
  setText comma ";"
  let _ ← copyAfter comma start type

/-- The slot of the name that is declared, which stands behind the type or
behind a `*` there. -/
def nameAt (start : TokenId) (type : Nat) : Links (Option TokenId) := do
  match ← nth start type with
  | none => return none
  | some var => if (← text var) == "*" then next var else return some var

/-- **An initializer split off**, once its end has been found, and the number
of splits. The name and the `=` are copied behind the `=`, which then becomes
`;`. The slots held from before are used once more after these edits. -/
def splitAtEnd (start eq stop : TokenId) (type : Nat) : Links Nat := do
  match ← nameAt start type with
  | none => return 0
  | some var =>
    let _ ← copyAfter eq var 2
    setText eq ";"
    if (← text stop) == "," then splitAtComma start stop type
    return 1

/-- **The end of an initializer looked for**, token by token, with how deep
the place is inside it. At the end it is split off. Below its own depth, or
past the last token, there is none and nothing is edited. -/
def cutting (start eq : TokenId) (type : Nat) (place : Int × TokenId) :
    Links (Nat × Option (Int × TokenId)) := do
  let (depth, tok) := place
  let text ← text tok
  if Token.startsWithAny opening text then
    return (0, (← next tok).map fun t => (depth + 1, t))
  else if Token.startsWithAny Declaration.closing text then
    if depth < 0 then return (0, none)
    else return (0, (← next tok).map fun t => (depth - 1, t))
  else if Token.startsWithAny ending text && depth == 0 then
    return (← splitAtEnd start eq tok type, none)
  else return (0, (← next tok).map fun t => (depth, t))

/-- **The shape of the declaration at a slot**: the slot of its separator and
how many tokens are its type. The shapes are tried in turn. -/
def shapeAt (start : TokenId) : List Shape → Links (Option (TokenId × Nat))
  | [] => return none
  | shape :: shapes => do
    if ← holds shape.pattern start then
      match ← nth start shape.before with
      | some sep => return some (sep, shape.type)
      | none => shapeAt start shapes
    else shapeAt start shapes

/-- **The declaration at a slot split**, and the number of splits. No
declaration begins with `else`, which is asked for before any shape is tried. -/
def splitAt (start : TokenId) : Links Nat := do
  if (← text start) == "else" then return 0
  else
    match ← shapeAt start shapes with
    | none => return 0
    | some (sep, type) =>
      if (← text sep) == "," then
        splitAtComma start sep type
        return 1
      else along (cutting start sep type) (some (0, sep))

/-- **A declaration split** where a statement begins after a slot. The loop
goes on behind that slot, that is at the declaration just split. -/
def splitting (tok : TokenId) : Links (Nat × Option TokenId) := do
  if Token.startsWithAny ['{', '}', ';'] (← text tok) then
    match ← next tok with
    | none => return (0, none)
    | some start =>
      let n ← splitAt start
      return (n, ← next tok)
  else return (0, ← next tok)

/-! ## What is read -/

/-- **The separator is found** of the first shape that opens the cells, if
each shape goes on as far as its separator. -/
theorem makes_shapeAt (hr : r.cells = before ++ first :: after)
    (ss : List Shape) (hss : ∀ s ∈ ss, s.before < s.pattern.pieces.length) :
    Makes (shapeAt first.slot ss) r
      ((ss.find? fun s => s.pattern.opens (first :: after)).bind fun s =>
        ((first :: after)[s.before]?).map fun sep => (sep.slot, s.type)) r := by
  induction ss with
  | nil => exact makes_pure none r
  | cons s ss ih =>
    rw [shapeAt, List.find?_cons]
    refine (makes_holds hr s.pattern).bind ?_
    cases hopens : s.pattern.opens (first :: after) with
    | false => exact ih fun t ht => hss t (List.mem_cons_of_mem _ ht)
    | true =>
      -- a shape that holds has a cell for each of its pieces, the separator
      -- among them
      have hlt : s.before < (first :: after).length :=
        Nat.lt_of_lt_of_le (hss s List.mem_cons_self)
          (Pattern.length_le_of_fits hopens)
      have hsep := List.getElem?_eq_getElem hlt
      refine .of_pos rfl ((makes_nth_some hr hsep).bind ?_)
      rw [Option.bind_some, hsep]
      exact makes_pure _ r

/-- **No declaration begins with `else`**, so that looking for it changes
nothing. -/
theorem shapeOf?_of_else (h : first.text = "else") (after : List Cell) :
    shapeOf? (first :: after) = none := by
  refine List.find?_eq_none.mpr fun shape hmem hopens => ?_
  obtain ⟨-, -, htype⟩ := Declaration.pieces_of_mem_shapes hmem
  obtain ⟨n, hn⟩ :=
    Nat.exists_eq_add_one_of_ne_zero (Declaration.type_lt_before hmem).1.ne'
  have hlength := Declaration.length_pieces hmem
  rw [Pattern.opens] at hopens
  -- every shape begins with a type, and `else` is none
  cases hpieces : shape.pattern.pieces with
  | nil =>
    rw [hpieces] at hlength
    cases hlength
  | cons piece pieces =>
    rw [hpieces, hn, List.take_succ_cons] at htype
    rw [hpieces, Pattern.fits_cons_cons, h, Bool.and_eq_true] at hopens
    rcases htype piece List.mem_cons_self with rfl | rfl
    · exact absurd hopens.1 (by decide)
    · exact absurd hopens.1 (by decide)

/-- The `=` is passed before the initializer. -/
theorem cutInitializer?_of_equals (h : eq.text = "=") (after : List Cell) :
    cutInitializer? 0 (eq :: after) = (cutInitializer? 0 after).map
      fun (i, e, more) => (eq :: i, e, more) := by
  rw [cutInitializer?, h]
  rfl

/-- Behind the type stands the name, or a `*` and the name. In the first case
the name is not itself a `*`, by which the two are told apart. -/
def Named (declared : List Cell) (name : Cell) : Prop :=
  declared = [name] ∧ name.text ≠ "*"
    ∨ ∃ star : Cell, star.text = "*" ∧ declared = [star, name]

/-- The name is the last cell before the separator in both cases. -/
theorem Named.exists_front (h : Named (lead.drop type) name) :
    ∃ front, lead = front ++ [name] := by
  rw [← List.take_append_drop type lead]
  rcases h with ⟨hlast, -⟩ | ⟨star, -, hlast⟩
  · exact ⟨lead.take type, by rw [hlast]⟩
  · exact ⟨lead.take type ++ [star], by rw [hlast]; simp⟩

/-- The shapes that end in `=` have the name directly before it, behind the
type or behind a `*`. -/
theorem pieces_of_equals (h : shape ∈ shapes)
    (hsep : shape.pattern.pieces.drop shape.before = [.literal "="]) :
    shape.pattern.pieces.drop shape.type = [.var, .literal "="]
      ∨ shape.pattern.pieces.drop shape.type
        = [.literal "*", .var, .literal "="] := by
  revert shape
  decide +kernel

/-- **The name that is given a value** stands directly before the `=`. So the
two tokens that are copied, from the name on, are the name and the `=`. -/
theorem named_of_shapeOf?
    (h : shapeOf? (lead ++ eq :: after) = some shape)
    (hlen : lead.length = shape.before) (heq : eq.text ≠ ",")
    (hname : nameCell? (lead.drop shape.type) = some name) :
    Named (lead.drop shape.type) name := by
  obtain ⟨hmem, hopens⟩ := Declaration.mem_shapes_of_shapeOf? h
  have hpieces := Declaration.length_pieces hmem
  have hlt := (Declaration.type_lt_before hmem).2
  rw [Pattern.opens] at hopens
  -- the separator is a `,` or a `=`, and it is no `,`
  have hequals : shape.pattern.pieces.drop shape.before = [.literal "="] := by
    refine (Declaration.pieces_of_mem_shapes hmem).2.1.resolve_left
      fun hcomma => heq ?_
    rw [← List.take_append_drop shape.before shape.pattern.pieces,
      Cell.fits_append_append (by rw [List.length_take]; omega), hcomma,
      Pattern.fits_cons_cons, Bool.and_eq_true, Bool.and_eq_true] at hopens
    exact (eq_of_beq hopens.2.1).symm
  have hdeclared : (lead.drop shape.type).length + shape.type
      = shape.before := by
    rw [List.length_drop]
    omega
  rw [← List.take_append_drop shape.type lead, List.append_assoc,
    ← List.take_append_drop shape.type shape.pattern.pieces,
    Cell.fits_append_append (by simp only [List.length_take]; omega),
    Bool.and_eq_true] at hopens
  replace hopens := hopens.2
  generalize lead.drop shape.type = declared at hname hopens hdeclared
  -- the pieces behind the type are a name and `=`, or a `*` before these
  rcases pieces_of_equals hmem hequals with hdrop | hdrop
  · have hone : declared.length = 1 := by
      have hlength := congrArg List.length hdrop
      rw [List.length_drop] at hlength
      simp only [List.length_cons, List.length_nil] at hlength
      omega
    obtain ⟨x, rfl⟩ := List.length_eq_one_iff.mp hone
    cases hname
    rw [hdrop, List.singleton_append, Pattern.fits_cons_cons,
      Piece.accepts_var, Bool.and_eq_true] at hopens
    exact Or.inl ⟨rfl, Token.ne_of_isName hopens.1 (by decide)⟩
  · have htwo : declared.length = 2 := by
      have hlength := congrArg List.length hdrop
      rw [List.length_drop] at hlength
      simp only [List.length_cons, List.length_nil] at hlength
      omega
    obtain ⟨x, y, rfl⟩ := List.length_eq_two.mp htwo
    rw [hdrop, List.cons_append, Pattern.fits_cons_cons,
      Piece.accepts_literal, Bool.and_eq_true] at hopens
    have hstar : x.text = "*" := (eq_of_beq hopens.1).symm
    rw [nameCell?, if_pos (beq_iff_eq.mpr hstar)] at hname
    cases hname
    exact Or.inr ⟨x, hstar, rfl⟩

/-- **The slot of the name is found** behind the type, by a link more where a
`*` stands before it. -/
theorem makes_nameAt (hr : r.cells = before ++ (lead ++ after))
    (hfirst : lead.head? = some first)
    (hnamed : Named (lead.drop type) name) :
    Makes (nameAt first.slot type) r (some name.slot) r := by
  obtain ⟨others, rfl⟩ := List.head?_eq_some_iff.mp hfirst
  have hle : type ≤ (first :: others).length := by
    by_contra hlong
    rw [List.drop_eq_nil_of_le (by omega)] at hnamed
    rcases hnamed with ⟨hnil, -⟩ | ⟨_, -, hnil⟩ <;> cases hnil
  have hdrop : (first :: (others ++ after)).drop type
      = (first :: others).drop type ++ after :=
    List.drop_append_of_le_length hle
  have hvar : ∀ x rest, (first :: others).drop type ++ after = x :: rest →
      Makes (nth first.slot type) r (some x.slot) r := fun x rest hx => by
    refine makes_nth_some hr ?_
    rw [← List.head?_drop]
    exact congrArg List.head? (hdrop.trans hx)
  have hsplit : r.cells = before ++ (first :: others).take type
      ++ ((first :: others).drop type ++ after) := by
    rw [hr, List.append_assoc, ← List.append_assoc (List.take _ _),
      List.take_append_drop]
  rcases hnamed with ⟨hlast, hne⟩ | ⟨star, hstar, hlast⟩
  · rw [hlast] at hsplit hvar
    refine (hvar name after rfl).bind ((makes_text (mem_of_split hsplit)).bind ?_)
    exact .of_neg (by simpa using hne) (makes_pure _ r)
  · rw [hlast] at hsplit hvar
    refine (hvar star (name :: after) rfl).bind
      ((makes_text (mem_of_split hsplit)).bind ?_)
    exact .of_pos (by simpa using hstar) (makes_next hsplit)

/-! ## What is written -/

/-- **A comma is split** behind whatever stands between it and the type. The
stretch that is copied from begins at the first token of the type and ends at
the comma, and only the type of it is asked for. -/
theorem makes_splitAtComma {mid more : List Cell}
    (hr : r.cells = before ++ (lead ++ (mid ++ stop :: more)))
    (hfirst : lead.head? = some first) (htype : type ≤ lead.length) :
    let types := r.pool.copy ((lead.take type).map Cell.token)
    Makes (splitAtComma first.slot stop.slot type) r ()
      ⟨before ++ (lead ++ (mid ++ stop.withText ";" :: (types.1 ++ more))),
        types.2⟩ := by
  intro types
  obtain ⟨others, rfl⟩ := List.head?_eq_some_iff.mp hfirst
  have hr' : r.cells
      = before ++ ((first :: others) ++ mid) ++ stop :: more := by
    rw [hr]
    simp
  let r' : Row :=
    ⟨before ++ ((first :: others) ++ mid) ++ stop.withText ";" :: more, r.pool⟩
  have hcomma : Makes (setText stop.slot ";") r () r' := makes_setText hr' ";"
  have hstretch : r'.cells = before
      ++ (((first :: others) ++ mid) ++ stop.withText ";" :: more) := by
    simp [r']
  have hcopy := makes_copyAfter (n := type) hstretch rfl
    (by simp at htype ⊢; omega)
  have htake : ((first :: others) ++ mid ++ [stop.withText ";"]).take type
      = (first :: others).take type := by
    rw [List.append_assoc, List.take_append_of_le_length htype]
  rw [htake] at hcopy
  simp only [List.append_assoc] at hcopy
  exact hcomma.bind (hcopy.bind (makes_pure () _))

/-- **What the search for the end comes to**: nothing is changed where there
is none, and otherwise the initializer is split off there. -/
theorem makes_cutting {cells : List Cell} {depth : Int} {start id : TokenId}
    (hr : r.cells = before ++ cells)
    (hnone : cutInitializer? depth cells = none → n = 0 ∧ s = r)
    (hend : ∀ init stop more,
      cutInitializer? depth cells = some (init, stop, more) →
        Makes (splitAtEnd start id stop.slot type) r n s) :
    Makes (along (cutting start id type)
      ((entry cells none).map fun t => (depth, t))) r n s := by
  -- token by token, with the depth and the place moving; nothing is edited
  -- before the end is found
  induction cells generalizing depth before with
  | nil =>
    obtain ⟨rfl, rfl⟩ := hnone rfl
    exact makes_along_none _
  | cons x cells ih =>
    have hmem : x ∈ r.cells := mem_of_split hr
    have honward : ∀ d : Int,
        Makes (do return (0, (← next x.slot).map fun t => (d, t))) r
          (0, (entry cells none).map fun t => (d, t)) r :=
      fun d => (makes_next hr).bind (makes_pure _ r)
    have hgoes : ∀ d : Int,
        cutInitializer? depth (x :: cells) = (cutInitializer? d cells).map
          (fun (i, e, more) => (x :: i, e, more)) →
        Makes (cutting start id type (depth, x.slot)) r
          (0, (entry cells none).map fun t => (d, t)) r →
        Makes (along (cutting start id type) (some (depth, x.slot))) r n s := by
      intro d hcut hturn
      rw [hcut] at hnone hend
      have hr' : r.cells = (before ++ [x]) ++ cells := by simp [hr]
      have hrest := ih hr' (fun h => hnone (by rw [h]; rfl))
        (fun i e more h => hend (x :: i) e more (by rw [h]; rfl))
      have hall := hturn.along_some hrest
      rwa [Nat.zero_add] at hall
    by_cases hopen : Token.startsWithAny opening x.text = true
    · exact hgoes (depth + 1) (by rw [cutInitializer?, if_pos hopen])
        ((makes_text hmem).bind (.of_pos hopen (honward _)))
    by_cases hclose : Token.startsWithAny Declaration.closing x.text = true
    · by_cases hdepth : depth < 0
      · obtain ⟨rfl, rfl⟩ := hnone
          (by rw [cutInitializer?, if_neg hopen, if_pos hclose, if_pos hdepth])
        refine .along_some (n := 0) ((makes_text hmem).bind ?_)
          (makes_along_none _)
        exact .of_neg hopen (.of_pos hclose (.of_pos hdepth (makes_pure _ _)))
      · refine hgoes (depth - 1)
          (by rw [cutInitializer?, if_neg hopen, if_pos hclose, if_neg hdepth])
          ((makes_text hmem).bind ?_)
        exact .of_neg hopen (.of_pos hclose (.of_neg hdepth (honward _)))
    by_cases hstop : (Token.startsWithAny ending x.text && depth == 0) = true
    · refine .along_some (n := n) ((makes_text hmem).bind ?_)
        (makes_along_none s)
      refine .of_neg hopen (.of_neg hclose (.of_pos hstop ?_))
      refine (hend [] x cells ?_).bind (makes_pure _ s)
      rw [cutInitializer?, if_neg hopen, if_neg hclose, if_pos hstop]
    · refine hgoes depth
        (by rw [cutInitializer?, if_neg hopen, if_neg hclose, if_neg hstop])
        ((makes_text hmem).bind ?_)
      exact .of_neg hopen (.of_neg hclose (.of_neg hstop (honward _)))

/-- **An initializer is split off** at its end. With a comma there the type is
copied as well, over the tokens that were copied before. -/
theorem makes_splitAtEnd {init more : List Cell}
    (hr : r.cells = before ++ (lead ++ eq :: (init ++ stop :: more)))
    (hfirst : lead.head? = some first) (htype : type ≤ lead.length)
    (hnamed : Named (lead.drop type) name) :
    let copies := r.pool.copy [name.token, eq.token]
    let types := copies.2.copy ((lead.take type).map Cell.token)
    let written := lead ++ eq.withText ";" :: copies.1
    Makes (splitAtEnd first.slot eq.slot stop.slot type) r 1
      (if stop.text == "," then
        ⟨before ++ (written
          ++ (init ++ stop.withText ";" :: (types.1 ++ more))), types.2⟩
      else ⟨before ++ (written ++ (init ++ stop :: more)), copies.2⟩) := by
  intro copies types written
  obtain ⟨front, rfl⟩ := hnamed.exists_front
  -- the rows after the name has been copied and after the `=` has been
  -- changed
  let r₁ : Row := ⟨before ++ ((front ++ [name])
    ++ eq :: (copies.1 ++ (init ++ stop :: more))), copies.2⟩
  let r₂ : Row := ⟨before ++ (written ++ (init ++ stop :: more)), copies.2⟩
  have hcopy : Makes (copyAfter eq.slot name.slot 2) r
      (copies.1.getLast?.map Cell.slot) r₁ := by
    have hname : r.cells = (before ++ front)
        ++ ([name] ++ eq :: (init ++ stop :: more)) := by simp [hr]
    have hbehind := makes_copyAfter (n := 2) hname rfl (Nat.le_refl 2)
    simpa [r₁, copies] using hbehind
  have heq : Makes (setText eq.slot ";") r₁ () r₂ := by
    have hequals : r₁.cells = before ++ (front ++ [name])
        ++ eq :: (copies.1 ++ (init ++ stop :: more)) := by simp [r₁]
    have hset := makes_setText hequals ";"
    simpa [r₁, r₂, written] using hset
  have hstop : r₂.cells = before ++ (front ++ [name]
      ++ ((eq.withText ";" :: copies.1 ++ init) ++ stop :: more)) := by
    simp [r₂, written]
  have htext : Makes (text stop.slot) r₂ stop.text r₂ :=
    makes_text (by simp [hstop])
  refine (makes_nameAt hr hfirst hnamed).bind (hcopy.bind
    (heq.bind (htext.bind ?_)))
  split
  · have hsame : before ++ (written
          ++ (init ++ stop.withText ";" :: (types.1 ++ more)))
        = before ++ (front ++ [name] ++ ((eq.withText ";" :: copies.1 ++ init)
          ++ stop.withText ";" :: (types.1 ++ more))) := by simp [written]
    rw [hsame]
    exact (makes_splitAtComma hstop hfirst htype).bind (makes_pure 1 _)
  · exact makes_pure 1 _

/-! ## The loop does the work of the pass -/

section At

variable {more : List Cell}

/-- **A declaration split at an `=`**, when the end of its initializer has
been found, and left alone if there is none. -/
theorem makes_cutting_of_equals
    (hr : r.cells = before ++ (lead ++ eq :: more))
    (hfirst : lead.head? = some first) (htype : type ≤ lead.length)
    (hnamed : Named (lead.drop type) name) (heq : eq.text = "=") :
    Makes (along (cutting first.slot eq.slot type) (some (0, eq.slot))) r
      ((atEquals? lead (lead.take type) name eq more r.pool).elim 0 fun _ => 1)
      ((atEquals? lead (lead.take type) name eq more r.pool).elim r
        fun s => ⟨before ++ (s.written ++ s.left), s.pool⟩) := by
  have hscan := cutInitializer?_of_equals heq more
  have hr' : r.cells = before ++ lead ++ eq :: more := by
    rw [hr, List.append_assoc]
  rw [atEquals?]
  cases hcut : cutInitializer? 0 more with
  | none =>
    rw [hcut] at hscan
    refine makes_cutting hr' (fun _ => ⟨rfl, rfl⟩) fun i e m h => ?_
    rw [hscan] at h
    cases h
  | some found =>
    obtain ⟨init, stop, rest⟩ := found
    obtain rfl := Declaration.eq_append_of_cutInitializer? hcut
    rw [hcut] at hscan
    refine makes_cutting hr' (fun h => ?_) fun i e m h => ?_
    · rw [hscan] at h
      cases h
    · rw [hscan] at h
      cases h
      have hend := makes_splitAtEnd hr hfirst htype hnamed
      dsimp only at hend ⊢
      by_cases hlast : (stop.text == ",") = true
      · rw [if_pos hlast] at hend ⊢
        exact hend
      · rw [if_neg hlast] at hend ⊢
        exact hend

/-- **A declaration is split at its separator**, a `,` at once and a `=` when
the end of its initializer has been found. -/
theorem makes_splitAt_of_shapeOf?
    (hc : Token.startsWithAny ['{', '}', ';'] c.text = true)
    (hfirst : lead.head? = some first)
    (hshape : shapeOf? (lead ++ sep :: more) = some shape)
    (hlen : lead.length = shape.before)
    (hname : nameCell? (lead.drop shape.type) = some name)
    (passed : List Cell) (p : SlotPool) :
    let cells := lead ++ sep :: more
    Makes (splitAt first.slot) ⟨passed ++ c :: cells, p⟩
      ((Declaration.next? c.text cells p).elim 0 fun _ => 1)
      ((Declaration.next? c.text cells p).elim ⟨passed ++ c :: cells, p⟩
        fun s => ⟨passed ++ c :: (s.written ++ s.left), s.pool⟩) := by
  intro cells
  obtain ⟨others, rfl⟩ := List.head?_eq_some_iff.mp hfirst
  let r : Row := ⟨passed ++ c :: cells, p⟩
  have hmem := (Declaration.mem_shapes_of_shapeOf? hshape).1
  have hle : shape.type ≤ (first :: others).length :=
    hlen ▸ (Declaration.type_lt_before hmem).2.le
  have hr : r.cells = (passed ++ [c]) ++ ((first :: others) ++ sep :: more) :=
    List.append_cons _ _ _
  have hfirst : r.cells = (passed ++ [c]) ++ first :: (others ++ sep :: more) :=
    hr
  have hfound := makes_shapeAt hfirst shapes fun s hs => by
      rw [Declaration.length_pieces hs]
      exact Nat.lt_succ_self _
  have hfind : (shapes.find? fun s =>
      s.pattern.opens (first :: (others ++ sep :: more))) = some shape := hshape
  have hsep : (first :: (others ++ sep :: more))[shape.before]? = some sep := by
    rw [← hlen, ← List.cons_append, List.getElem?_append_right (Nat.le_refl _),
      Nat.sub_self, List.getElem?_cons_zero]
  rw [hfind, Option.bind_some, hsep] at hfound
  have hne : ¬ (first.text == "else") = true := fun helse => by
    rw [List.cons_append, shapeOf?_of_else (eq_of_beq helse)] at hshape
    cases hshape
  refine (makes_text (mem_of_split hr)).bind ?_
  refine .of_neg hne (hfound.bind ?_)
  refine (makes_text (x := sep) (by rw [hr]; simp)).bind ?_
  rw [Declaration.next?_of_shapeOf? hc hshape hlen hname p]
  by_cases hcomma : (sep.text == ",") = true
  · rw [if_pos hcomma, if_pos hcomma, Option.elim_some, Option.elim_some,
      List.append_cons]
    have hnone : r.cells
        = (passed ++ [c]) ++ ((first :: others) ++ ([] ++ sep :: more)) := hr
    exact (makes_splitAtComma hnone rfl hle).bind (makes_pure 1 _)
  · rw [if_neg hcomma, if_neg hcomma]
    have hne : sep.text ≠ "," := fun h => hcomma (beq_iff_eq.mpr h)
    have heq := (Declaration.lead_of_shapeOf? hshape hlen).2.1.resolve_left hne
    have hnamed := named_of_shapeOf? hshape hlen hne hname
    have hends := makes_cutting_of_equals hr rfl hle hnamed heq
    cases hat : atEquals? (first :: others) ((first :: others).take shape.type)
        name sep more p with
    | none =>
      rw [hat] at hends
      exact hends
    | some s =>
      rw [hat] at hends
      rw [Option.elim_some, Option.elim_some, List.append_cons]
      exact hends

end At

/-- **The declaration at a slot split**: nothing is changed where none comes
next. -/
theorem makes_splitAt (hc : Token.startsWithAny ['{', '}', ';'] c.text = true)
    (passed : List Cell) (first : Cell) (after : List Cell) (p : SlotPool) :
    let cells := first :: after
    Makes (splitAt first.slot) ⟨passed ++ c :: cells, p⟩
      ((Declaration.next? c.text cells p).elim 0 fun _ => 1)
      ((Declaration.next? c.text cells p).elim ⟨passed ++ c :: cells, p⟩
        fun s => ⟨passed ++ c :: (s.written ++ s.left), s.pool⟩) := by
  intro cells
  cases hshape : shapeOf? cells with
  | none =>
    have hr : (passed ++ c :: cells) = (passed ++ [c]) ++ first :: after :=
      List.append_cons _ _ _
    have hfound := makes_shapeAt (r := ⟨passed ++ c :: cells, p⟩) hr shapes
      fun s hs => by
        rw [Declaration.length_pieces hs]
        exact Nat.lt_succ_self _
    have hfind : (shapes.find? fun s => s.pattern.opens (first :: after))
        = none := hshape
    rw [hfind] at hfound
    rw [Declaration.next?, if_pos hc, hshape]
    refine (makes_text (by simp [cells])).bind ?_
    split
    · exact makes_pure 0 _
    · exact hfound.bind (makes_pure 0 _)
  | some shape =>
    obtain ⟨lead, sep, more, hcells, hlen⟩ :=
      Declaration.exists_of_shapeOf? hshape
    have hmem := (Declaration.mem_shapes_of_shapeOf? hshape).1
    have hlt := Declaration.type_lt_before hmem
    obtain ⟨name, hname⟩ := Declaration.exists_nameCell? hmem hlen
    have hfirst : lead.head? = some first := by
      cases lead with
      | nil => simp [← hlen] at hlt
      | cons x lead => exact congrArg List.head? hcells.symm
    rw [hcells] at hshape ⊢
    exact makes_splitAt_of_shapeOf? hc hfirst hshape hlen hname passed p

/-- Each turn leaves one cell behind, and ahead the declaration as it was
split. The pass would not look at that again, and finds nothing in it if it
does. -/
theorem steps_splitting : Steps splitting splitDeclarations where
  nil _ := by rw [splitDeclarations]
  cons passed c rest p := by
    -- no statement begins after the cell, none follows, or one is split, or
    -- not
    cases hc : Token.startsWithAny ['{', '}', ';'] c.text with
    | false =>
      have hnext : Declaration.next? c.text rest p = none := by
        rw [Declaration.next?, hc]
        rfl
      refine ⟨0, [c], rest, p, List.cons_ne_nil _ _, ?_, ?_⟩
      · exact (makes_text (by simp)).bind
          (.of_neg (by simp [hc]) (makes_onward rfl 0))
      · rw [splitDeclarations_of_next?_eq_none hnext, Edit.plus_zero]
        rfl
    | true =>
      cases rest with
      | nil =>
        have hnext : Declaration.next? c.text [] p = none := by
          rw [Declaration.next?, if_pos hc]
          rfl
        refine ⟨0, [c], [], p, List.cons_ne_nil _ _, ?_, ?_⟩
        · refine (makes_text (by simp)).bind (.of_pos hc ?_)
          exact (makes_next rfl).bind (makes_pure _ _)
        · rw [splitDeclarations_of_next?_eq_none hnext, Edit.plus_zero]
          rfl
      | cons first after =>
        have hsplit := makes_splitAt hc passed first after p
        dsimp only at hsplit
        cases hnext : Declaration.next? c.text (first :: after) p with
        | none =>
          rw [hnext] at hsplit
          refine ⟨0, [c], first :: after, p, List.cons_ne_nil _ _, ?_, ?_⟩
          · refine (makes_text (by simp)).bind (.of_pos hc ?_)
            exact (makes_next rfl).bind (hsplit.bind (makes_onward rfl 0))
          · rw [splitDeclarations_of_next?_eq_none hnext, Edit.plus_zero]
            rfl
        | some s =>
          rw [hnext] at hsplit
          refine ⟨1, [c], s.written ++ s.left, s.pool, List.cons_ne_nil _ _,
            ?_, ?_⟩
          · refine (makes_text (by simp)).bind (.of_pos hc ?_)
            exact (makes_next rfl).bind (hsplit.bind (makes_onward rfl 1))
          · rw [splitDeclarations_of_next? hnext,
              Declaration.splitDeclarations_written hnext,
              Edit.prepend_prepend]
            rfl

end Links

end FlatC
