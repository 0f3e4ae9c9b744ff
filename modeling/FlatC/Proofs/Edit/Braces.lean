import Mathlib.Data.List.Chain
import FlatC.Proofs.Edit.Declarators

/-!
# Declarations with a list in braces

A value may be a list in braces, `T a = { e₁ , … , eₙ } ;`. Its commas and
brackets are passed when its end is looked for, so the value is split off as
any other (`Declarator.splitDeclarations_of_equals`), to be left as it is.

But the pass goes on at the `{` of the list, and behind a `{` a statement
can begin. What the items are made of decides whether one does. In an
expression no name comes directly behind a name, and no `[` or `=`; so of
all the shapes of a declaration only one is left, that of `T * a ,`. A
product of two names reads like it if it is the first item and not the last.

So a list is left as it is exactly if it does not begin like that
(`TokenChain.Laid.keeps_braces_iff`), and `{ x * y , 2 }` is not
(`TokenChain.not_keeps_braces`).
-/

namespace FlatC

namespace Declaration

/-! ## Lists -/

/-- The signs of an expression, each a token by itself. -/
def signs : List String := ["+", "-", "*", "/"]

/-- **The texts of an expression**: names and numbers with signs between them,
and brackets around a part. The grammar is ambiguous, which does no harm: only
neighbours are looked at. -/
inductive Item : List String → Prop
  | name {text : String} : Token.isName text = true → Item [text]
  | number {text : String} : Token.isNumber text = true → Item [text]
  | group {texts : List String} : Item texts → Item ("(" :: texts ++ [")"])
  | operation {op : String} {left right : List String} :
    op ∈ signs → Item left → Item right → Item (left ++ op :: right)

/-- **The texts of a list**: expressions with commas between them, one at
least. -/
inductive Items : List String → Prop
  | one {texts : List String} : Item texts → Items texts
  | more {first others : List String} : Item first → Items others →
    Items (first ++ "," :: others)

/-- **Whether some texts begin like a declaration** `T * a ,`, which is also
how a product of two names can begin a list. -/
def declares : List String → Bool
  | type :: star :: name :: comma :: _ =>
    Token.isTypeName type && star == "*" && Token.isName name && comma == ","
  | _ => false

/-- **A declaration with a list in braces** `T a = { … } ;`, where a star may
stand before the name. The tokens may be from any lines and files. -/
structure Braced where
  type : Token
  star : Option Token
  name : Token
  equals : Token
  opening : Token
  items : List Token
  closing : Token
  semi : Token
  isTypeName : Token.isTypeName type.text = true
  star_eq : ∀ t ∈ star, t.text = "*"
  isName : Token.isName name.text = true
  equals_eq : equals.text = "="
  opening_eq : opening.text = "\x7b"
  isItems : Items (items.map Token.text)
  closing_eq : closing.text = "\x7d"
  semi_eq : semi.text = ";"

namespace Braced

/-- What stands before the `=`. -/
def head (s : Braced) : List Token := s.type :: (s.star.toList ++ [s.name])

/-- The list, with its braces and the `;` behind them. -/
def list (s : Braced) : List Token :=
  s.opening :: (s.items ++ [s.closing, s.semi])

/-- The tokens of the declaration. -/
def tokens (s : Braced) : List Token := s.head ++ s.equals :: s.list

/-- **What the declaration is to be written as**, the list left as it is. -/
def written (s : Braced) : List Token :=
  s.head ++ s.equals.withText ";" :: s.name :: s.equals :: s.list

end Braced

variable {texts left right : List String} {text : String}
variable {cells xs rest : List Cell} {c close semi : Cell} {inside : Bool}

/-! ## Brackets in lists -/

/-- Texts in which brackets come in pairs, one after the other. -/
theorem Enclosed.append (h : Enclosed inside left)
    (h' : Enclosed inside right) : Enclosed inside (left ++ right) := by
  induction h with
  | nil => exact h'
  | neutral htext _ ih => exact .neutral htext (ih h')
  | comma _ ih => exact .comma (ih h')
  | group hinner _ _ ih =>
    rw [List.append_assoc]
    exact .group hinner (ih h')

theorem Neutral.of_isNumber (h : Token.isNumber text = true) : Neutral text :=
  ⟨Token.startsWithAny_of_isNumber h (by decide),
    Token.startsWithAny_of_isNumber h (by decide),
    Token.startsWithAny_of_isNumber h (by decide)⟩

theorem neutral_of_mem_signs (h : text ∈ signs) : Neutral text := by
  have hall : ∀ op ∈ signs,
      Token.startsWithAny (opening ++ closing ++ ending) op = false := by
    decide +kernel
  exact ⟨Token.startsWithAny_of_subset (hall text h) (by decide),
    Token.startsWithAny_of_subset (hall text h) (by decide),
    Token.startsWithAny_of_subset (hall text h) (by decide)⟩

/-- **Brackets come in pairs in an expression**, so its commas, if it had any,
would be passed. -/
theorem Item.enclosed (h : Item texts) (inside : Bool) :
    Enclosed inside texts := by
  induction h generalizing inside with
  | name htext => exact .neutral (.of_isName htext) (.nil inside)
  | number htext => exact .neutral (.of_isNumber htext) (.nil inside)
  | group _ ih => exact .group (ih true) (.nil inside)
  | operation hop _ _ ihleft ihright =>
    have hneutral : Neutral _ := neutral_of_mem_signs hop
    exact (ihleft inside).append (.neutral hneutral (ihright inside))

theorem Items.enclosed (h : Items texts) : Enclosed true texts := by
  induction h with
  | one h => exact h.enclosed true
  | more h _ ih => exact (h.enclosed true).append (.comma ih)

/-! ## Neighbours in lists -/

/-- What may come directly behind a name in a list: no name, and neither a `[`
nor a `=`, with which a shape could go on. -/
def Apart (text : String) : Prop :=
  Token.isName text = false ∧ text ≠ "[" ∧ text ≠ "="

instance (text : String) : Decidable (Apart text) :=
  inferInstanceAs (Decidable (_ ∧ _))

/-- Neighbours in a list: what comes behind a name is apart from it. -/
def Beside (first second : String) : Prop :=
  Token.isName first = true → Apart second

/-- **Lists are put together** around a text that is apart, which may follow
anything. -/
theorem isChain_append_cons (hleft : left.IsChain Beside) (h : Apart text)
    (hright : right.IsChain Beside) :
    (left ++ text :: right).IsChain Beside := by
  refine List.isChain_append.mpr ⟨hleft, ?_, ?_⟩
  · refine List.isChain_cons.mpr ⟨fun _ _ hname => ?_, hright⟩
    rw [h.1] at hname
    cases hname
  · intro _ _ second hsecond _
    obtain rfl := Option.mem_some_iff.mp hsecond
    exact h

theorem apart_of_mem_signs (h : text ∈ signs) : Apart text := by
  revert text
  decide +kernel

theorem Item.isChain (h : Item texts) : texts.IsChain Beside := by
  induction h with
  | name => exact .singleton _
  | number => exact .singleton _
  | group _ ih =>
    have hopened := isChain_append_cons .nil
      (by decide +kernel : Apart "(") ih
    exact isChain_append_cons hopened (by decide +kernel) .nil
  | operation hop _ _ ihleft ihright =>
    exact isChain_append_cons ihleft (apart_of_mem_signs hop) ihright

theorem Items.isChain (h : Items texts) : texts.IsChain Beside := by
  induction h with
  | one h => exact h.isChain
  | more h _ ih => exact isChain_append_cons h.isChain (by decide +kernel) ih

/-- **Of all shapes only one is left** where names stand apart, since all
others have two names in a row or a `[` or `=` behind one. -/
theorem shapeOf?_of_isChain (h : (cells.map Cell.text).IsChain Beside) :
    shapeOf? cells = if declares (cells.map Cell.text) then
      some ⟨⟨[.type, .literal "*", .var, .literal ","]⟩, 3, 1⟩ else none := by
  rw [shapeOf?_eq_find?, shapes_eq]
  generalize cells.map Cell.text = texts at h
  have hstruct : Token.isTypeName "struct" = true := by decide +kernel
  rcases texts with _ | ⟨a, _ | ⟨b, texts⟩⟩
  · rfl
  · simp [declares]
  by_cases ha : Token.isTypeName a = true
  · have hb := (List.isChain_cons_cons.mp h).1 (Token.isName_of_isTypeName ha)
    have hbtype : Token.isTypeName b = false := by
      rw [Token.isTypeName, hb.1]
      rfl
    rcases texts with _ | ⟨c, _ | ⟨d, texts⟩⟩
    · simp [declares, ha, hb.1]
    · simp [declares, ha, hb.1, hbtype]
    · by_cases hc : Token.isName c = true
      · have hrest := (List.isChain_cons_cons.mp h).2
        have hd := (List.isChain_cons_cons.mp
          (List.isChain_cons_cons.mp hrest).2).1 hc
        have hbracket := hd.2.1.symm
        have hequals := hd.2.2.symm
        rcases eq_or_ne b "*" with rfl | hstar
        · rcases eq_or_ne d "," with rfl | hcomma
          · simp [declares, ha, hc, hb.1]
          · simp [declares, ha, hc, hb.1, hbtype, hcomma, hcomma.symm,
              hbracket, hequals]
        · simp [declares, ha, hc, hb.1, hbtype, hstar, hstar.symm]
      · rw [Bool.not_eq_true] at hc
        simp [declares, ha, hb.1, hbtype, hc]
  · have hne : ("struct" == a) = false := by
      rw [beq_eq_false_iff_ne]
      rintro rfl
      exact ha hstruct
    rw [Bool.not_eq_true] at ha
    rcases texts with _ | ⟨c, _ | ⟨d, texts⟩⟩ 
    all_goals simp [declares, ha, hne]

/-- The end of a list is no part of what it begins like. -/
theorem declares_append (texts : List String) :
    declares (texts ++ ["\x7d", ";"]) = declares texts := by
  have htype : Token.isTypeName "\x7d" = false := by decide +kernel
  have hname : Token.isName "\x7d" = false := by decide +kernel
  rcases texts with _ | ⟨a, _ | ⟨b, _ | ⟨c, _ | ⟨d, texts⟩⟩⟩⟩
  · rfl
  · simp [declares]
  · simp [declares, hname]
  · simp [declares]
  · rfl

/-! ## The list split off and gone through -/

/-- **What is split is changed**: there is a `;` for the separator. So a list
that is split is not left as it is, whatever else happens. -/
theorem map_token_splitDeclarations_ne {pool : SlotPool} {s : Split}
    (h : next? c.text rest pool = some s) :
    (splitDeclarations (c :: rest) pool).cells.map Cell.token
      ≠ (c :: rest).map Cell.token := by
  obtain ⟨-, -, lead, type, after, name, sep, hparts, hs⟩ := exists_parts h
  have hsemi : ∃ x tail, x.text = ";"
      ∧ (splitDeclarations (c :: rest) pool).cells
        = c :: (lead ++ x :: tail) := by
    rw [splitDeclarations_of_next? h, Edit.cells_plus, Edit.cells_prepend]
    rcases hs with ⟨-, rfl⟩ | ⟨-, hs⟩
    · obtain ⟨tail, htail⟩ := cells_splitDeclarations_cons (sep.withText ";")
        ((pool.copy (type.map Cell.token)).1 ++ after)
        (pool.copy (type.map Cell.token)).2
      refine ⟨sep.withText ";", tail, rfl, ?_⟩
      dsimp only [atComma]
      rw [htail]
      rfl
    · obtain ⟨n, e, hwritten, -, -⟩ := written_of_atEquals? hs
      refine ⟨sep.withText ";", n :: e :: (splitDeclarations s.left s.pool).cells,
        rfl, ?_⟩
      rw [hwritten, List.cons_append, List.append_assoc]
      rfl
  obtain ⟨x, tail, hx, hcells⟩ := hsemi
  intro heq
  rw [hcells, hparts.eq_append, List.map_cons, List.map_cons, List.map_append,
    List.map_append] at heq
  have htail := List.append_cancel_left (List.cons.inj heq).2
  have htext := Cell.text_eq (List.cons.inj htail).1
  rw [hx] at htext
  rcases hs with ⟨hsep, -⟩ | ⟨hsep, -⟩
  · rw [hsep] at htext
    exact absurd htext (by decide)
  · rw [hsep] at htext
    exact absurd htext (by decide)

section List

variable {is : List Cell} {o close semi : Cell}
variable (his : Items (is.map Cell.text))
variable (hclose : close.text = "\x7d") (hsemi : semi.text = ";")
include his hclose hsemi

/-- The `;` behind a list is where it ends: the brackets of the list close in
front of it, and inside of them nothing ends an initializer. -/
theorem cutInitializer?_list (ho : o.text = "\x7b") :
    cutInitializer? 0 (o :: (is ++ [close, semi]))
      = some (o :: (is ++ [close]), semi, []) := by
  have hopen : Token.startsWithAny ending "\x7b" = false := by decide +kernel
  have hshut : Token.startsWithAny ending "\x7d" = false := by decide +kernel
  have hend : Token.startsWithAny ending ";" = true := by decide +kernel
  have hup : shift "\x7b" = 1 := by decide +kernel
  have hdown : shift "\x7d" = -1 := by decide +kernel
  rw [cutInitializer?_cons_of_not_ends (Int.le_refl 0)
    (fun _ => ho ▸ hopen), ho, hup,
    his.enclosed.cutInitializer? rfl (by decide) (fun _ => by decide),
    cutInitializer?_cons_of_not_ends (by decide) (fun _ => hclose ▸ hshut),
    hclose, hdown]
  rw [show (0 + 1 + -1 : Int) = 0 from rfl,
    cutInitializer?_cons_of_ends (hsemi ▸ hend)]
  simp [appendCut, consCut]

/-- Of what a list begins like there is only one declaration. -/
theorem shapeOf?_list : shapeOf? (is ++ [close, semi])
    = if declares (is.map Cell.text) then
      some ⟨⟨[.type, .literal "*", .var, .literal ","]⟩, 3, 1⟩ else none := by
  have htexts : (is ++ [close, semi]).map Cell.text
      = is.map Cell.text ++ ["\x7d", ";"] := by
    rw [List.map_append, List.map_cons, List.map_singleton, hclose, hsemi]
  have hchain : (is.map Cell.text ++ ["\x7d", ";"]).IsChain Beside :=
    isChain_append_cons his.isChain (by decide +kernel) (.singleton _)
  rw [shapeOf?_of_isChain (htexts ▸ hchain), htexts, declares_append]

/-- **A list that begins otherwise is left as it is**: no statement begins at
its `{`, and none further inside. -/
theorem splitDeclarations_list (h : declares (is.map Cell.text) = false)
    (o : Cell) (pool : SlotPool) :
    splitDeclarations (o :: (is ++ [close, semi])) pool
      = .unchanged (o :: (is ++ [close, semi])) pool := by
  have hshape := shapeOf?_list his hclose hsemi
  rw [if_neg (Bool.not_eq_true _ ▸ h)] at hshape
  have hpass : ∀ x ∈ is, Token.startsWithAny ['{', '}', ';'] x.text = false :=
    fun x hx => his.enclosed.not_begins x.text (List.mem_map_of_mem hx)
  have hlast : splitDeclarations [close, semi] pool
      = .unchanged [close, semi] pool := by
    have hnone : Settled close.text ([] ++ [semi]) :=
      settled_of_semicolon (List.forall_mem_nil _) hsemi close.text []
    rw [List.nil_append] at hnone
    rw [splitDeclarations_of_next?_eq_none (hnone pool),
      splitDeclarations_of_next?_eq_none
        (settled_of_shapeOf?_eq_none rfl semi.text pool), splitDeclarations]
    rfl
  rw [splitDeclarations_of_next?_eq_none
    (settled_of_shapeOf?_eq_none hshape o.text pool),
    splitDeclarations_append hpass, hlast]
  rfl

/-- **A list that begins like a declaration is not kept**: it begins behind a
`{`, where a declaration may come, and one with a comma behind its name is
split. -/
theorem splitDeclarations_list_ne (h : declares (is.map Cell.text) = true)
    (ho : o.text = "\x7b") (pool : SlotPool) :
    (splitDeclarations (o :: (is ++ [close, semi])) pool).cells.map Cell.token
      ≠ (o :: (is ++ [close, semi])).map Cell.token := by
  have hshape := shapeOf?_list his hclose hsemi
  rw [if_pos h] at hshape
  obtain ⟨lead, sep, after, heq, hlen⟩ := exists_of_shapeOf? hshape
  have hbefore : Token.startsWithAny ['{', '}', ';'] o.text = true := by
    rw [ho]
    decide +kernel
  rw [heq] at hshape ⊢
  obtain ⟨hmem, hopens⟩ := mem_shapes_of_shapeOf? hshape
  obtain ⟨name, hname⟩ := exists_nameCell? hmem hlen
  have hcomma : (sep.text == ",") = true := by
    obtain ⟨type, star, declared, rfl⟩ := List.length_eq_three.mp hlen
    simp only [Pattern.opens, List.cons_append, List.nil_append,
      Pattern.fits_cons_cons, Pattern.fits_nil, Piece.accepts_literal,
      Bool.and_eq_true] at hopens
    exact beq_iff_eq.mpr (eq_of_beq hopens.2.2.2.1).symm
  have hnext := next?_of_shapeOf? hbefore hshape hlen hname pool
  rw [if_pos hcomma] at hnext
  exact map_token_splitDeclarations_ne hnext

end List

/-- The cells of a list, told by their tokens: two brackets, what is between
them, and the `;`. -/
theorem Braced.exists_cells {s : Braced} {list : List Cell}
    (h : list.map Cell.token = s.list) :
    ∃ o is close semi, list = o :: (is ++ [close, semi]) ∧ o.text = "\x7b"
      ∧ is.map Cell.text = s.items.map Token.text ∧ close.text = "\x7d"
      ∧ semi.text = ";" := by
  obtain ⟨o, ys, rfl, ho, hys⟩ := List.map_eq_cons_iff.mp h
  obtain ⟨is, zs, rfl, his, hzs⟩ := List.map_eq_append_iff.mp hys
  obtain ⟨close, ws, rfl, hclose, hws⟩ := List.map_eq_cons_iff.mp hzs
  obtain ⟨semi, _, rfl, hsemi, hnil⟩ := List.map_eq_cons_iff.mp hws
  obtain rfl := List.map_eq_nil_iff.mp hnil
  refine ⟨o, is, close, semi, rfl, ?_, ?_, ?_, ?_⟩
  · rw [Cell.text, ho, s.opening_eq]
  · rw [← his, List.map_map]
    rfl
  · rw [Cell.text, hclose, s.closing_eq]
  · rw [Cell.text, hsemi, s.semi_eq]

/-- **The list is split off**, and the pass goes on at its `{`, behind which a
statement may begin. -/
theorem Braced.splitDeclarations_eq (s : Braced)
    (hbefore : Token.startsWithAny ['{', '}', ';'] c.text = true)
    (hxs : xs.map Cell.token = s.tokens) (pool : SlotPool) :
    ∃ written list q, written.map Cell.token
        = s.head ++ [s.equals.withText ";", s.name, s.equals]
      ∧ list.map Cell.token = s.list
      ∧ splitDeclarations (c :: xs) pool
        = ((splitDeclarations list q).prepend (c :: written)).plus 1 := by
  -- Up to its `=` the declaration is one that any value may be behind.
  let d : Declarator := ⟨s.star, s.name,
    .value s.equals [] s.equals_eq (.nil false), s.star_eq, s.isName⟩
  let type : TypeWords := .word s.type s.isTypeName
  rw [Braced.tokens] at hxs
  obtain ⟨lead, ys, rfl, hlead, hys⟩ := List.map_eq_append_iff.mp hxs
  obtain ⟨eq, list, rfl, heq, hlist⟩ := List.map_eq_cons_iff.mp hys
  obtain ⟨o, is, close, semi, rfl, ho, his, hclose, hsemi⟩ :=
    Braced.exists_cells hlist
  have hitems : Items (is.map Cell.text) := his ▸ s.isItems
  have hd : d.Allowed type := trivial
  have hequals : eq.text = "=" := by rw [Cell.text, heq, s.equals_eq]
  have hcomma : ¬ (semi.text == ",") = true := by
    rw [hsemi]
    decide
  obtain ⟨written, q, hwritten, hsplit⟩ :=
    Declarator.splitDeclarations_of_equals hbefore hd hlead hequals rfl
      (cutInitializer?_list hitems hclose hsemi ho) pool
  rw [if_neg hcomma] at hsplit
  refine ⟨written, o :: (is ++ [close, semi]), q, ?_, hlist, ?_⟩
  · rw [hwritten, heq]
    rfl
  · rw [hsplit, List.cons_append, List.append_assoc]
    rfl

end Declaration

namespace TokenChain

open Declaration (Braced Items declares)

/-- **A list in braces is left as it is** exactly if it does not begin like a
declaration. This is said of every list of expressions, on every chain. -/
theorem Laid.keeps_braces_iff {c : TokenChain} {b : Token}
    (hc : c.Laid c.cells) (s : Braced)
    (hb : Token.startsWithAny ['{', '}', ';'] b.text = true)
    (htokens : c.tokens = b :: s.tokens) :
    ((c.edit splitDeclarations).2.tokens = b :: s.written
        ↔ declares (s.items.map Token.text) = false)
      ∧ (declares (s.items.map Token.text) = false →
        (c.edit splitDeclarations).1 = 1) := by
  obtain ⟨first, xs, hcells, rfl, hxs⟩ := List.map_eq_cons_iff.mp htokens
  obtain ⟨written, list, q, hwritten, hlist, hsplit⟩ :=
    s.splitDeclarations_eq hb hxs c.pool
  have hedit := (hc.edit sound_splitDeclarations).cells_eq
  rw [hcells, hsplit] at hedit
  have htokens' : (c.edit splitDeclarations).2.tokens = first.token
      :: ((s.head ++ [s.equals.withText ";", s.name, s.equals])
        ++ (splitDeclarations list q).cells.map Cell.token) := by
    rw [tokens, hedit, ← hwritten, ← List.map_append]
    rfl
  have hgoal : first.token :: s.written = first.token
      :: ((s.head ++ [s.equals.withText ";", s.name, s.equals]) ++ s.list) := by
    rw [Braced.written, List.append_assoc]
    rfl
  obtain ⟨o, is, close, semi, rfl, ho, his, hclose, hsemi⟩ :=
    Braced.exists_cells hlist
  have hitems : Items (is.map Cell.text) := his ▸ s.isItems
  rw [htokens', hgoal, ← his]
  refine ⟨⟨fun h => ?_, fun h => ?_⟩, fun h => ?_⟩
  · have hkept := List.append_cancel_left (List.cons.inj h).2
    rw [← hlist] at hkept
    refine Bool.not_eq_true _ ▸ fun hdeclares => ?_
    exact Declaration.splitDeclarations_list_ne hitems hclose hsemi hdeclares ho
      q hkept
  · rw [Declaration.splitDeclarations_list hitems hclose hsemi h,
      Edit.cells_unchanged, hlist]
  · show (splitDeclarations c.cells c.pool).count = 1
    rw [hcells, hsplit,
      Declaration.splitDeclarations_list hitems hclose hsemi h]
    rfl

/-- A product of two names comes first, but in brackets, so it does not begin
like a declaration. -/
theorem keeps_braces_of_texts :
    let t : String → Token := fun s => ⟨s, 1, .first⟩
    let texts := ["\x7d", "int", "*", "a", "=", "\x7b", "(", "x", "*", "y",
      ")", ",", "x", "*", "y", ",", "2", "\x7d", ";"]
    let c := (ChainOp.run TokenChain.act .empty
      (texts.map fun s => .pushBack (t s))).2
    let items := ["(", "x", "*", "y", ")", ",", "x", "*", "y", ",", "2"]
    ∃ s : Braced, s.items.map Token.text = items
      ∧ c.tokens = t "\x7d" :: s.tokens
      ∧ (c.edit splitDeclarations).2.tokens = t "\x7d" :: s.written
      ∧ (c.edit splitDeclarations).2.tokens.map Token.text
        = ["\x7d", "int", "*", "a", ";", "a", "=", "\x7b", "(", "x", "*",
          "y", ")", ",", "x", "*", "y", ",", "2", "\x7d", ";"] := by
  intro t texts c items
  have hproduct : Declaration.Item (["x"] ++ "*" :: ["y"]) :=
    .operation (by decide) (.name (by decide +kernel))
      (.name (by decide +kernel))
  have hitems : Items ((items.map t).map Token.text) :=
    .more (.group hproduct)
      (.more hproduct (.one (.number (by decide +kernel))))
  let s : Braced := ⟨t "int", some (t "*"), t "a", t "=", t "\x7b",
    items.map t, t "\x7d", t ";", by decide +kernel, by decide +kernel,
    by decide +kernel, rfl, rfl, hitems, rfl, rfl⟩
  have hc : c.tokens = texts.map t := by decide +kernel
  have hdeclares : declares items = false := by decide +kernel
  refine ⟨s, rfl, hc, ?_, by decide +kernel⟩
  exact ((laid_empty.run _).keeps_braces_iff s (by decide +kernel) hc).1.mpr
    hdeclares

/-- **A list in braces is not always left as it is**: a product of two names
that comes first reads like a declaration with a star, and the comma behind
it is split. -/
theorem not_keeps_braces :
    let t : String → Token := fun s => ⟨s, 1, .first⟩
    let texts := [";", "int", "a", "=", "\x7b", "x", "*", "y", ",", "2",
      "\x7d", ";"]
    let c := (ChainOp.run TokenChain.act .empty
      (texts.map fun s => .pushBack (t s))).2
    ∃ s : Braced, c.tokens = t ";" :: s.tokens
      ∧ (c.edit splitDeclarations).2.tokens ≠ t ";" :: s.written
      ∧ (c.edit splitDeclarations).2.tokens.map Token.text
        = [";", "int", "a", ";", "a", "=", "\x7b", "x", "*", "y", ";", "x",
          "2", "\x7d", ";"] := by
  intro t texts c
  have hproduct : Declaration.Item (["x"] ++ "*" :: ["y"]) :=
    .operation (by decide) (.name (by decide +kernel))
      (.name (by decide +kernel))
  have hitems : Items ((["x", "*", "y", ",", "2"].map t).map Token.text) :=
    .more hproduct (.one (.number (by decide +kernel)))
  let s : Braced := ⟨t "int", none, t "a", t "=", t "\x7b",
    ["x", "*", "y", ",", "2"].map t, t "\x7d", t ";", by decide +kernel,
    by decide +kernel, by decide +kernel, rfl, rfl, hitems, rfl, rfl⟩
  have hc : c.tokens = texts.map t := by decide +kernel
  have hsplit : (c.edit splitDeclarations).2.tokens.map Token.text
      = [";", "int", "a", ";", "a", "=", "\x7b", "x", "*", "y", ";", "x",
        "2", "\x7d", ";"] := by
    decide +kernel
  refine ⟨s, hc, fun h => ?_, hsplit⟩
  rw [h] at hsplit
  have hlength : 14 = 15 := congrArg List.length hsplit
  exact absurd hlength (by decide)

end TokenChain

end FlatC
