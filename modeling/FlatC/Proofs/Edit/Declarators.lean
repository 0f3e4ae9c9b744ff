import FlatC.Proofs.Chain.Runs
import FlatC.Proofs.Edit.Initializer

/-!
# Declarations of several names

A declaration is a type with **declarators** behind it, each of which
declares one name, and here it is as a reader of the language has it: a type
of one word or two, a list of declarators with a comma behind each but the
last, and for each declarator the star before its name and what stands
behind it. Nothing is said of shapes.

Splitting writes each declarator as a statement of its own, with the type in
front, and a value that is declared along with a name as a statement of its
own behind that (`TokenChain.Laid.splits_declarators`). It takes one step
for each declarator, and what comes behind a declarator is a declaration
again, of one declarator less, so the induction is on the declarators. The
`;` that is written for a comma is where the next statement begins.
-/

namespace FlatC

namespace Declaration

/-! ## Declarations -/

/-- **The words of a type**: one, or `struct` and one. That the words are of
the right kind is part of it, so no such thing has to be assumed later. -/
inductive TypeWords where
  | word (name : Token) (isTypeName : Token.isTypeName name.text = true)
  | struct (keyword name : Token) (keyword_eq : keyword.text = "struct")
    (isTypeName : Token.isTypeName name.text = true)

/-- The tokens of a type. -/
@[simp] def TypeWords.tokens : TypeWords → List Token
  | .word name _ => [name]
  | .struct keyword name _ _ => [keyword, name]

/-- **What stands behind a declared name**: nothing, a number in square
brackets, or `=` and the tokens of a value. Brackets come in pairs in a value,
and its commas stand in brackets. -/
inductive Behind where
  | nothing
  | bound (opening number closing : Token) (opening_eq : opening.text = "[")
    (isNumber : Token.isNumber number.text = true)
    (closing_eq : closing.text = "]")
  | value (equals : Token) (init : List Token) (equals_eq : equals.text = "=")
    (enclosed : Enclosed false (init.map Token.text))

namespace Behind

/-- The number in brackets. -/
@[simp] def bracketed : Behind → List Token
  | .bound opening number closing _ _ _ => [opening, number, closing]
  | _ => []

/-- The `=` and the value behind it, nothing where there is none. -/
def valued : Behind → List Token
  | .value equals init _ _ => equals :: init
  | _ => []

/-- What is written for the value of a name: a `;`, and the value set in a
statement of its own. -/
def written (name : Token) : Behind → List Token
  | .value equals init _ _ => equals.withText ";" :: name :: equals :: init
  | _ => []

/-- How often a value is split off, once or never. -/
def splits : Behind → Nat
  | .value .. => 1
  | _ => 0

end Behind

/-- **A declarator**: a name, with a star before it or not, and what stands
behind it. -/
structure Declarator where
  star : Option Token
  name : Token
  behind : Behind
  star_eq : ∀ t ∈ star, t.text = "*"
  isName : Token.isName name.text = true

namespace Declarator

/-- The tokens of a declarator up to its value, which a value does not change. -/
def head (d : Declarator) : List Token :=
  d.star.toList ++ d.name :: d.behind.bracketed

/-- The tokens of a declarator. -/
def tokens (d : Declarator) : List Token := d.head ++ d.behind.valued

/-- **What a declarator is written as**, with a type in front of it. -/
def written (type : TypeWords) (d : Declarator) : List Token :=
  type.tokens ++ d.head ++ d.behind.written d.name

/-- **Whether a declarator may stand behind a type**: behind `struct` and a
name there is no number in brackets, and no value without a star. Other
declarators have no shape and are not split. -/
def Allowed (d : Declarator) : TypeWords → Prop
  | .word .. => True
  | .struct .. =>
    match d.behind with
    | .nothing => True
    | .bound .. => False
    | .value .. => d.star.isSome = true

end Declarator

/-- **The declarators of a declaration** `T d₁ , d₂ , … , dₙ`, one at least,
each allowed behind the type. -/
inductive Declarators (type : TypeWords) where
  | last (d : Declarator) (allowed : d.Allowed type)
  | more (d : Declarator) (allowed : d.Allowed type) (comma : Token)
    (comma_eq : comma.text = ",") (others : Declarators type)

namespace Declarators

variable {type : TypeWords}

/-- The tokens of declarators. -/
def tokens : Declarators type → List Token
  | last d _ => d.tokens
  | more d _ comma _ others => d.tokens ++ comma :: others.tokens

/-- **What declarators are written as**: each with the type in front, and a
`;` for each comma. -/
def written : Declarators type → List Token
  | last d _ => d.written type
  | more d _ comma _ others =>
    d.written type ++ comma.withText ";" :: others.written

/-- **How often declarators are split**: once for each that has a comma
behind it or a value. -/
def splits : Declarators type → Nat
  | last d _ => d.behind.splits
  | more _ _ _ _ others => 1 + others.splits

end Declarators

variable {cells lead after ts hs xs rest : List Cell} {before : String}
variable {type : TypeWords} {d : Declarator} {c sep : Cell}

/-! ## Shapes -/

/-- The pieces that stand for a type. -/
@[simp] def TypeWords.pieces : TypeWords → List Piece
  | .word .. => [.type]
  | .struct .. => [.literal "struct", .type]

/-- The pieces that stand for what is behind a name, up to a value. -/
@[simp] def Behind.pieces : Behind → List Piece
  | .bound .. => [.literal "[", .num, .literal "]"]
  | _ => []

/-- The text behind a declarator at which it is split: before a value, or
behind the declarator. -/
@[simp] def Behind.separator : Behind → String
  | .value .. => "="
  | _ => ","

/-- The pieces that stand for a declarator up to its value. -/
def Declarator.pieces (d : Declarator) : List Piece :=
  (d.star.map fun _ => .literal "*").toList ++ .var :: d.behind.pieces

/-- What is behind a name that has no value: splitting does nothing with it. -/
structure Behind.Bare (b : Behind) : Prop where
  valued : b.valued = []
  written : ∀ name, b.written name = []
  splits : b.splits = 0
  separator : b.separator = ","

/-- Behind a name there is a value or there is none. -/
theorem Behind.bare_or_value (b : Behind) :
    b.Bare ∨ ∃ equals init heq hinit, b = .value equals init heq hinit := by
  cases b with
  | nothing => exact Or.inl ⟨rfl, fun _ => rfl, rfl, rfl⟩
  | bound => exact Or.inl ⟨rfl, fun _ => rfl, rfl, rfl⟩
  | value => exact Or.inr ⟨_, _, _, _, rfl⟩

/-- **The shape of a declarator** behind a type, computed from what stands in
it. -/
def Declarator.shape (type : TypeWords) (d : Declarator) : Shape where
  pattern := ⟨type.pieces ++ d.pieces ++ [.literal d.behind.separator]⟩
  before := type.pieces.length + d.pieces.length
  type := type.pieces.length

theorem TypeWords.length_pieces (type : TypeWords) :
    type.pieces.length = type.tokens.length := by
  cases type <;> rfl

theorem Declarator.length_pieces (d : Declarator) :
    d.pieces.length = d.head.length := by
  obtain ⟨_ | _, _, _ | _ | _, -, -⟩ := d <;> rfl

/-- The shapes, piece by piece, as the patterns are compiled. -/
theorem shapes_eq : shapes =
    [⟨⟨[.type, .var, .literal ","]⟩, 2, 1⟩,
      ⟨⟨[.type, .literal "*", .var, .literal ","]⟩, 3, 1⟩,
      ⟨⟨[.type, .var, .literal "[", .num, .literal "]", .literal ","]⟩, 5, 1⟩,
      ⟨⟨[.type, .literal "*", .var, .literal "[", .num, .literal "]",
        .literal ","]⟩, 6, 1⟩,
      ⟨⟨[.literal "struct", .type, .var, .literal ","]⟩, 3, 2⟩,
      ⟨⟨[.literal "struct", .type, .literal "*", .var, .literal ","]⟩, 4, 2⟩,
      ⟨⟨[.type, .var, .literal "="]⟩, 2, 1⟩,
      ⟨⟨[.type, .literal "*", .var, .literal "="]⟩, 3, 1⟩,
      ⟨⟨[.literal "struct", .type, .literal "*", .var, .literal "="]⟩, 4, 2⟩]
    := by
  decide +kernel

/-- Which shape comes next is a matter of the texts alone. -/
theorem shapeOf?_eq_find? (cells : List Cell) :
    shapeOf? cells = shapes.find? fun s =>
      Pattern.fits id s.pattern.pieces (cells.map Cell.text) := by
  rw [shapeOf?]
  congr 1
  funext s
  rw [Pattern.opens, Pattern.fits_map]

/-- **A declarator has its own shape**, and no other shape comes first. So the
order of the shapes is of no account. -/
theorem Declarator.shapeOf?_eq (hd : d.Allowed type)
    (hlead : lead.map Cell.token = type.tokens ++ d.head)
    (hsep : sep.text = d.behind.separator) (after : List Cell) :
    shapeOf? (lead ++ sep :: after) = some (d.shape type) := by
  have htexts : (lead ++ sep :: after).map Cell.text
      = (type.tokens ++ d.head).map Token.text
        ++ sep.text :: after.map Cell.text := by
    rw [← hlead, List.map_append, List.map_cons, List.map_map]
    rfl
  have hstar : Token.isName "*" = false := by decide +kernel
  have hequals : Token.isName "=" = false := by decide +kernel
  have htype : Token.isTypeName "*" = false := by decide +kernel
  have hstruct : Token.isTypeName "struct" = true := by decide +kernel
  have hne : ∀ {s text : String}, Token.isName text = true →
      Token.isName s = false → (s == text) = false := fun htext hs =>
    beq_eq_false_iff_ne.mpr (Token.ne_of_isName htext hs).symm
  obtain ⟨star, name, behind, hstars, hname⟩ := d
  have hname₁ := hne hname hstar
  have hname₂ := hne (s := ",") hname (by decide +kernel)
  have hname₃ := hne (s := "[") hname (by decide +kernel)
  rw [shapeOf?_eq_find?, htexts, hsep, shapes_eq, head, shape, pieces]
  rcases type with ⟨t, ht⟩ | ⟨s, t, hs, ht⟩
  · rcases star with _ | star
    · rcases behind with _ | ⟨o, n, c, ho, hn, hc⟩ | ⟨e, init, he, hinit⟩
      · simp [ht, hname]
      · simp [ht, hname, hname₁, ho, hn, hc]
      · simp [ht, hname, hname₁, hequals]
    · have hstars := hstars star rfl
      rcases behind with _ | ⟨o, n, c, ho, hn, hc⟩ | ⟨e, init, he, hinit⟩
      · simp [ht, hname, hstars, hstar]
      · simp [ht, hname, hstars, hstar, ho, hn, hc]
      · simp [ht, hname, hstars, hstar, htype]
  · -- `struct` is a type name itself, so the shapes of one word are tried
    -- with the name behind it as the declared one.
    have ht₁ := Token.isName_of_isTypeName ht
    have ht₂ := hne ht₁ hstar
    rcases star with _ | star
    · rcases behind with _ | ⟨o, n, c, ho, hn, hc⟩ | ⟨e, init, he, hinit⟩
      · simp [hs, hstruct, ht, ht₁, ht₂, hname, hname₂, hname₃]
      · exact hd.elim
      · cases hd
    · have hstars := hstars star rfl
      rcases behind with _ | ⟨o, n, c, ho, hn, hc⟩ | ⟨e, init, he, hinit⟩
      · simp [hs, hstruct, ht, ht₁, ht₂, hname, hstars, hstar]
      · exact hd.elim
      · simp [hs, hstruct, ht, ht₁, ht₂, hname, hstars, hstar]

/-! ## One declarator split off -/

/-- The cells of a declarator up to its value are plain, so no statement
begins among them. -/
theorem Declarator.plain (hd : d.Allowed type)
    (hlead : lead.map Cell.token = type.tokens ++ d.head) :
    ∀ x ∈ lead, Plain x.text := by
  -- The shape is that of any cells with the separator behind them.
  have hshape : shapeOf?
      (lead ++ [⟨⟨0⟩, ⟨d.behind.separator, 0, .first⟩⟩])
      = some (d.shape type) := Declarator.shapeOf?_eq hd hlead rfl []
  refine (lead_of_shapeOf? hshape ?_).1
  rw [Declarator.shape, d.length_pieces, type.length_pieces,
    ← List.length_append, ← hlead, List.length_map]

/-- The name of a declarator is found behind its star, or at once if it has
none. -/
theorem Declarator.nameCell?_eq (hhs : hs.map Cell.token = d.head) :
    ∃ name, nameCell? hs = some name ∧ name.token = d.name := by
  have hstar : Token.isName "*" = false := by decide +kernel
  obtain ⟨star, name, behind, hstars, hname⟩ := d
  have hne : ∀ c : Cell, c.token = name → ¬ (c.text == "*") = true := by
    rintro c rfl h
    exact Token.ne_of_isName hname hstar (eq_of_beq h)
  rcases star with _ | star
  · obtain ⟨n, hs, rfl, hn, -⟩ := List.map_eq_cons_iff.mp hhs
    refine ⟨n, ?_, hn⟩
    cases hs with
    | nil => rfl
    | cons c hs => rw [nameCell?, if_neg (hne n hn)]
  · obtain ⟨s, hs, rfl, hs₁, hhs⟩ := List.map_eq_cons_iff.mp hhs
    obtain ⟨n, hs, rfl, hn, -⟩ := List.map_eq_cons_iff.mp hhs
    refine ⟨n, ?_, hn⟩
    have hstar : s.text = "*" := by
      rw [Cell.text, hs₁]
      exact hstars star rfl
    rw [nameCell?, if_pos (beq_iff_eq.mpr hstar)]

/-- **A declarator that comes next** is split at its separator, a comma or an
`=`, with the type that the shape has found. -/
theorem Declarator.next?_eq
    (hbefore : Token.startsWithAny ['{', '}', ';'] before = true)
    (hd : d.Allowed type) (hts : ts.map Cell.token = type.tokens)
    (hhs : hs.map Cell.token = d.head) (hsep : sep.text = d.behind.separator)
    (after : List Cell) (pool : SlotPool) :
    ∃ name, name.token = d.name
      ∧ next? before (ts ++ hs ++ sep :: after) pool
        = if sep.text == "," then some (atComma (ts ++ hs) ts sep after pool)
          else atEquals? (ts ++ hs) ts name sep after pool := by
  have hlead : (ts ++ hs).map Cell.token = type.tokens ++ d.head := by
    rw [List.map_append, hts, hhs]
  have hlen : (ts ++ hs).length = (d.shape type).before := by
    rw [Declarator.shape, d.length_pieces, type.length_pieces,
      ← List.length_append, ← hlead, List.length_map]
  have htype : ts.length = (d.shape type).type := by
    rw [Declarator.shape, type.length_pieces, ← hts, List.length_map]
  obtain ⟨name, hname, htoken⟩ := Declarator.nameCell?_eq hhs
  rw [← @List.drop_left _ ts hs, htype] at hname
  refine ⟨name, htoken, ?_⟩
  rw [next?_of_shapeOf? hbefore (Declarator.shapeOf?_eq hd hlead hsep after)
    hlen hname, ← htype, List.take_left]

/-- No statement begins in texts that are enclosed, and a value is passed
without a split. -/
theorem Enclosed.not_begins {inside : Bool} {texts : List String}
    (h : Enclosed inside texts) :
    ∀ text ∈ texts, Token.startsWithAny ['{', '}', ';'] text = false := by
  induction h with
  | nil => exact fun _ h => absurd h List.not_mem_nil
  | neutral htext _ ih =>
    refine List.forall_mem_cons.mpr ⟨?_, ih⟩
    refine Token.startsWithAny_of_subset (?_ : Token.startsWithAny
      (opening ++ closing ++ ending) _ = false) (by decide)
    rw [Token.startsWithAny_append, Token.startsWithAny_append, htext.opening,
      htext.closing, htext.ending]
    rfl
  | comma _ ih => exact List.forall_mem_cons.mpr ⟨by decide +kernel, ih⟩
  | group _ _ ihinner ih =>
    refine List.forall_mem_cons.mpr ⟨by decide +kernel, ?_⟩
    exact List.forall_mem_append.mpr ⟨ihinner,
      List.forall_mem_cons.mpr ⟨by decide +kernel, ih⟩⟩

/-- **What stands behind a `=` split off**: the declarator, the name and the
`=` are written, and the pass goes on at what stood behind the `=`, with a
`;` and the type put in if that ends in a comma. -/
theorem Declarator.splitDeclarations_of_equals {eq stop : Cell}
    {init more : List Cell}
    (hbefore : Token.startsWithAny ['{', '}', ';'] c.text = true)
    (hd : d.Allowed type) (hlead : lead.map Cell.token = type.tokens ++ d.head)
    (heq : eq.text = "=") (hbehind : d.behind.separator = "=")
    (hcut : cutInitializer? 0 after = some (init, stop, more))
    (pool : SlotPool) :
    ∃ written q, written.map Cell.token
        = type.tokens ++ d.head ++ [eq.token.withText ";", d.name, eq.token]
      ∧ splitDeclarations (c :: (lead ++ eq :: after)) pool
        = ((if stop.text == "," then
            splitDeclarations
              (init ++ stop.withText ";" :: ((q.copy type.tokens).1 ++ more))
              (q.copy type.tokens).2
          else splitDeclarations (init ++ stop :: more) q).prepend
            (c :: written)).plus 1 := by
  obtain ⟨ts, hs, rfl, hts, hhs⟩ := List.map_eq_append_iff.mp hlead
  obtain ⟨name, hname, hnext⟩ := Declarator.next?_eq hbefore hd hts hhs
    (heq.trans hbehind.symm) after pool
  have hne : ¬ (eq.text == ",") = true := by
    rw [heq]
    decide
  rw [if_neg hne, atEquals?, hcut, hts] at hnext
  have hcopies := pool.map_token_copy [name.token, eq.token]
  generalize pool.copy [name.token, eq.token] = copies at hnext hcopies
  refine ⟨ts ++ hs ++ eq.withText ";" :: copies.1, copies.2, ?_, ?_⟩
  · rw [List.map_append, List.map_append, List.map_cons, hcopies, hts, hhs,
      hname]
    rfl
  · dsimp only at hnext
    split at hnext
    · next hcomma => rw [if_pos hcomma, splitDeclarations_of_next? hnext]
    · next hcomma => rw [if_neg hcomma, splitDeclarations_of_next? hnext]

/-- **A value split off**: it is gone through without a split, and the pass
goes on at the token behind it. -/
theorem Declarator.splitDeclarations_of_value {equals : Token}
    {init : List Token} {heq : equals.text = "="}
    {hinit : Enclosed false (init.map Token.text)}
    (hbehind : d.behind = .value equals init heq hinit)
    (hbefore : Token.startsWithAny ['{', '}', ';'] c.text = true)
    (hd : d.Allowed type) (hxs : xs.map Cell.token = type.tokens ++ d.tokens)
    (hstop : Token.startsWithAny ending sep.text = true) (rest : List Cell)
    (pool : SlotPool) :
    ∃ written q, written.map Cell.token = d.written type
      ∧ splitDeclarations (c :: (xs ++ sep :: rest)) pool
        = ((if sep.text == "," then
            splitDeclarations
              (sep.withText ";" :: ((q.copy type.tokens).1 ++ rest))
              (q.copy type.tokens).2
          else splitDeclarations (sep :: rest) q).prepend
            (c :: written)).plus 1 := by
  rw [Declarator.tokens, hbehind, ← List.append_assoc] at hxs
  obtain ⟨lead, ys, rfl, hlead, hys⟩ := List.map_eq_append_iff.mp hxs
  obtain ⟨eq, is, rfl, rfl, rfl⟩ := List.map_eq_cons_iff.mp hys
  have htexts : is.map Cell.text = (is.map Cell.token).map Token.text := by
    rw [List.map_map]
    rfl
  have hcut : cutInitializer? 0 (is ++ sep :: rest)
      = some (is, sep, rest) := by
    rw [hinit.cutInitializer? htexts (Int.le_refl 0) (fun h => by cases h),
      cutInitializer?_cons_of_ends hstop, Option.map_some, appendCut,
      List.append_nil]
  have hpass : ∀ x ∈ is,
      Token.startsWithAny ['{', '}', ';'] x.text = false := fun x hx =>
    hinit.not_begins x.text (htexts ▸ List.mem_map_of_mem hx)
  obtain ⟨written, q, hwritten, hsplit⟩ :=
    Declarator.splitDeclarations_of_equals hbefore hd hlead heq
      (by rw [hbehind]; rfl) hcut pool
  refine ⟨written ++ is, q, ?_, ?_⟩
  · rw [List.map_append, hwritten, Declarator.written, hbehind,
      List.append_assoc]
    rfl
  · rw [List.append_assoc, List.cons_append, hsplit,
      splitDeclarations_append hpass, splitDeclarations_append hpass]
    split
    · rw [Edit.prepend_prepend, List.cons_append]
    · rw [Edit.prepend_prepend, List.cons_append]

/-- **A declarator with a comma behind it** is split off, and what is left
begins with the type again. -/
theorem Declarator.splitDeclarations_of_comma
    (hbefore : Token.startsWithAny ['{', '}', ';'] c.text = true)
    (hd : d.Allowed type) (hxs : xs.map Cell.token = type.tokens ++ d.tokens)
    (hsep : sep.text = ",") (rest : List Cell) (pool : SlotPool) :
    ∃ written types q, written.map Cell.token = d.written type
      ∧ types.map Cell.token = type.tokens
      ∧ splitDeclarations (c :: (xs ++ sep :: rest)) pool
        = ((splitDeclarations (sep.withText ";" :: (types ++ rest)) q).prepend
            (c :: written)).plus 1 := by
  have hcomma : (sep.text == ",") = true := beq_iff_eq.mpr hsep
  rcases d.behind.bare_or_value with hbare | ⟨_, _, _, _, hbehind⟩
  · rw [Declarator.tokens, hbare.valued, List.append_nil] at hxs
    obtain ⟨ts, hs, rfl, hts, hhs⟩ := List.map_eq_append_iff.mp hxs
    obtain ⟨_, -, hnext⟩ := Declarator.next?_eq hbefore hd hts hhs
      (hsep.trans hbare.separator.symm) rest pool
    rw [if_pos hcomma, atComma, hts] at hnext
    refine ⟨ts ++ hs, _, _, ?_, pool.map_token_copy _,
      splitDeclarations_of_next? hnext⟩
    rw [hxs, Declarator.written, hbare.written, List.append_nil]
  · have hstop : Token.startsWithAny ending sep.text = true := by
      rw [hsep]
      decide +kernel
    obtain ⟨written, q, hwritten, hsplit⟩ :=
      Declarator.splitDeclarations_of_value hbehind hbefore hd hxs hstop rest
        pool
    rw [if_pos hcomma] at hsplit
    exact ⟨written, _, _, hwritten, q.map_token_copy _, hsplit⟩

/-- **The last declarator** is split only from its value. Without one there is
nothing to do up to the `;`, and with one the `;` is where the initializer
ends. -/
theorem Declarator.splitDeclarations_of_semicolon
    (hbefore : Token.startsWithAny ['{', '}', ';'] c.text = true)
    (hd : d.Allowed type) (hxs : xs.map Cell.token = type.tokens ++ d.tokens)
    (hsep : sep.text = ";") (rest : List Cell) (pool : SlotPool) :
    ∃ written q, written.map Cell.token = d.written type
      ∧ splitDeclarations (c :: (xs ++ sep :: rest)) pool
        = ((splitDeclarations (sep :: rest) q).prepend
            (c :: written)).plus d.behind.splits := by
  rcases d.behind.bare_or_value with hbare | ⟨_, _, _, _, hbehind⟩
  · rw [Declarator.tokens, hbare.valued, List.append_nil] at hxs
    have hplain := Declarator.plain hd hxs
    have hpass : ∀ x ∈ xs,
        Token.startsWithAny ['{', '}', ';'] x.text = false :=
      fun x hx => (hplain x hx).startsWithAny (by decide)
    refine ⟨xs, pool, ?_, ?_⟩
    · rw [hxs, Declarator.written, hbare.written, List.append_nil]
    · rw [splitDeclarations_of_next?_eq_none
        (settled_of_semicolon hplain hsep c.text rest pool),
        splitDeclarations_append hpass, hbare.splits, Edit.plus_zero]
      rfl
  · have hstop : Token.startsWithAny ending sep.text = true := by
      rw [hsep]
      decide +kernel
    have hcomma : ¬ (sep.text == ",") = true := by
      rw [hsep]
      decide
    obtain ⟨written, q, hwritten, hsplit⟩ :=
      Declarator.splitDeclarations_of_value hbehind hbefore hd hxs hstop rest
        pool
    rw [if_neg hcomma] at hsplit
    refine ⟨written, q, hwritten, ?_⟩
    rw [hsplit, hbehind]
    rfl

/-! ## The whole declaration -/

/-- **A declaration is split declarator by declarator**, up to the `;` behind
it. The induction is on the declarators; what is left behind the first is a
declaration of the others. -/
theorem Declarators.splitDeclarations (ds : Declarators type)
    (hbefore : Token.startsWithAny ['{', '}', ';'] c.text = true)
    (hxs : xs.map Cell.token = type.tokens ++ ds.tokens)
    (hsep : sep.text = ";") (rest : List Cell) (pool : SlotPool) :
    ∃ written q, written.map Cell.token = ds.written
      ∧ FlatC.splitDeclarations (c :: (xs ++ sep :: rest)) pool
        = ((FlatC.splitDeclarations (sep :: rest) q).prepend
            (c :: written)).plus ds.splits := by
  induction ds generalizing c xs pool with
  | last d hd =>
    exact Declarator.splitDeclarations_of_semicolon hbefore hd hxs hsep rest
      pool
  | more d hd comma hcomma others ih =>
    rw [Declarators.tokens, ← List.append_assoc] at hxs
    obtain ⟨ys, zs, rfl, hys, hzs⟩ := List.map_eq_append_iff.mp hxs
    obtain ⟨comma, xs, rfl, rfl, hothers⟩ := List.map_eq_cons_iff.mp hzs
    obtain ⟨written, types, q, hwritten, htypes, hsplit⟩ :=
      Declarator.splitDeclarations_of_comma hbefore hd hys hcomma
        (xs ++ sep :: rest) pool
    have hleft : (types ++ xs).map Cell.token
        = type.tokens ++ others.tokens := by
      rw [List.map_append, htypes, hothers]
    have hsemi : Token.startsWithAny ['{', '}', ';'] (comma.withText ";").text
        = true :=
      (by decide +kernel : Token.startsWithAny ['{', '}', ';'] ";" = true)
    obtain ⟨more, r, hmore, hmoresplit⟩ := ih hsemi hleft q
    refine ⟨written ++ comma.withText ";" :: more, r, ?_, ?_⟩
    · rw [List.map_append, List.map_cons, hwritten, hmore]
      rfl
    · rw [List.append_assoc, List.cons_append, hsplit,
        ← List.append_assoc types, hmoresplit, Edit.prepend_plus,
        Edit.prepend_prepend, Edit.plus_plus]
      rfl

end Declaration

namespace TokenChain

open Declaration (TypeWords Declarators)

/-- **A declaration of several names is split into one for each**, with the
values set behind them, and what comes behind it is split as if it began with
the `;`. It holds of every type, every list of declarators and every chain. -/
theorem Laid.splits_declarators {c d : TokenChain} {type : TypeWords}
    {b semi : Token} {further : List Token} (hc : c.Laid c.cells)
    (hd : d.Laid d.cells) (ds : Declarators type)
    (hb : Token.startsWithAny ['{', '}', ';'] b.text = true)
    (hsemi : semi.text = ";")
    (hctokens : c.tokens = b :: (type.tokens ++ ds.tokens ++ semi :: further))
    (hdtokens : d.tokens = semi :: further) :
    (c.edit splitDeclarations).2.tokens
        = b :: (ds.written ++ (d.edit splitDeclarations).2.tokens)
      ∧ (d.edit splitDeclarations).2.tokens.head? = some semi
      ∧ (c.edit splitDeclarations).1
        = ds.splits + (d.edit splitDeclarations).1 := by
  obtain ⟨first, ys, hcells, rfl, hys⟩ := List.map_eq_cons_iff.mp hctokens
  obtain ⟨xs, zs, rfl, hxs, hzs⟩ := List.map_eq_append_iff.mp hys
  obtain ⟨sep, rest, rfl, rfl, hrest⟩ := List.map_eq_cons_iff.mp hzs
  obtain ⟨written, q, hwritten, hsplit⟩ :=
    ds.splitDeclarations hb hxs hsemi rest c.pool
  -- What is made of the rest does not depend on its slots.
  have hsame : (splitDeclarations d.cells d.pool).Alike
      (splitDeclarations (sep :: rest) q) := by
    refine sound_splitDeclarations.alike d.pool q ?_
    rw [Cell.Alike, List.map_cons, hrest]
    exact hdtokens
  have hdedit := (hd.edit sound_splitDeclarations).cells_eq
  have hcedit := (hc.edit sound_splitDeclarations).cells_eq
  rw [hcells, hsplit] at hcedit
  refine ⟨?_, ?_, ?_⟩
  · rw [tokens, tokens, hcedit, hdedit, hsame.cells, Edit.cells_plus,
      Edit.cells_prepend, List.cons_append, List.map_cons, List.map_append,
      hwritten]
  · obtain ⟨tail, htail⟩ := cells_splitDeclarations_cons sep rest q
    rw [tokens, hdedit, hsame.cells, htail]
    rfl
  · show (splitDeclarations c.cells c.pool).count
      = ds.splits + (splitDeclarations d.cells d.pool).count
    rw [hcells, hsplit, hsame.count]
    rfl

/-- A bound, a value with a comma in it and a value behind a star, and a
declaration behind them. -/
theorem splits_declarators_of_texts :
    let t : String → Token := fun s => ⟨s, 1, .first⟩
    let chain : List Token → TokenChain := fun ts =>
      (ChainOp.run TokenChain.act .empty (ts.map .pushBack)).2
    let type : TypeWords := .word (t "int") (by decide +kernel)
    let init := ["f", "(", "x", ",", "y", ")"].map t
    let ds : Declarators type :=
      .more ⟨some (t "*"), t "a", .bound (t "[") (t "3") (t "]") rfl
          (by decide +kernel) rfl, by decide +kernel, by decide +kernel⟩
        trivial (t ",") rfl <|
      .more ⟨none, t "b", .value (t "=") init rfl
          (.neutral (.of_isName (by decide +kernel))
            (.group (.neutral (.of_isName (by decide +kernel))
              (.comma (.neutral (.of_isName (by decide +kernel)) (.nil true))))
              (.nil false))), by decide +kernel, by decide +kernel⟩
        trivial (t ",") rfl <|
      .last ⟨some (t "*"), t "c", .value (t "=") [t "b"] rfl
          (.neutral (.of_isName (by decide +kernel)) (.nil false)),
        by decide +kernel, by decide +kernel⟩ trivial
    let further := ["struct", "S", "p", ",", "q", ";"].map t
    let c := chain (t "\x7b" :: (type.tokens ++ ds.tokens ++ t ";" :: further))
    let d := chain (t ";" :: further)
    c.tokens.map Token.text
        = ["\x7b", "int", "*", "a", "[", "3", "]", ",", "b", "=", "f", "(",
          "x", ",", "y", ")", ",", "*", "c", "=", "b", ";", "struct", "S",
          "p", ",", "q", ";"]
      ∧ (c.edit splitDeclarations).2.tokens.map Token.text
        = ["\x7b", "int", "*", "a", "[", "3", "]", ";", "int", "b", ";", "b",
          "=", "f", "(", "x", ",", "y", ")", ";", "int", "*", "c", ";", "c",
          "=", "b", ";", "struct", "S", "p", ";", "struct", "S", "q", ";"]
      ∧ (c.edit splitDeclarations).2.tokens
        = t "\x7b" :: (ds.written ++ (d.edit splitDeclarations).2.tokens)
      ∧ (d.edit splitDeclarations).2.tokens.head? = some (t ";")
      ∧ (c.edit splitDeclarations).1
        = ds.splits + (d.edit splitDeclarations).1 := by
  intro t chain type init ds further c d
  have hc : c.tokens
      = t "\x7b" :: (type.tokens ++ ds.tokens ++ t ";" :: further) := by
    decide +kernel
  have hd : d.tokens = t ";" :: further := by
    decide +kernel
  refine ⟨by decide +kernel, by decide +kernel, ?_⟩
  exact (laid_empty.run _).splits_declarators (laid_empty.run _) ds
    (by decide +kernel) rfl hc hd

end TokenChain

end FlatC
