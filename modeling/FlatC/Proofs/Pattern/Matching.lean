import FlatC.Pattern.Basic
import FlatC.Proofs.Chain.Cyclic
import FlatC.Proofs.Text.Words

/-!
# What a pattern holds of

A pattern is read here as its words are, without what it is compiled to: a
word takes certain texts (`Takes`), and words hold of tokens when there are
enough tokens and each word takes the one at its place (`HoldOf`). That is
where the compiled pattern matches on a chain (`matchesAt_iff`).

A pattern says nothing but that. What is compiled is the same only for the
same words, since no two pieces take the same texts
(`Piece.eq_of_accepts`), and two patterns that differ are told apart by some
chain: a shorter one matches where the tokens end before the other, and of two
pieces that differ one takes a text that the other does not.
-/

namespace FlatC

/-! ## Pieces told apart -/

namespace Piece

variable {p q : Piece} {text word : String}

/-- A text that a piece takes. There is one for every piece, so no pattern is
in vain. -/
def sample : Piece → String
  | literal s => s
  | type => "x"
  | var => "x"
  | num => "0"

/-- A piece takes its sample. -/
theorem accepts_sample (p : Piece) : p.accepts p.sample = true := by
  cases p with
  | literal s => exact beq_self_eq_true s
  | type => decide +kernel
  | var => decide +kernel
  | num => decide +kernel

/-- No piece takes both the empty text and a sign: names and numbers are
neither, and a literal is one text. So what every text satisfies is no piece. -/
theorem not_accepts_both (h : q.accepts "" = true) :
    q.accepts "+" = false := by
  cases q with
  | literal s =>
    rw [eq_of_beq h]
    decide +kernel
  | type => decide +kernel
  | var => decide +kernel
  | num => decide +kernel

/-- A literal takes one text only, so what takes two is a place holder. -/
theorem ne_literal_of_accepts {a b s : String} (ha : p.accepts a = true)
    (hb : p.accepts b = true) (hab : a ≠ b) : p ≠ literal s := by
  rintro rfl
  exact hab ((eq_of_beq ha).symm.trans (eq_of_beq hb))

/-- **A piece is what it takes.** Literals are told from each other and from
place holders by how many texts they take, and the place holders by a keyword
and a digit. -/
theorem eq_of_accepts (h : ∀ text, p.accepts text = q.accepts text) :
    p = q := by
  -- what takes two texts is no literal, and is told from the other kinds by
  -- a keyword and a digit
  have hliteral : ∀ {s : String} {q : Piece},
      (∀ text, (literal s).accepts text = q.accepts text) →
      q.accepts "x" = true → q.accepts "y" = true → False :=
    fun h hx hy => ne_literal_of_accepts ((h "x").trans hx)
      ((h "y").trans hy) (by decide) rfl
  have hnumber : ∀ {s : String},
      (∀ text, (literal s).accepts text = num.accepts text) → False :=
    fun h => ne_literal_of_accepts ((h "0").trans (by decide +kernel))
      ((h "1").trans (by decide +kernel)) (by decide) rfl
  cases p with
  | literal s =>
    cases q with
    | literal t =>
      have hs := h s
      rw [accepts_literal, accepts_literal, beq_self_eq_true] at hs
      exact congrArg literal (eq_of_beq hs.symm).symm
    | type => exact (hliteral h (by decide +kernel) (by decide +kernel)).elim
    | var => exact (hliteral h (by decide +kernel) (by decide +kernel)).elim
    | num => exact (hnumber h).elim
  | type =>
    cases q with
    | literal t =>
      exact (hliteral (fun text => (h text).symm) (by decide +kernel)
        (by decide +kernel)).elim
    | type => rfl
    | var => exact absurd (h "return") (by decide +kernel)
    | num => exact absurd (h "x") (by decide +kernel)
  | var =>
    cases q with
    | literal t =>
      exact (hliteral (fun text => (h text).symm) (by decide +kernel)
        (by decide +kernel)).elim
    | type => exact absurd (h "return") (by decide +kernel)
    | var => rfl
    | num => exact absurd (h "x") (by decide +kernel)
  | num =>
    cases q with
    | literal t => exact (hnumber fun text => (h text).symm).elim
    | type => exact absurd (h "x") (by decide +kernel)
    | var => exact absurd (h "x") (by decide +kernel)
    | num => rfl

end Piece

/-! ## Pieces held against texts -/

namespace Pattern

variable {ps qs : List Piece} {texts : List String}

/-- **Pieces fit where there are enough places**, and each takes the text at
its own. What is beyond the last piece is not looked at. -/
theorem fits_iff {α : Type} {text : α → String} {as : List α} :
    fits text ps as = true ↔ ps.length ≤ as.length
      ∧ ∀ (i : Nat) (piece : Piece) (a : α), ps[i]? = some piece →
        as[i]? = some a → piece.accepts (text a) = true := by
  induction ps generalizing as with
  | nil => simp
  | cons p ps ih =>
    cases as with
    | nil => simp
    | cons a as =>
      rw [fits_cons_cons, Bool.and_eq_true, ih, List.length_cons,
        List.length_cons, Nat.succ_le_succ_iff]
      constructor
      · rintro ⟨ha, hle, hrest⟩
        refine ⟨hle, fun i piece b hp hb => ?_⟩
        cases i with
        | zero =>
          cases hp
          cases hb
          exact ha
        | succ i => exact hrest i piece b hp hb
      · rintro ⟨hle, hall⟩
        exact ⟨hall 0 p a rfl rfl, hle, fun i => hall (i + 1)⟩

/-- Pieces look no further than there are pieces, so they need not be shown
the rest. -/
theorem fits_take {α : Type} (text : α → String) (ps : List Piece)
    (as : List α) : fits text ps (as.take ps.length) = fits text ps as := by
  induction ps generalizing as with
  | nil => rw [fits_nil, fits_nil]
  | cons p ps ih =>
    cases as with
    | nil => rfl
    | cons a as =>
      rw [List.length_cons, List.take_succ_cons, fits_cons_cons,
        fits_cons_cons, ih]

/-- Pieces fit their samples. -/
theorem fits_sample (ps : List Piece) :
    fits id ps (ps.map Piece.sample) = true := by
  induction ps with
  | nil => rfl
  | cons p ps ih =>
    rw [List.map_cons, fits_cons_cons, ih, Bool.and_true]
    exact p.accepts_sample

/-- What begins with one piece does not always fit where anything does: one of
the empty text and a sign is refused. -/
theorem exists_not_fits (q : Piece) (qs : List Piece) :
    ∃ text, fits id (q :: qs) [text] = false := by
  cases h : q.accepts "" with
  | true =>
    refine ⟨"+", ?_⟩
    rw [fits_cons_cons, id, q.not_accepts_both h, Bool.false_and]
  | false =>
    refine ⟨"", ?_⟩
    rw [fits_cons_cons, id, h, Bool.false_and]

/-- **Pieces that fit the same texts are the same**, and it is enough to look
where there are texts. The induction goes along both lists; where one ends
first, the samples of the other are cut short. -/
theorem eq_of_fits
    (h : ∀ texts ≠ [], fits id ps texts = fits id qs texts) : ps = qs := by
  -- one piece is compared at a time, with texts behind it that the others of
  -- the same list take
  induction ps generalizing qs with
  | nil =>
    cases qs with
    | nil => rfl
    | cons q qs =>
      obtain ⟨text, htext⟩ := exists_not_fits q qs
      have := h [text] (List.cons_ne_nil _ _)
      rw [fits_nil, htext] at this
      cases this
  | cons p ps ih =>
    cases qs with
    | nil =>
      obtain ⟨text, htext⟩ := exists_not_fits p ps
      have := h [text] (List.cons_ne_nil _ _)
      rw [fits_nil, htext] at this
      cases this
    | cons q qs =>
      have hpq : p = q := by
        refine Piece.eq_of_accepts fun text => Bool.eq_iff_iff.mpr ?_
        have hp := h (text :: ps.map Piece.sample) (List.cons_ne_nil _ _)
        have hq := h (text :: qs.map Piece.sample) (List.cons_ne_nil _ _)
        rw [fits_cons_cons, fits_cons_cons, fits_sample, Bool.and_true]
          at hp hq
        constructor
        · intro htext
          exact (Bool.and_eq_true _ _ ▸ hp.symm.trans htext).1
        · intro htext
          exact (Bool.and_eq_true _ _ ▸ hq.trans htext).1
      subst hpq
      congr 1
      refine ih fun texts hne => ?_
      have := h (p.sample :: texts) (List.cons_ne_nil _ _)
      rwa [fits_cons_cons, fits_cons_cons, id, p.accepts_sample,
        Bool.true_and, Bool.true_and] at this

/-! ## Words -/

/-- The words of a pattern, which blanks stand between. -/
def words (text : String) : List String :=
  (Text.words Text.isBlank text.toList).map String.ofList

/-- **What a word takes**: `%type%` a name that begins no statement, `%var%`
any name, `%num%` a text that starts with a digit, and any other word itself.
A word that only looks like a place holder, such as `%int%`, is one of the
others. -/
inductive Takes (word text : String) : Prop
  | type (hword : word = "%type%") (hname : Token.isName text = true)
    (hkeyword : text ∉ Token.statementKeywords)
  | var (hword : word = "%var%") (hname : Token.isName text = true)
  | num (hword : word = "%num%") (hnumber : Token.isNumber text = true)
  | itself (hword : word ∉ ["%type%", "%var%", "%num%"])
    (htext : word = text)

/-- **Words that hold of some tokens**: there are enough of them, and each
word takes the one at its place. Tokens behind the last word do not matter. -/
structure HoldOf (ws : List String) (ts : List Token) : Prop where
  enough : ws.length ≤ ts.length
  takes : ∀ (i : Nat) (word : String) (t : Token),
    ws[i]? = some word → ts[i]? = some t → Takes word t.text

/-- A word is turned into the piece that takes what the word takes. -/
theorem accepts_ofWord_iff {word text : String} :
    (Piece.ofWord word).accepts text = true ↔ Takes word text := by
  unfold Piece.ofWord
  split
  · next h =>
    subst h
    rw [Piece.accepts_type, Token.isTypeName, Bool.and_eq_true,
      Bool.not_eq_true', Token.isStatementKeyword,
      ← Bool.not_eq_true, List.contains_iff_mem]
    constructor
    · exact fun ht => .type rfl ht.1 ht.2
    · rintro (⟨_, hname, hkeyword⟩ | ⟨hword⟩ | ⟨hword⟩ | ⟨hword⟩)
      · exact ⟨hname, hkeyword⟩
      all_goals exact absurd hword (by decide)
  split
  · next h =>
    subst h
    constructor
    · exact .var rfl
    · rintro (⟨hword⟩ | ⟨_, hname⟩ | ⟨hword⟩ | ⟨hword⟩)
      · exact absurd hword (by decide)
      · exact hname
      all_goals exact absurd hword (by decide)
  split
  · next h =>
    subst h
    constructor
    · exact .num rfl
    · rintro (⟨hword⟩ | ⟨hword⟩ | ⟨_, hnumber⟩ | ⟨hword⟩)
      · exact absurd hword (by decide)
      · exact absurd hword (by decide)
      · exact hnumber
      · exact absurd hword (by decide)
  · next htype hvar hnum =>
    rw [Piece.accepts_literal, beq_iff_eq]
    constructor
    · exact .itself (by simp [htype, hvar, hnum])
    · rintro (⟨hword⟩ | ⟨hword⟩ | ⟨hword⟩ | ⟨_, htext⟩)
      · exact absurd hword htype
      · exact absurd hword hvar
      · exact absurd hword hnum
      · exact htext

/-- **Different words stand for different pieces.** What a place holder is
turned into is no literal, and literals keep their text. -/
theorem ofWord_injective : Function.Injective Piece.ofWord := by
  intro v w h
  unfold Piece.ofWord at h
  split_ifs at h <;> simp_all

/-- A pattern has one piece for each of its words, in their order. -/
theorem pieces_compile (text : String) :
    (compile text).pieces = (words text).map Piece.ofWord := by
  rw [compile, words, List.map_map]
  rfl

/-- **What is compiled is the words**: how many blanks there are between them,
and at both ends, is forgotten, and nothing else is. -/
theorem compile_eq_iff {a b : String} :
    compile a = compile b ↔ words a = words b := by
  have hpieces : compile a = compile b
      ↔ (compile a).pieces = (compile b).pieces :=
    ⟨congrArg pieces, fun h => congrArg Pattern.mk h⟩
  rw [hpieces, pieces_compile, pieces_compile]
  exact (List.map_injective_iff.mpr ofWord_injective).eq_iff

/-- The pieces of some words fit where the words hold. -/
theorem fits_words_iff {ws : List String} {ts : List Token} :
    fits Token.text (ws.map Piece.ofWord) ts = true ↔ HoldOf ws ts := by
  rw [fits_iff, List.length_map]
  simp only [List.getElem?_map, Option.map_eq_some_iff]
  constructor
  · rintro ⟨hle, hall⟩
    exact ⟨hle, fun i word t hword ht =>
      accepts_ofWord_iff.mp (hall i _ t ⟨word, hword, rfl⟩ ht)⟩
  · rintro ⟨hle, hall⟩
    refine ⟨hle, ?_⟩
    rintro i _ t ⟨word, hword, rfl⟩ ht
    exact accepts_ofWord_iff.mpr (hall i word t hword ht)

/-! ## Patterns on a chain -/

end Pattern

namespace TokenChain

open Cell (entry slots)

variable {c : TokenChain} {start : TokenId} {s : Nat}

/-- **A pattern matches at a place** if its pieces fit the tokens from there
on. The search goes along the links, and in a laid chain these lead through
the tokens behind the place, one by one. -/
theorem Laid.matchesAt_eq (h : c.Laid c.cells) (hs : c.ids[s]? = some start)
    (p : Pattern) : p.matchesAt c (some start)
      = Pattern.fits Token.text p.pieces (c.tokens.drop s) := by
  have hspelled := h.spelled_drop s
  rw [h.ids_eq, ← Cell.entry_drop] at hs
  rw [Pattern.matchesAt, ← hs, hspelled.walk_take, Pattern.fits_take,
    ← Pattern.fits_map, hspelled.map_text, hs, Option.isSome_some,
    Bool.true_and, tokens, ← List.map_drop, ← Pattern.fits_map Token.text,
    List.map_map]
  rfl

end TokenChain

namespace Pattern

/-- **What two patterns have to do with their words**: where the first
matches, and what makes it the same as the second. To be the same is said in
two ways, by what is compiled and by the places of all chains that runs can
build. -/
structure ByWords (a b : String) : Prop where
  /-- Their words are what stands between blanks. -/
  separated : ∀ text ∈ [a, b],
    Text.Separated Text.isBlank ((words text).map String.toList) text.toList
  /-- A pattern matches at a place of a chain exactly if its words hold of the
  tokens from there on. -/
  matchesAt_iff : ∀ (c : TokenChain) (s : Nat) (start : TokenId),
    c.Laid c.cells → c.ids[s]? = some start →
    ((compile a).matchesAt c (some start) = true
      ↔ HoldOf (words a) (c.tokens.drop s))
  /-- They are compiled to the same if they have the same words, -/
  compile_eq_iff : compile a = compile b ↔ words a = words b
  /-- which is so if they match at the same places of every chain that can be
  made. -/
  words_eq_iff : words a = words b
    ↔ ∀ (ops : List ChainOp) (start : TokenId),
      start ∈ (ChainOp.run TokenChain.act .empty ops).2.ids →
      (compile a).matchesAt (ChainOp.run TokenChain.act .empty ops).2 start
        = (compile b).matchesAt (ChainOp.run TokenChain.act .empty ops).2 start

/-- The words of a pattern are what stands between its blanks, none of them
empty. -/
theorem separated_words (text : String) :
    Text.Separated Text.isBlank ((words text).map String.toList)
      text.toList := by
  have hid : String.toList ∘ String.ofList = id :=
    funext fun _ => String.toList_ofList
  rw [words, List.map_map, hid, List.map_id]
  exact Text.separated_words _ _

/-- **Patterns that match at the same places are the same.** The chains that
are looked at are those with the texts in question appended, so the places of
reachable chains are enough. -/
theorem eq_of_matchesAt {p q : Pattern}
    (h : ∀ (ops : List ChainOp) (start : TokenId),
      start ∈ (ChainOp.run TokenChain.act .empty ops).2.ids →
      p.matchesAt (ChainOp.run TokenChain.act .empty ops).2 start
        = q.matchesAt (ChainOp.run TokenChain.act .empty ops).2 start) :
    p = q := by
  refine congrArg Pattern.mk (eq_of_fits fun texts hne => ?_)
  -- the texts are laid down as a chain, and matched at its first slot
  obtain ⟨ops, htokens⟩ := TokenChain.exists_run_tokens
    (texts.map fun text => ⟨text, 1, .first⟩)
  have hlaid := TokenChain.laid_empty.run ops
  obtain ⟨start, hstart⟩ : ∃ start,
      (ChainOp.run TokenChain.act .empty ops).2.ids[0]? = some start := by
    have hids := hlaid.ids_eq
    have hcells := congrArg List.length htokens
    rw [TokenChain.tokens, List.length_map, List.length_map] at hcells
    have hlt : 0 < (ChainOp.run TokenChain.act .empty ops).2.ids.length := by
      rw [hids, List.length_map, hcells]
      exact List.length_pos_iff.mpr hne
    exact ⟨_, List.getElem?_eq_getElem hlt⟩
  have hmatch := h ops start (List.mem_of_getElem? hstart)
  rw [hlaid.matchesAt_eq hstart, hlaid.matchesAt_eq hstart, htokens,
    List.drop_zero, ← fits_map Token.text, ← fits_map Token.text,
    List.map_map] at hmatch
  have hid : Token.text ∘ (fun text => (⟨text, 1, .first⟩ : Token)) = id := rfl
  rwa [hid, List.map_id] at hmatch

/-- **A pattern is its words**: it matches where they hold, and no other words
match at the same places. Nothing is asked of the texts of the patterns, so
the empty one is among them. -/
theorem byWords (a b : String) : ByWords a b := by
  refine ⟨fun text _ => separated_words text, fun c s start hlaid hs => ?_,
    compile_eq_iff, fun h ops start _ => ?_, fun h => ?_⟩
  · rw [hlaid.matchesAt_eq hs, pieces_compile, fits_words_iff]
  · rw [compile_eq_iff.mpr h]
  · exact compile_eq_iff.mp (eq_of_matchesAt h)

/-- Blanks around its words are no part of a pattern. -/
example : compile " %var%\t=  %num% " = compile "%var% = %num%" := by
  decide +kernel

end Pattern

end FlatC
