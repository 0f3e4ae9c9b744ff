import FlatC.Workspace.Listing
import FlatC.Proofs.Source.Plain
import FlatC.Proofs.Workspace.Arranged
import FlatC.Proofs.Workspace.Spacing

/-!
# The flat listing read back

A plain source that has no typedef, and no comment by which something is
deleted, is tokenized into texts that can be written on one line and
tokenized again: the same texts come of it (`Workspace.tokenize?_flat`).

The two readings are not cut into the same lexemes. Comments, bytes outside
ASCII and hexadecimal literals are gone the second time. An operator that
has been fused is written as one text and cut into its two symbols again;
but `->` has become `.`, which is one. So the second reading is cut into
what the fused texts fall apart into (`CutInto`), and fusing that gives the
same texts once more (`Fusion.groups_parts`).
-/

namespace FlatC

open Utf8 (encode decode decode_encode)

variable {bytes : List UInt8} {text : String} {texts : List String}

/-- The bytes of two texts in a row are those of the one and of the other. -/
theorem Utf8.encode_append (s t : String) :
    encode (s ++ t) = encode s ++ encode t := by
  rw [encode, String.toList_append, List.flatMap_append]
  rfl

/-! ## Bytes cut into texts -/

/-- The texts of the tokens that lexemes become, none for those that become
none. -/
def tokenTexts (ls : List Located) : List (Option String) :=
  ls.map fun l => l.lexeme.token?

/-- **Bytes that are cut into lexemes with these texts**, if a blank comes
behind them or nothing. Where they stand is left open, and where the next
lexemes do. -/
def CutInto (bytes : List UInt8) (texts : List String) : Prop :=
  ∀ glued start more, Lexeme.Apart more →
    ∃ g, tokenTexts (lexemesFrom glued start (bytes ++ more))
      = texts.map some
        ++ tokenTexts (lexemesFrom g (start + bytes.length) more)

/-- A text that is a lexeme is cut into itself. -/
theorem Lexical.cutInto (h : Lexical text) : CutInto (encode text) [text] := by
  obtain ⟨lexeme, htoken, hcut⟩ := h.cutWhole
  intro glued start more hmore
  obtain ⟨g, hg⟩ := hcut glued start more hmore
  refine ⟨g, ?_⟩
  rw [hg, tokenTexts, List.map_cons, htoken]
  rfl

namespace Lexeme

variable {a b : UInt8} {first more : List UInt8}

/-- Whether some bytes are a symbol or a word. It is a test, so that it can be
tried out on the table of pairs. -/
def isAtom : List UInt8 → Bool
  | [] => false
  | b :: bytes =>
    (bytes.isEmpty && isSymbol b)
      || (beginsWord b && (b :: bytes).all isWordByte
        && (b :: bytes).length ≤ maxLength)

/-- **A symbol directly behind a symbol or a word** is cut off by itself,
unless it could make a comment of what it stands behind. Here no blank
separates the two, as a fused text has none. -/
theorem cutInto_atom (hfirst : isAtom first = true) (h : isSymbol a = true)
    (hslash : a ≠ slash) (hasterisk : a ≠ asterisk) :
    CutInto (first ++ [a]) [decode first, decode [a]] := by
  intro glued start more hmore
  have hsecond : ∀ g n, lexemesFrom g n (a :: more)
      = ⟨n, .symbol (decode [a])⟩ :: lexemesFrom false (n + 1) more :=
    lexemesFrom_symbol h fun ha => absurd ha hslash
  refine ⟨false, ?_⟩
  rw [List.append_assoc, List.singleton_append, List.length_append]
  cases first with
  | nil => cases hfirst
  | cons b bytes =>
    rw [isAtom, Bool.or_eq_true] at hfirst
    rcases hfirst with hsymbol | hword
    · rw [Bool.and_eq_true, List.isEmpty_iff] at hsymbol
      obtain ⟨rfl, hsymbol⟩ := hsymbol
      rw [List.cons_append, List.nil_append,
        lexemesFrom_symbol hsymbol, hsecond]
      · rfl
      · intro _ c hc
        cases hc
        exact ⟨hslash, hasterisk⟩
    · rw [Bool.and_eq_true, Bool.and_eq_true, List.all_eq_true,
        decide_eq_true_iff] at hword
      rw [lexemesFrom_whole_word bytes hword.1.1 hword.1.2 hword.2, hsecond]
      · rfl
      · intro c hc
        cases hc
        refine ⟨by simp [isWordByte, h], Bool.eq_false_iff.mpr fun hhigh => ?_⟩
        rw [isSymbol_of_isHigh hhigh] at h
        cases h

end Lexeme

/-- No lexeme is `->`, since two symbols are not cut off together. -/
theorem Lexical.ne_arrow (h : Lexical text) : text ≠ "->" := by
  intro harrow
  have hchars : text.toList = ['-', '>'] := congrArg String.toList harrow
  cases h with
  | word _ _ hword =>
    rw [hchars] at hword
    revert hword
    decide
  | symbol | string | character | escape => simp at hchars

namespace Fusion

variable {ts : List String}

/-- **A pair is cut apart** where it was fused. This is tried out on the
table: the second part is a symbol each time, and the first one a symbol or a
word. -/
theorem cutInto_pair {p : String × String} (h : p ∈ pairs) :
    CutInto (encode (p.1 ++ p.2)) [p.1, p.2] := by
  have hall : ∀ p ∈ pairs, Lexeme.isAtom (encode p.1) = true
      ∧ ∀ a ∈ (encode p.2).head?, encode p.2 = [a] ∧ Lexeme.isSymbol a = true
        ∧ a ≠ Lexeme.slash ∧ a ≠ Lexeme.asterisk := by
    decide +kernel
  have hsome : ∀ p ∈ pairs, (encode p.2).head?.isSome = true := by
    decide +kernel
  obtain ⟨a, ha⟩ := Option.isSome_iff_exists.mp (hsome p h)
  obtain ⟨hfirst, hsecond⟩ := hall p h
  obtain ⟨hbytes, hsymbol, hslash, hasterisk⟩ := hsecond a ha
  have hcut := Lexeme.cutInto_atom hfirst hsymbol hslash hasterisk
  rwa [← hbytes, decode_encode, decode_encode, ← Utf8.encode_append] at hcut

/-- **What a group is written as** is cut into what the group falls apart
into. That is the group, but for the arrow, which is written as a dot. -/
theorem cutInto_written (hts : ∀ text ∈ ts, Lexical text)
    {group : List String} (h : group ∈ groups ts) :
    CutInto (encode (written group)) (parts group) := by
  rcases of_mem_groups h with ⟨text, ht, rfl⟩ | ⟨p, hp, rfl⟩
  · have hlexical := hts text ht
    have hwritten : written [text] = text := by
      simp [written, dot, hlexical.ne_arrow]
    rw [hwritten, parts_singleton]
    exact hlexical.cutInto
  · by_cases hdash : [p.1, p.2] = ["-", ">"]
    · rw [hdash]
      exact Lexical.cutInto (.symbol (c := '.') (by decide))
    · have hall : ∀ p ∈ pairs, [p.1, p.2] ≠ ["-", ">"] →
          written [p.1, p.2] = p.1 ++ p.2 := by
        decide +kernel
      rw [hall p hp hdash, parts, if_neg hdash]
      exact cutInto_pair hp

/-- Groups written with single spaces between them are cut into what they fall
apart into, one after another. -/
theorem tokenTexts_intercalate {gs : List (List String)}
    (h : ∀ group ∈ gs, CutInto (encode (written group)) (parts group))
    (glued : Bool) (start : Nat) :
    tokenTexts (lexemesFrom glued start
        (encode (" ".intercalate (gs.map written))))
      = (gs.map parts).flatten.map some := by
  have hnil : Lexeme.Apart [] := fun b hb => by cases hb
  induction gs generalizing glued start with
  | nil => exact congrArg tokenTexts (lexemesFrom_nil glued start)
  | cons group gs ih =>
    have hgroup := h group List.mem_cons_self
    have hgs := ih fun g hg => h g (List.mem_cons_of_mem group hg)
    rw [List.map_cons, List.map_cons, List.flatten_cons, List.map_append]
    cases hrest : gs.map written with
    | nil =>
      obtain rfl := List.map_eq_nil_iff.mp hrest
      obtain ⟨g, hg⟩ := hgroup glued start [] hnil
      rw [List.append_nil, lexemesFrom_nil] at hg
      rw [String.intercalate_singleton, hg]
      rfl
    | cons next rest =>
      -- The space behind the group is passed over.
      obtain ⟨g, hg⟩ := hgroup glued start
        (encode (" " ++ " ".intercalate (gs.map written)))
        (by
          rw [Utf8.encode_append]
          intro b hb
          cases hb
          decide)
      rw [String.intercalate_cons_cons, String.append_assoc, ← hrest,
        Utf8.encode_append, hg, Utf8.encode_append]
      refine congrArg (_ ++ ·) ?_
      have hblank : encode " " = [0x20] := by decide
      rw [hblank, List.singleton_append,
        Lexeme.lexemesFrom_blank (by decide), hgs]

/-- **Fused texts on one line** are cut into what they fall apart into. So
what a listing is cut into is fused to the same texts again. -/
theorem tokenTexts_flat (hts : ∀ text ∈ ts, Lexical text) :
    tokenTexts (lexemes
        (encode (" ".intercalate ((groups ts).map written))))
      = ((groups ts).map parts).flatten.map some :=
  tokenTexts_intercalate (fun _ hgroup => cutInto_written hts hgroup) false 0

end Fusion

/-- Nothing is deleted by a comment without the word, which has to stand
between blanks. -/
theorem Comment.deleted?_eq_none {comment : String}
    (h : "deleted".toList
      ∉ Text.words Text.isAsciiBlank comment.toList) :
    Comment.deleted? comment = none := by
  unfold Comment.deleted?
  split
  · rfl
  · next first more hwords =>
    rw [hwords] at h
    exact if_neg fun hmore =>
      h (List.mem_cons_of_mem first (List.contains_iff_mem.mp hmore))

namespace Workspace

variable {sources : Sources} {path : String}

/-- **Lexemes of a plain source** leave what they are spelled as, unless
something is deleted. There are no directives and no literals among them. -/
theorem bare_of_plain (h : Plain bytes) {l : Located}
    (hl : l ∈ lexemes bytes)
    (hdeleted : ∀ text, l.lexeme = .comment text →
      "deleted".toList ∉ Text.words Text.isAsciiBlank text.toList) :
    Bare l.lexeme := by
  cases hspelled : l.lexeme.spelled? with
  | some text =>
    have hlexical := Lexeme.lexical_of_plain h hl hspelled
    exact .inl ⟨text, hspelled, hlexical.toDecimal?_eq_none.1⟩
  | none =>
    rcases Lexeme.cases_of_plain h hl with
      ⟨raw, hraw, -⟩ | ⟨c, -, hraw⟩ | ⟨raw, hraw⟩
    · rw [hraw] at hspelled
      cases hspelled
    · rw [hraw] at hspelled
      cases hspelled
    · exact .inr ⟨raw, hraw, Comment.deleted?_eq_none (hdeleted raw hraw)⟩

/-- **A source without typedefs tokenized in a new workspace**, if what a
buffer holds of it leaves just what it is spelled as: its texts are fused.
Both the source and its listing are tokenized so. -/
theorem tokenize?_empty (sources : Sources) (path : String)
    (hbare : ∀ l ∈ lexemes (Buffer.held bytes), Bare l.lexeme)
    (hspelled : (lexemes (Buffer.held bytes)).filterMap
      (fun l => l.lexeme.spelled?) = texts)
    (htypedef : "typedef" ∉ texts) :
    ∃ v, empty.tokenize? sources bytes path = some v
      ∧ v.chain.tokens.map Token.text
        = (Fusion.groups texts).map Fusion.written := by
  have hnew : empty.files.find? path = none := rfl
  obtain ⟨u, hread, hgrown, -⟩ := (grows_follow sources maxDepth).enter?
    TokenChain.laid_empty hnew bytes
  obtain ⟨ts, htokens, htexts, -⟩ := tokens_foldl_feed_of_bare
    (Workspace.follow sources maxDepth) (Buffer.held bytes) empty.newFile hbare
    (w := empty.entered path) TokenChain.laid_empty rfl
  have hu : u.chain.cells.map Cell.text = texts := by
    rw [enter?_of_find?_eq_none hnew] at hread
    obtain rfl := Option.some.inj hread
    rw [← hspelled, ← htexts]
    have := congrArg (List.map Token.text) htokens
    rwa [TokenChain.tokens, List.map_map] at this
  obtain ⟨v, hv, hlaid⟩ := tokenize?_of_read? hread hgrown.laid
  refine ⟨v, hv, ?_⟩
  rw [TokenChain.tokens, hlaid.cells_eq, List.map_map]
  refine (texts_arrange (fun c hc hword => htypedef ?_) _).trans (by rw [hu])
  rw [← hu, ← hword]
  exact List.mem_map_of_mem hc

/-- **The flat listing reads back** if a buffer holds it: a plain source, in
what is read of which nothing is deleted and nothing is a typedef, tokenized
in a new workspace, and the flat listing of that, tokenized in another, have
the same texts. The source itself may be longer than what a buffer holds. -/
theorem tokenize?_flat (sources sources' : Sources) (path path' : String)
    (hplain : Plain bytes)
    (hdeleted : ∀ l ∈ lexemes (Buffer.held bytes), ∀ text,
      l.lexeme = .comment text →
      "deleted".toList ∉ Text.words Text.isAsciiBlank text.toList)
    (htypedef : ∀ l ∈ lexemes (Buffer.held bytes),
      l.lexeme ≠ .word "typedef") :
    ∃ v, empty.tokenize? sources bytes path = some v
      ∧ ((encode v.flat).length ≤ Buffer.capacity →
        ∃ v', empty.tokenize? sources' (encode v.flat) path' = some v'
          ∧ v'.chain.tokens.map Token.text
            = v.chain.tokens.map Token.text) := by
  have hread := hplain.held
  have hbare : ∀ l ∈ lexemes (Buffer.held bytes), Bare l.lexeme := fun l hl =>
    bare_of_plain hread hl (hdeleted l hl)
  obtain ⟨ts, hts⟩ : ∃ ts, ts = (lexemes (Buffer.held bytes)).filterMap
      fun l => l.lexeme.spelled? := ⟨_, rfl⟩
  have hlexical : ∀ text ∈ ts, Lexical text := by
    intro text htext
    obtain ⟨l, hl, hspelled⟩ := List.mem_filterMap.mp (hts ▸ htext)
    exact Lexeme.lexical_of_plain hread hl hspelled
  have hword : "typedef" ∉ ts := by
    intro hmem
    obtain ⟨l, hl, hspelled⟩ := List.mem_filterMap.mp (hts ▸ hmem)
    exact htypedef l hl
      (Lexeme.eq_word_of_isName hread hl hspelled (by decide))
  obtain ⟨v, hv, hvtexts⟩ := tokenize?_empty sources path hbare hts.symm hword
  have hflat : encode v.flat
      = encode (" ".intercalate ((Fusion.groups ts).map Fusion.written)) := by
    rw [← hvtexts, TokenChain.tokens, List.map_map]
    rfl
  refine ⟨v, hv, fun hlength => ?_⟩
  -- The listing is cut into what the groups fall apart into.
  have hparts := Fusion.tokenTexts_flat hlexical
  rw [← hflat, ← Buffer.held_of_le hlength] at hparts
  obtain ⟨hbare', hspelled'⟩ := bare_of_lexical hparts fun text htext =>
    (Fusion.of_mem_parts htext).elim
      (fun hdot => hdot ▸ .symbol (c := '.') (by decide)) (hlexical text)
  have hword' : "typedef" ∉ ((Fusion.groups ts).map Fusion.parts).flatten :=
    fun hmem => (Fusion.of_mem_parts hmem).elim (by decide) hword
  obtain ⟨v', hv', hvtexts'⟩ :=
    tokenize?_empty sources' path' hbare' hspelled' hword'
  refine ⟨v', hv', ?_⟩
  rw [hvtexts, hvtexts', Fusion.groups_parts, List.map_map]
  exact List.map_congr_left fun group _ => Fusion.written_parts group

/-- A source with a byte outside ASCII in a word, a hexadecimal literal, both
kinds of comments, an access label, an arrow, and operators that are fused or
stay apart. -/
theorem tokenize?_flat_of_source :
    let bytes := encode
      "pub\u00FClic: a->b <<= 0xFFu - ->c; // not deleted.\n/* */ - > = .5"
    (lexemes bytes).map (fun l => l.lexeme)
        = [.word "public", .symbol ":", .word "a", .symbol "-", .symbol ">",
          .word "b", .symbol "<", .symbol "<", .symbol "=", .word "0xFFu",
          .symbol "-", .symbol "-", .symbol ">", .word "c", .symbol ";",
          .comment " not deleted.", .symbol "-", .symbol ">", .symbol "=",
          .symbol ".", .word "5"]
      ∧ ∃ v v', empty.tokenize? (fun _ => .error .notFound) bytes "a.c"
          = some v
        ∧ empty.tokenize? (fun _ => .error .notFound) (encode v.flat) "b.c"
          = some v'
        ∧ v'.chain.tokens.map Token.text = v.chain.tokens.map Token.text := by
  intro bytes
  have hheld : Buffer.held bytes = bytes :=
    Buffer.held_of_le (by decide +kernel)
  have hlexemes : (lexemes bytes).map (fun l => l.lexeme)
      = [.word "public", .symbol ":", .word "a", .symbol "-", .symbol ">",
        .word "b", .symbol "<", .symbol "<", .symbol "=", .word "0xFFu",
        .symbol "-", .symbol "-", .symbol ">", .word "c", .symbol ";",
        .comment " not deleted.", .symbol "-", .symbol ">", .symbol "=",
        .symbol ".", .word "5"] := by
    decide +kernel
  have hmem : ∀ l ∈ lexemes (Buffer.held bytes), l.lexeme
      ∈ (lexemes bytes).map fun l => l.lexeme := fun l hl =>
    List.mem_map_of_mem (hheld ▸ hl)
  have hshort : (empty.tokenize? (fun _ => .error .notFound) bytes "a.c").all
      fun v => (encode v.flat).length ≤ Buffer.capacity := by
    decide +kernel
  have hdeleted : ∀ l ∈ lexemes (Buffer.held bytes), ∀ text,
      l.lexeme = .comment text →
      "deleted".toList ∉ Text.words Text.isAsciiBlank text.toList := by
    intro l hl text hcomment
    have h := hmem l hl
    rw [hlexemes, hcomment] at h
    obtain rfl : text = " not deleted." := by simpa using h
    decide
  have htypedef : ∀ l ∈ lexemes (Buffer.held bytes),
      l.lexeme ≠ .word "typedef" := by
    intro l hl htypedef
    have h := hmem l hl
    rw [hlexemes, htypedef] at h
    revert h
    decide
  obtain ⟨v, hv, hreads⟩ := tokenize?_flat (fun _ => .error .notFound)
    (fun _ => .error .notFound) "a.c" "b.c" (by decide +kernel) hdeleted
    htypedef
  rw [hv, Option.all_some, decide_eq_true_iff] at hshort
  obtain ⟨v', hv', hsame⟩ := hreads hshort
  exact ⟨hlexemes, v, v', hv, hv', hsame⟩

/-! ### Where the listing does not read back -/

/-- **Semicolons and blanks** are cut into the semicolons. The blanks may be
anywhere, so the listing is of this kind too. -/
theorem spelled_semicolons (h : ∀ b ∈ bytes, b = 0x3B ∨ b = 0x20)
    (glued : Bool) (start : Nat) :
    (∀ l ∈ lexemesFrom glued start bytes, l.lexeme = .symbol ";")
      ∧ (lexemesFrom glued start bytes).length = bytes.count 0x3B := by
  induction bytes generalizing glued start with
  | nil => simp
  | cons b bytes ih =>
    have hrest := ih fun b hb => h b (List.mem_cons_of_mem _ hb)
    rcases h b List.mem_cons_self with rfl | rfl
    · have hsemicolon : (0x3B : UInt8) ≠ Lexeme.slash := by decide
      rw [Lexeme.lexemesFrom_symbol (by decide)
        (fun h => absurd h hsemicolon), List.count_cons_self,
        List.length_cons, (hrest _ _).2]
      have hsymbol : Lexeme.symbol (decode [0x3B]) = .symbol ";" := by decide
      exact ⟨List.forall_mem_cons.mpr ⟨hsymbol, (hrest _ _).1⟩, rfl⟩
    · rw [Lexeme.lexemesFrom_blank (by decide),
        List.count_cons_of_ne (by decide)]
      exact hrest _ _

/-- Semicolons are not fused, as they are in no pair. -/
theorem written_semicolons (n : Nat) :
    (Fusion.groups (List.replicate n ";")).map Fusion.written
      = List.replicate n ";" := by
  induction n with
  | zero => rfl
  | succ n ih =>
    have hsemicolons : Fusion.Unjoined ";" ";" := by decide
    have hunjoined : ∀ b ∈ (List.replicate n ";").head?,
        Fusion.Unjoined ";" b := fun b hb => by
      rwa [List.eq_of_mem_replicate (List.mem_of_mem_head? hb)]
    rw [List.replicate_succ, Fusion.groups_cons hunjoined, List.map_cons, ih]
    rfl

/-- **Semicolons and blanks tokenized** are the semicolons that are read,
which a buffer may not be able to hold all of. -/
theorem tokenize?_semicolons (sources : Sources) (path : String)
    (h : ∀ b ∈ bytes, b = 0x3B ∨ b = 0x20) :
    ∃ v, empty.tokenize? sources bytes path = some v
      ∧ v.chain.tokens.map Token.text
        = List.replicate ((Buffer.held bytes).count 0x3B) ";" := by
  have hheld : ∀ b ∈ Buffer.held bytes, b = 0x3B ∨ b = 0x20 :=
    fun b hb => h b (List.mem_of_mem_take hb)
  obtain ⟨hall, hlength⟩ := spelled_semicolons hheld false 0
  have hspelled : ∀ l ∈ lexemes (Buffer.held bytes),
      l.lexeme.spelled? = some ";" := fun l hl => by
    rw [hall l hl]
    decide
  have htexts : (lexemes (Buffer.held bytes)).filterMap
        (fun l => l.lexeme.spelled?)
      = List.replicate ((Buffer.held bytes).count 0x3B) ";" := by
    rw [List.filterMap_eq_map_iff_forall_eq_some.mpr hspelled,
      List.map_const', ← hlength]
    rfl
  obtain ⟨v, hv, hread⟩ := tokenize?_empty sources path
    (fun l hl => .inl ⟨";", hspelled l hl, by decide⟩) htexts fun hmem =>
      absurd (List.eq_of_mem_replicate hmem) (by decide)
  exact ⟨v, hv, hread.trans (written_semicolons _)⟩

/-- The listing of semicolons: a blank stands between each two. -/
theorem encode_semicolons (n : Nat) :
    encode (" ".intercalate (List.replicate (n + 1) ";"))
      = 0x3B :: (List.replicate n [0x20, 0x3B]).flatten := by
  induction n with
  | zero => decide
  | succ n ih =>
    have hblank : encode (";" ++ " ") = [0x3B, 0x20] := by decide
    rw [List.replicate_succ, List.replicate_succ,
      String.intercalate_cons_cons, ← List.replicate_succ,
      Utf8.encode_append, hblank, ih, List.replicate_succ, List.flatten_cons]
    rfl

/-- **A listing need not read back.** Of as many semicolons as a buffer has
room for bytes, the listing is too long, and fewer of them are read the second
time. And a listing by place holds more than the texts. -/
theorem not_flat :
    let sources : Sources := fun _ => .error .notFound
    let bytes := List.replicate Buffer.capacity 0x3B
    (Plain bytes ∧ (∀ l ∈ lexemes bytes, l.lexeme = .symbol ";")
        ∧ ∃ v v', empty.tokenize? sources bytes "a.c" = some v
          ∧ empty.tokenize? sources (encode v.flat) "b.c" = some v'
          ∧ v'.chain.tokens.map Token.text ≠ v.chain.tokens.map Token.text)
      ∧ (empty.tokenize? sources (encode ";") "a.c").bind (fun v =>
          (empty.tokenize? sources (encode v.byPlace) "b.c").map fun v' =>
            v'.chain.tokens.map Token.text)
        = some ["a", ".", "c", ":", "1", ":", ";"] := by
  intro sources bytes
  refine ⟨?_, by decide +kernel⟩
  have hbytes : ∀ b ∈ bytes, b = 0x3B := fun b hb =>
    List.eq_of_mem_replicate hb
  obtain ⟨v, hv, htexts⟩ := tokenize?_semicolons sources "a.c"
    fun b hb => .inl (hbytes b hb)
  have hheld : Buffer.held bytes = bytes :=
    Buffer.held_of_le (Nat.le_of_eq List.length_replicate)
  rw [hheld, List.count_replicate_self] at htexts
  obtain ⟨n, hn⟩ : ∃ n, Buffer.capacity = n + 2 :=
    Nat.exists_eq_add_of_le' (by decide +kernel)
  have hflat : encode v.flat
      = 0x3B :: 0x20 :: 0x3B :: (List.replicate n [0x20, 0x3B]).flatten := by
    have hlisted := encode_semicolons (n + 1)
    rw [List.replicate_succ (n := n), List.flatten_cons] at hlisted
    rw [hn] at htexts
    rw [← htexts, TokenChain.tokens, List.map_map] at hlisted
    exact hlisted
  have hlisted : ∀ b ∈ encode v.flat, b = 0x3B ∨ b = 0x20 := fun b hb => by
    rw [hflat] at hb
    simp only [List.mem_cons, List.mem_flatten, List.mem_replicate] at hb
    rcases hb with h | h | h | ⟨_, ⟨-, rfl⟩, hb⟩
    · exact .inl h
    · exact .inr h
    · exact .inl h
    · exact (List.mem_pair.mp hb).symm
  obtain ⟨v', hv', htexts'⟩ := tokenize?_semicolons sources "b.c" hlisted
  refine ⟨fun b hb => ?_, (spelled_semicolons (fun b hb => .inl (hbytes b hb))
    false 0).1, v, v', hv, hv', fun hsame => ?_⟩
  · rw [hbytes b hb]
    decide
  -- one of the bytes that are read is a blank
  · have hcount : (Buffer.held (encode v.flat)).count 0x3B < n + 2 := by
      rw [hflat, Buffer.held, hn, List.take_succ_cons, List.take_succ_cons,
        List.count_cons_self, List.count_cons_of_ne (by decide)]
      have hle := List.count_le_length (a := (0x3B : UInt8))
        (l := (0x3B :: (List.replicate n [0x20, 0x3B]).flatten).take n)
      rw [List.length_take] at hle
      omega
    have hlength := congrArg List.length hsame
    rw [htexts, htexts', List.length_replicate, List.length_replicate, hn]
      at hlength
    omega

end Workspace

end FlatC
