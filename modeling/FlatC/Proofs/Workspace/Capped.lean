import Mathlib.Data.List.TakeWhile
import FlatC.Proofs.Source.Plain
import FlatC.Proofs.Text.Size
import FlatC.Proofs.Workspace.Marks

/-!
# How long tokens are

Of a word and of a string literal `Lexeme.maxLength` bytes are kept, and a
string literal keeps its closing quote beyond that. Symbols and character
literals are short by themselves. So these tokens are **capped**, a string
literal at one byte more, as long as nothing in it was broken: a broken part
gets longer when it is read.

Other tokens are as long as what they come from: the name in a definition, the
path of an inclusion, the word of a comment that says what is deleted, and the
number of a macro. A source is **moderate** if none of these is too long and
neither is a string literal with a broken part (`Moderate`). From moderate
sources, with no number in the macro table that is too long, only capped tokens
are read (`Workspace.enter?_capped`). The condition is needed: a definition of
a name with 991 letters leaves a token of 991 bytes (`Workspace.not_capped`).
-/

namespace FlatC

variable {b : UInt8} {bytes rest : List UInt8} {path text : String}

/-- The number that a directive puts in the macro table, if it does. It is the
one text that a directive brings in for later. -/
def Directive.number? : Directive → Option String
  | .definition _ value => value.bind Macros.replacement?
  | _ => none

namespace Lexeme

/-! ## Lexemes -/

/-- **What the lexemes of a source are made of.** A word and a literal are no
longer than what is kept of them, and nothing is said of what a directive or a
comment holds. -/
inductive Made : Lexeme → Prop
  | word (stretch : List UInt8) : Made (.word (wordText stretch))
  | symbol (b : UInt8) : Made (.symbol (Utf8.decode [b]))
  | character {bytes : List UInt8} : bytes.length ≤ 4 →
    Made (.character (Utf8.decode bytes))
  | string (body : List UInt8) : Made (.string (stringText body))
  | directive (line : String) : Made (.directive line)
  | comment (text : String) : Made (.comment text)

/-- **What is cut off is made so**, kind by kind. A character literal has at
most four bytes, and so is never too long. -/
theorem Cuts.made {glued : Bool} {cut : Cut} {lexeme : Lexeme}
    (hcut : Cuts glued b rest cut) (h : cut.lexeme? = some lexeme) :
    lexeme.Made := by
  cases hcut with
  | directive => cases h; exact .directive _
  | newline => cases h
  | comment more =>
    dsimp only at h
    split at h
    · cases h
    · cases h; exact .comment _
  | block => cases h
  | division => cases h; exact .symbol slash
  | character =>
    cases h
    refine .character ?_
    rw [List.length_cons, List.length_take, characterLength]
    split <;> omega
  | string => cases h; exact .string _
  | symbol => cases h; exact .symbol _
  | nothing => cases h

/-- Each lexeme of a source is made so. -/
theorem made_of_mem_lexemes {l : Located} (h : l ∈ lexemes bytes) :
    l.lexeme.Made :=
  (of_mem_lexemesFrom (P := fun lexeme _ => lexeme.Made)
    (fun _ _ _ => .word _)
    (fun glued b rest _ h => (cuts_first glued b rest).made h) h).2

/-! ## Texts of marks -/

/-- **A text that is not too long**, by its bytes. These are what the limit
counts, and a character may have up to four of them. -/
def Short (text : String) : Prop := text.utf8ByteSize ≤ maxLength

/-- **A text that is capped**: it is not too long, or but for the closing
quote of a string literal. The limit is stated with this exception, so it is
what tokens are promised to be. -/
def Capped (text : String) : Prop :=
  Short text
    ∨ text.toList.head? = some '\x22' ∧ text.utf8ByteSize ≤ maxLength + 1

instance (text : String) : Decidable (Short text) :=
  inferInstanceAs (Decidable (_ ≤ _))

instance (text : String) : Decidable (Capped text) :=
  inferInstanceAs (Decidable (_ ∨ _))

/-- **A lexeme that is moderate**, in a file with a path: a string literal
that no broken part makes too long, a directive that says nothing too long, a
comment by which nothing with too long a name is deleted, and any other
lexeme. These are the three ways by which a text comes into the chain uncut,
and each is looked at in the source. -/
def Moderate (path : String) : Lexeme → Prop
  | .string text =>
    Utf8.replacement ∈ text.toList → text.utf8ByteSize ≤ maxLength + 1
  | .directive line =>
    (∀ text ∈ (Directive.ofLine line).texts path, Short text)
      ∧ ∀ number ∈ (Directive.ofLine line).number?, Short number
  | .comment text => ∀ name ∈ Comment.deleted? text, Short name
  | _ => True

instance (path : String) : (lexeme : Lexeme) →
    Decidable (lexeme.Moderate path)
  | .word _ => .isTrue trivial
  | .symbol _ => .isTrue trivial
  | .character _ => .isTrue trivial
  | .string text =>
    inferInstanceAs (Decidable
      (Utf8.replacement ∈ text.toList → text.utf8ByteSize ≤ maxLength + 1))
  | .directive line =>
    inferInstanceAs (Decidable
      ((∀ text ∈ (Directive.ofLine line).texts path, Short text)
        ∧ ∀ number ∈ (Directive.ofLine line).number?, Short number))
  | .comment text =>
    inferInstanceAs (Decidable (∀ name ∈ Comment.deleted? text, Short name))

/-- The text of a word is not too long: its bytes are of ASCII and at most so
many. -/
theorem short_wordText (stretch : List UInt8) : Short (wordText stretch) := by
  have hascii : ∀ b ∈ (stretch.filter isWordByte).take maxLength, b < 0x80 :=
    fun b hb => (of_isWordByte
      (List.mem_filter.mp (List.mem_of_mem_take hb)).2).1
  refine Nat.le_trans (Utf8.utf8ByteSize_decode_le_of_notMem ?_)
    (List.length_take_le _ _)
  rw [Utf8.decode_ascii hascii, String.toList_ofList]
  intro hmem
  obtain ⟨b, hb, hchar⟩ := List.mem_map.mp hmem
  have hne : ∀ n < 0x80, Char.ofNat n ≠ Utf8.replacement := by
    decide +kernel
  exact hne b.toNat (UInt8.lt_iff_toNat_lt.mp (hascii b hb)) hchar

/-- The text of a string literal is capped, if no broken part makes it too
long. A part that is broken, perhaps by the cut to the length, is written as a
character of three bytes. -/
theorem capped_stringText {body : List UInt8}
    (h : Utf8.replacement ∈ (stringText body).toList →
      (stringText body).utf8ByteSize ≤ maxLength + 1) :
    Capped (stringText body) := by
  refine .inr ⟨?_, ?_⟩
  · rw [stringText, Utf8.decode, String.toList_ofList, maxLength,
      List.take_succ_cons, List.cons_append,
      Utf8.decodeFrom_ascii _ (by decide)]
    rfl
  · by_cases hbroken : Utf8.replacement ∈ (stringText body).toList
    · exact h hbroken
    · refine Nat.le_trans (Utf8.utf8ByteSize_decode_le_of_notMem hbroken) ?_
      rw [List.length_append, List.length_singleton]
      exact Nat.succ_le_succ (List.length_take_le _ _)

/-- **The mark of a moderate lexeme has capped texts**, in a file with the
path and at the start of it or not. -/
theorem Made.capped {lexeme : Lexeme} (h : lexeme.Made)
    (hmoderate : lexeme.Moderate path) (starts : Bool) :
    ∀ text ∈ lexeme.texts path starts, Capped text := by
  have hsize : ∀ bytes : List UInt8, bytes.length ≤ 4 →
      Short (Utf8.decode bytes) := fun bytes hlen =>
    Nat.le_trans (Utf8.utf8ByteSize_decode_le bytes)
      (Nat.le_trans (Nat.mul_le_mul_left 3 hlen) (by decide))
  cases h with
  | word stretch =>
    intro text ht
    exact .inl (List.mem_singleton.mp ht ▸ short_wordText stretch)
  | symbol b =>
    intro text ht
    exact .inl (List.mem_singleton.mp ht ▸ hsize [b] (Nat.le_add_left 1 3))
  | character hlen =>
    intro text ht
    exact .inl (List.mem_singleton.mp ht ▸ hsize _ hlen)
  | string body =>
    intro text ht
    exact List.mem_singleton.mp ht ▸ capped_stringText hmoderate
  | directive line => exact fun text ht => .inl (hmoderate.1 text ht)
  | comment comment =>
    intro text ht
    rw [Lexeme.texts] at ht
    split at ht
    · next name hname =>
      split at ht
      · simp only [List.mem_cons, List.not_mem_nil, or_false] at ht
        rcases ht with rfl | rfl | rfl
        · exact .inl (by decide)
        · exact .inl (hmoderate _ hname)
        · exact .inl (by decide)
      · cases ht
    · cases ht

end Lexeme

open Lexeme (Short Capped)

/-- **A source that is moderate**, in a file with a path, as far as a buffer
holds it. -/
def Moderate (path : String) (bytes : List UInt8) : Prop :=
  ∀ l ∈ lexemes (Buffer.held bytes), l.lexeme.Moderate path

instance (path : String) (bytes : List UInt8) :
    Decidable (Moderate path bytes) :=
  inferInstanceAs
    (Decidable (∀ l ∈ lexemes (Buffer.held bytes), l.lexeme.Moderate path))

/-! ## Macros -/

/-- A literal that is respelled is not too long, with 20 digits at most. -/
theorem Hex.short_decimalText (digits : List Char) :
    Short (decimalText digits) := by
  refine Nat.le_trans (Numeral.utf8ByteSize_text_le ?_) (by decide)
  rw [Numeral.capped_eq_min _ _ _ (by decide)]
  exact Nat.min_le_left _ _

namespace Macros

/-- **No number is too long.** Macros are looked up for each word, so what
they stand for may become a token at any time. -/
def Short (m : Macros) : Prop :=
  ∀ name number, m.find? name = some number → Lexeme.Short number

variable {m : Macros} {name value : String}

/-- A definition keeps it so that no number is too long, if the one that it
brings in is not. -/
theorem Short.define (h : m.Short) (name : String)
    (hvalue : ∀ number ∈ replacement? value, Lexeme.Short number) :
    (m.define name value).2.Short := by
  unfold Macros.define
  split
  · exact h
  · split
    · next text htext =>
      intro other number hnumber
      rw [find?, Bindings.find?_insert] at hnumber
      split at hnumber
      · exact Option.some.inj hnumber ▸ hvalue text htext
      · exact h other number hnumber
    · exact h

end Macros

namespace Workspace

variable {u v w : Workspace} {file : FileId} {line : Nat} {lexeme : Lexeme}
variable {follow : String → Workspace → Workspace}

/-! ## Marks -/

/-- **A capped text is spelled as one**: it is kept, or replaced by a number
that is not too long. -/
theorem capped_spelling (h : w.macros.Short) (htext : Capped text) :
    Capped (w.spelling text) := by
  rw [spelling]
  split
  · next number hnumber => exact .inl (h _ _ hnumber)
  · cases hhex : Hex.toDecimal? text with
    | none => exact htext
    | some decimal =>
      obtain ⟨digits, -, rfl⟩ := Option.map_eq_some_iff.mp hhex
      exact .inl (Hex.short_decimalText digits)

/-- **Capped tokens put at the end**, and no number too long in the macro
table. Nothing is said of the tokens that were there before, so this is about
any session. -/
structure CappedAfter (v w : Workspace) : Prop where
  laid : w.chain.Laid w.chain.cells
  macros : w.macros.Short
  tokens : ∃ ts, w.chain.tokens = v.chain.tokens ++ ts
    ∧ ∀ t ∈ ts, Capped t.text

/-- Nothing put at the end is capped tokens put there. -/
theorem CappedAfter.refl (hlaid : v.chain.Laid v.chain.cells)
    (hmacros : v.macros.Short) : CappedAfter v v :=
  ⟨hlaid, hmacros, [], by simp, by simp⟩

/-- Capped tokens put at the end twice are put there. -/
theorem CappedAfter.trans (h : CappedAfter u v) (h' : CappedAfter v w) :
    CappedAfter u w := by
  obtain ⟨ts, hts, hcapped⟩ := h.tokens
  obtain ⟨ts', hts', hcapped'⟩ := h'.tokens
  refine ⟨h'.laid, h'.macros, ts ++ ts', ?_, ?_⟩
  · rw [hts', hts, List.append_assoc]
  · exact fun t ht => (List.mem_append.mp ht).elim (hcapped t) (hcapped' t)

/-- A moderate lexeme brings no number into the macro table that is too long. -/
theorem short_macros_mark (hmacros : w.macros.Short)
    (hmoderate : lexeme.Moderate path) (file : FileId) (line : Nat) :
    (w.mark file line lexeme).1.macros.Short := by
  rcases macros_mark_cases w file line lexeme with
    h | ⟨body, name, value, rfl, hof, h⟩
  · rw [h]
    exact hmacros
  · rw [h]
    have hnumber := hmoderate.2
    rw [hof] at hnumber
    exact hmacros.define name hnumber

/-- **The mark of a moderate lexeme is capped tokens**, in whatever workspace
it is left. -/
theorem cappedAfter_mark (hlaid : w.chain.Laid w.chain.cells)
    (hmacros : w.macros.Short) (hpath : w.files.path? file = some path)
    (hmade : lexeme.Made) (hmoderate : lexeme.Moderate path) (line : Nat) :
    CappedAfter w (w.mark file line lexeme).1 := by
  refine ⟨(marked_mark hlaid file line lexeme).laid,
    short_macros_mark hmacros hmoderate file line, _,
    tokens_mark hlaid hpath line lexeme, ?_⟩
  intro t ht
  obtain ⟨text, htext, rfl⟩ := List.mem_map.mp ht
  exact capped_spelling hmacros
    (hmade.capped hmoderate _ text (List.mem_filter.mp htext).1)

/-! ## Sources -/

/-- **Following adds capped tokens**, whichever path is followed. This is what
is known of the files that are included, while the one that includes them is
read. -/
def Caps (follow : String → Workspace → Workspace) : Prop :=
  ∀ path v, v.chain.Laid v.chain.cells → v.macros.Short →
    CappedAfter v (follow path v)

/-- Feeding a moderate lexeme adds capped tokens, those of a file that it
includes among them. -/
theorem Caps.feed (h : Caps follow) (hlaid : v.chain.Laid v.chain.cells)
    (hmacros : v.macros.Short) (hpath : v.files.path? file = some path)
    {l : Located} (hmade : l.lexeme.Made)
    (hmoderate : l.lexeme.Moderate path) :
    CappedAfter v (feed follow bytes file v l) := by
  have hmarked := cappedAfter_mark hlaid hmacros hpath hmade hmoderate
    (lineAt bytes l.start)
  refine hmarked.trans ?_
  show CappedAfter _ (readIncluded follow _
    (v.mark file (lineAt bytes l.start) l.lexeme).2)
  cases (v.mark file (lineAt bytes l.start) l.lexeme).2 with
  | none => exact .refl hmarked.laid hmarked.macros
  | some path => exact h path _ hmarked.laid hmarked.macros

/-- **Feeding moderate lexemes adds capped tokens**, one after another. The
path of the file stays its path, whatever files are added meanwhile. -/
theorem Caps.foldl_feed (h : Caps follow) (hgrows : Grows follow)
    (hlaid : v.chain.Laid v.chain.cells) (hmacros : v.macros.Short)
    (hpath : v.files.path? file = some path)
    (hfile : file.index < v.files.size) (bytes : List UInt8)
    {ls : List Located}
    (hls : ∀ l ∈ ls, l.lexeme.Made ∧ l.lexeme.Moderate path) :
    CappedAfter v (ls.foldl (Workspace.feed follow bytes file) v) := by
  induction ls generalizing v with
  | nil => exact .refl hlaid hmacros
  | cons l ls ih =>
    obtain ⟨hmade, hmoderate⟩ := hls l List.mem_cons_self
    have hfed : CappedAfter v (Workspace.feed follow bytes file v l) :=
      h.feed hlaid hmacros hpath hmade hmoderate
    have hgrown : Grown file.index v (Workspace.feed follow bytes file v l) :=
      hgrows.feedCut hlaid (Nat.le_refl _) hfile _ _
    exact hfed.trans (ih hfed.laid hfed.macros
      (FileTable.path?_of_prefix hgrown.paths hpath)
      (Nat.lt_of_lt_of_le hfile hgrown.size_le)
      fun k hk => hls k (List.mem_cons_of_mem l hk))

/-- A moderate source that is new is entered, and adds capped tokens. -/
theorem Caps.enter? (h : Caps follow) (hgrows : Grows follow)
    (hlaid : w.chain.Laid w.chain.cells) (hmacros : w.macros.Short)
    (hnew : w.files.find? path = none) (hmoderate : Moderate path bytes) :
    ∃ v, w.enter? follow bytes path = some v ∧ CappedAfter w v := by
  have hfed := h.foldl_feed (v := w.entered path) hgrows hlaid hmacros
    (w.files.path?_added path) (index_newFile_lt w path) (Buffer.held bytes)
    fun l hl => ⟨Lexeme.made_of_mem_lexemes hl, hmoderate l hl⟩
  exact ⟨_, enter?_of_find?_eq_none hnew follow bytes,
    ⟨hfed.laid, hfed.macros, hfed.tokens⟩⟩

/-- **Following an inclusion adds capped tokens**, if all sources are
moderate. The induction is on the room that is left for inclusions. -/
theorem caps_follow {sources : Sources}
    (hsources : ∀ path bytes, sources path = .ok bytes → Moderate path bytes)
    (room : Nat) : Caps (Workspace.follow sources room) := by
  induction room with
  | zero => exact fun path v hlaid hmacros => .refl hlaid hmacros
  | succ room ih =>
    intro path v hlaid hmacros
    rw [Workspace.follow]
    split
    · exact .refl hlaid hmacros
    · next hnew =>
      split
      · next bytes hbytes =>
        obtain ⟨x, hx, hcapped⟩ := ih.enter? (grows_follow sources room)
          hlaid hmacros hnew (hsources path bytes hbytes)
        rw [hx]
        exact hcapped
      · exact ⟨hlaid, hmacros, [], by simp, by simp⟩

/-- **Tokens are capped** that are read from moderate sources, with no number
too long in the macro table. The workspace may be any that is laid out, and
the sources whatever the program is given. -/
theorem enter?_capped {sources : Sources} (room : Nat)
    (hw : w.chain.Laid w.chain.cells) (hmacros : w.macros.Short)
    (hnew : w.files.find? path = none) (hbytes : Moderate path bytes)
    (hsources : ∀ path bytes, sources path = .ok bytes →
      Moderate path bytes) :
    ∃ v ts, w.enter? (Workspace.follow sources room) bytes path = some v
      ∧ v.chain.tokens = w.chain.tokens ++ ts ∧ ∀ t ∈ ts, Capped t.text := by
  obtain ⟨v, hv, hcapped⟩ := (caps_follow hsources room).enter?
    (grows_follow sources room) hw hmacros hnew hbytes
  obtain ⟨ts, hts, hall⟩ := hcapped.tokens
  exact ⟨v, ts, hv, hts, hall⟩

/-- A macro that is used in an included file, a comment that says what is
deleted, a string literal, and one that has no end. -/
theorem enter?_capped_of_source :
    let ascii : String → List UInt8 := fun s =>
      s.toList.map fun c => UInt8.ofNat c.toNat
    let bytes := ascii
      "#define N 0x10\n#include \x22b.h\x22\n// p is deleted\n\x22s\x22+\x22t"
    let sources : Sources := fun path =>
      if path = "b.h" then .ok (ascii "int a[N];") else .error .notFound
    ∃ v ts, empty.enter? (Workspace.follow sources maxDepth) bytes "a.c"
        = some v
      ∧ v.chain.tokens = empty.chain.tokens ++ ts
      ∧ ∀ t ∈ ts, Capped t.text := by
  intro ascii bytes sources
  have hsources : ∀ path bytes, sources path = .ok bytes →
      Moderate path bytes := by
    intro path bytes h
    dsimp only [sources] at h
    split at h
    · next hpath =>
      cases h
      rw [hpath]
      decide +kernel
    · cases h
  exact enter?_capped maxDepth TokenChain.laid_empty
    (fun _ _ h => by cases h) rfl (by decide +kernel) hsources

end Workspace

/-! ## A definition by itself -/

/-- **A definition without a value** is of a name as long as that may be:
nothing on the way through the line cuts it. -/
theorem Directive.ofLine_define {name : List Char} (hne : name ≠ [])
    (h : name.all Char.isAlphanum = true)
    (hblank : ∀ c ∈ name, Text.isBlank c = false) :
    ofLine (String.ofList ("define ".toList ++ name))
      = .definition (String.ofList name) none := by
  have hascii : ∀ c ∈ name, (!Text.isAsciiBlank c) = true := by
    intro c hc
    rw [Bool.not_eq_true', Bool.eq_false_iff]
    intro hc'
    exact Bool.false_ne_true
      ((hblank c hc).symm.trans (Text.isBlank_of_isAsciiBlank hc'))
  have hof : ofLine (String.ofList ("define ".toList ++ name))
      = definitionOf (' ' :: name) := by
    have htext : (String.ofList ("define ".toList ++ name)).toList
        = "define".toList ++ ' ' :: name := String.toList_ofList
    rw [ofLine, htext]
    rfl
  have hname : (' ' :: name).dropWhile Text.isBlank = name := by
    rw [List.dropWhile_cons_of_pos (by decide)]
    cases name with
    | nil => rfl
    | cons c cs =>
      exact List.dropWhile_cons_of_neg
        (Bool.eq_false_iff.mp (hblank c List.mem_cons_self))
  have hafter : name.dropWhile (fun c => !Text.isAsciiBlank c) = [] :=
    List.dropWhile_eq_nil_iff.mpr hascii
  have hword : name.takeWhile (fun c => !Text.isAsciiBlank c) = name :=
    List.takeWhile_eq_self_iff.mpr hascii
  rw [hof, definitionOf, hname, hafter, hword, h,
    List.isEmpty_eq_false_iff.mpr hne]
  rfl

/-- **A line that begins with `#`** is a directive, and nothing else, if the
source is this line. -/
theorem lexemes_of_hash (h : lineFeed ∉ rest)
    (hreturn : rest.getLast? ≠ some 0x0D) :
    lexemes (Lexeme.hash :: rest) = [⟨0, .directive (Utf8.decode rest)⟩] := by
  have hline : lineLength rest = rest.length := by
    rcases drop_lineLength rest with hnil | ⟨more, hmore⟩
    · exact Nat.le_antisymm (lineLength_le rest)
        (List.drop_eq_nil_iff.mp hnil)
    · have hmem : lineFeed ∈ rest.drop (lineLength rest) :=
        hmore ▸ List.mem_cons_self
      exact absurd (List.mem_of_mem_drop hmem) h
  have hfirst : Lexeme.first false Lexeme.hash rest
      = ⟨some (.directive (Utf8.decode rest)), rest.length + 1, 1⟩ := by
    rw [Lexeme.Cuts.first_eq (.directive rest), hline, List.take_length,
      Lexeme.dropReturn, if_neg hreturn]
  rw [lexemes, lexemesFrom_cut (by decide), hfirst,
    List.drop_of_length_le (Nat.le_succ _), lexemesFrom_nil]
  rfl

namespace Workspace

/-- **Tokens need not be capped.** The name of a definition is kept as it is,
whatever its length, and becomes a token between the two of its mark. -/
theorem not_capped :
    let ascii : String → List UInt8 := fun s =>
      s.toList.map fun c => UInt8.ofNat c.toNat
    let bytes := ascii "#define " ++ List.replicate 991 0x61
    ∃ v, empty.enter? (Workspace.follow (fun _ => .error .notFound) maxDepth)
        bytes "a.c" = some v
      ∧ ∃ t ∈ v.chain.tokens,
        t.text = String.ofList (List.replicate 991 'a') ∧ ¬ Capped t.text := by
  intro ascii bytes
  let letters := List.replicate 991 'a'
  let rest := ascii "define " ++ List.replicate 991 0x61
  -- a text of this length is too much to be evaluated
  have hrest : ∀ b ∈ rest, b < 0x80 ∧ b ≠ lineFeed := by
    intro b hb
    rcases List.mem_append.mp hb with hb | hb
    · revert b
      decide +kernel
    · rw [List.eq_of_mem_replicate hb]
      decide
  have hreturn : rest.getLast? ≠ some 0x0D := by
    rw [List.getLast?_append, List.getLast?_replicate, if_neg (by decide)]
    decide
  have hread : Utf8.decode rest
      = String.ofList ("define ".toList ++ letters) := by
    rw [Utf8.decode_ascii fun b hb => (hrest b hb).1, List.map_append,
      List.map_replicate]
    rfl
  have hlexemes : lexemes bytes
      = [⟨0, .directive (String.ofList ("define ".toList ++ letters))⟩] := by
    rw [← hread]
    exact lexemes_of_hash (fun h => (hrest _ h).2 rfl) hreturn
  have hof : Directive.ofLine (String.ofList ("define ".toList ++ letters))
      = .definition (String.ofList letters) none := by
    refine Directive.ofLine_define (List.cons_ne_nil _ _) ?_ fun c hc => ?_
    · exact List.all_replicate
    · rw [List.eq_of_mem_replicate hc]
      decide
  have hfeed : ∀ follow, (lexemes bytes).foldl
      (feed follow bytes empty.newFile) (empty.entered "a.c")
      = (empty.entered "a.c").appendAll empty.newFile 1
        ["def", String.ofList letters, ";"] := by
    intro follow
    rw [hlexemes, List.foldl_cons, feed, feedCut, markCut, mark, hof]
    rfl
  have hempty : (String.ofList letters).isEmpty = false := by
    rw [String.isEmpty_eq_false_iff]
    exact fun h => List.cons_ne_nil _ _ (String.ofList_eq_empty_iff.mp h)
  have hkept : (empty.entered "a.c").spelling (String.ofList letters)
      = String.ofList letters := by
    refine spelling_eq_iff.mpr (.inr ⟨rfl, ?_⟩)
    rw [Hex.toDecimal?, String.toList_ofList]
    rfl
  have hsize : (String.ofList letters).utf8ByteSize = 991 :=
    charsSize_replicate 991 'a'
  have hlength : bytes.length ≤ Buffer.capacity := by
    rw [List.length_append, List.length_replicate]
    decide +kernel
  refine ⟨_, enter?_of_length_le rfl _ hlength,
    ⟨String.ofList letters, 1, empty.newFile⟩, ?_, rfl, ?_⟩
  · rw [hfeed, tokens_appendAll (w := empty.entered "a.c")
      TokenChain.laid_empty]
    refine List.mem_append_right _ (List.mem_map.mpr
      ⟨String.ofList letters, List.mem_filter.mpr ⟨by simp, ?_⟩, ?_⟩)
    · rw [hempty]
      rfl
    · rw [hkept]
  · rintro (h | ⟨h, -⟩)
    · rw [Short, hsize] at h
      exact absurd h (by decide)
    · rw [String.toList_ofList] at h
      exact absurd (Option.some.inj h) (by decide)

end Workspace

end FlatC
