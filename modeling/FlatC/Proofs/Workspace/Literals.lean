import FlatC.Proofs.Source.Plain
import FlatC.Proofs.Source.Quotes
import FlatC.Proofs.Workspace.Markers

/-!
# String literals

A string literal in a source becomes one token, in place of the literal
(`Workspace.Literals`). Its text stands between quotes, and each quote in it is
escaped. So it is a string literal again as long as its closing quote is not
escaped.

That it can be escaped is due to the cap on the length of a literal. What is
kept of the body may end with a backslash of which the byte it escapes is
dropped, and then the closing quote that is put behind it is what it escapes
(`Workspace.not_literals`). The literals to which this happens are told by
their bytes (`Lexeme.IsCut`).

A text goes into the chain as it is spelled, and a macro could have a string
literal for its name if it were given one from outside. No source gives it
such a name: the names that sources define are letters and digits
(`Macros.Unquoted`).
-/

namespace FlatC

open Lexeme (doubleQuote backslash)

variable {bytes more : List UInt8} {body rest : List UInt8} {text : String}

/-! ## Lexemes -/

/-- **The text of a string literal** is that of the body between its quotes.
Where the body ends is told by the bytes, so there is one body for each
literal. -/
theorem Lexeme.text_of_mem_lexemes {l : Located} (h : l ∈ lexemes bytes)
    (htext : l.lexeme = .string text)
    (hbytes : bytes.drop l.start = doubleQuote :: body ++ doubleQuote :: more)
    (hbody : IsBody doubleQuote backslash body) : text = stringText body := by
  have hcut := (of_mem_lexemesFrom (P := fun lexeme bytes => ∀ text,
    lexeme = .string text → ∃ rest, bytes = doubleQuote :: rest
      ∧ text = stringText (rest.take (bodyLength false rest)))
    (fun _ _ _ _ h => by cases h) ?_ h).2
  · obtain ⟨rest, hrest, rfl⟩ := hcut text htext
    rw [Nat.sub_zero, hbytes, List.cons_append] at hrest
    obtain ⟨-, rfl⟩ := List.cons.inj hrest
    rw [bodyLength_of_isBody hbody, List.take_left]
  · intro glued b rest lexeme hlexeme text htext
    subst htext
    generalize hcut : first glued b rest = cut at hlexeme
    have hcuts := hcut ▸ cuts_first glued b rest
    cases hcuts with
    | string => cases hlexeme; exact ⟨rest, rfl, rfl⟩
    | comment =>
      dsimp only at hlexeme
      split at hlexeme <;> cases hlexeme
    | directive | character | division | symbol => cases hlexeme
    | newline | block | nothing => cases hlexeme

/-! ## Macros -/

namespace Macros

/-- **No macro is named by a text that begins with a quote.** Texts of
literals are looked up like any other, and this is why none of them is
replaced. -/
def Unquoted (m : Macros) : Prop :=
  ∀ name, name.toList.head? = some '\x22' → m.find? name = none

variable {m : Macros} {name : String}

/-- With no macros there is none named so. -/
theorem unquoted_empty : Unquoted .empty := fun name _ => find?_empty name

/-- A definition of a name made of letters and digits keeps it so, whether or
not it is taken in. -/
theorem Unquoted.define (h : m.Unquoted)
    (hname : name.toList.all Char.isAlphanum = true) (value : String) :
    (m.define name value).2.Unquoted := by
  unfold Macros.define
  split
  · exact h
  · split
    · next number hnumber =>
      intro other hother
      rw [find?, Bindings.find?_insert]
      split
      · next heq =>
        subst heq
        have := List.all_eq_true.mp hname _ (List.mem_of_head? hother)
        cases this
      · exact h other hother
    · exact h

end Macros

namespace Workspace

variable {v w : Workspace} {file : FileId} {path : String}
variable {follow : String → Workspace → Workspace}

/-- A mark keeps it so, as a directive defines no other names. -/
theorem unquoted_mark (h : w.macros.Unquoted) (file : FileId) (line : Nat)
    (lexeme : Lexeme) : (w.mark file line lexeme).1.macros.Unquoted := by
  rcases macros_mark_cases w file line lexeme with
    hmacros | ⟨body, name, value, -, hof, hmacros⟩
  · rw [hmacros]
    exact h
  · rw [hmacros]
    exact h.define (Directive.name_of_definition hof).2 value

/-- **Following defines no macro named by a text that begins with a quote**,
in any workspace in which there is none. -/
def KeepsUnquoted (follow : String → Workspace → Workspace) : Prop :=
  ∀ path v, v.macros.Unquoted → (follow path v).macros.Unquoted

/-- Feeding lexemes defines none, nor do the files that are included. -/
theorem KeepsUnquoted.foldl_feed (h : KeepsUnquoted follow)
    (hmacros : v.macros.Unquoted) (bytes : List UInt8) (file : FileId)
    (ls : List Located) :
    (ls.foldl (feed follow bytes file) v).macros.Unquoted := by
  induction ls generalizing v with
  | nil => exact hmacros
  | cons l ls ih =>
    have hmarked := unquoted_mark hmacros file (lineAt bytes l.start) l.lexeme
    refine ih ?_
    show (readIncluded follow _
      (v.mark file (lineAt bytes l.start) l.lexeme).2).macros.Unquoted
    cases (v.mark file (lineAt bytes l.start) l.lexeme).2 with
    | none => exact hmarked
    | some path => exact h path _ hmarked

/-- Following an inclusion defines none, however much room is left. -/
theorem keepsUnquoted_follow (sources : Sources) (room : Nat) :
    KeepsUnquoted (Workspace.follow sources room) := by
  induction room with
  | zero => exact fun path v hmacros => hmacros
  | succ room ih =>
    intro path v hmacros
    rw [Workspace.follow]
    split
    · exact hmacros
    · next hnew =>
      split
      · next bytes hbytes =>
        rw [enter?_of_find?_eq_none hnew]
        exact ih.foldl_feed (v := v.entered path) hmacros _ _ _
      · exact hmacros

/-! ## A source read -/

/-- **A source read with its string literals**, as a new file: what each of
them leaves where it is met, and that it stays what it is until the end. -/
structure Literals (follow : String → Workspace → Workspace)
    (bytes : List UInt8) (path : String) (w v : Workspace) : Prop where
  /-- Where a string literal is met, one token is put in the chain, which is
  what the literal is cut to. -/
  token : ∀ {before after : List Located} {l : Located} {text : String}
    {body more : List UInt8},
    lexemes bytes = before ++ l :: after → l.lexeme = .string text →
    bytes.drop l.start = doubleQuote :: body ++ doubleQuote :: more →
    IsBody doubleQuote backslash body →
    let u := before.foldl (feed follow bytes w.newFile) (w.entered path)
    ∃ (t : Token) (later : List Token),
      (feed follow bytes w.newFile u l).chain.tokens = u.chain.tokens ++ [t]
        ∧ v.chain.tokens = u.chain.tokens ++ t :: later
        ∧ t.file = w.newFile ∧ t.line = lineAt bytes l.start
        ∧ Lexeme.IsCut body t.text
  /-- Still no macro is named by a text that begins with a quote. -/
  macros : v.macros.Unquoted

/-- **The token of a string literal** is spelled like the literal, as far as
it is kept, and has the line on which the literal begins. -/
theorem feed_string (follow : String → Workspace → Workspace)
    (bytes : List UInt8) (file : FileId) (hlaid : v.chain.Laid v.chain.cells)
    (hmacros : v.macros.Unquoted) (start : Nat) (body : List UInt8) :
    let u := feed follow bytes file v ⟨start, .string (Lexeme.stringText body)⟩
    u.chain.Laid u.chain.cells ∧ u.files = v.files
      ∧ u.chain.tokens = v.chain.tokens
        ++ [⟨Lexeme.stringText body, lineAt bytes start, file⟩] := by
  have hchars := Lexeme.toList_stringText body
  have hkept : v.spelling (Lexeme.stringText body)
      = Lexeme.stringText body := by
    refine spelling_eq_iff.mpr (.inr ⟨hmacros _ (by rw [hchars]; rfl), ?_⟩)
    rw [Hex.toDecimal?, hchars]
    rfl
  have hempty : (Lexeme.stringText body).isEmpty = false := by
    rw [String.isEmpty_eq_false_iff]
    intro h
    rw [h] at hchars
    cases hchars
  obtain ⟨hlaid, htokens⟩ := tokens_append hlaid file (lineAt bytes start)
    (Lexeme.stringText body)
  rw [hempty, if_neg Bool.false_ne_true, hkept] at htokens
  exact ⟨hlaid, files_append _ _ _ _, htokens⟩

/-- **String literals become tokens** between quotes, in every source that is
read as a new file, as far as a buffer holds it, whatever it includes. -/
theorem enter?_literals (sources : Sources) (room : Nat)
    (hw : w.chain.Laid w.chain.cells) (hmacros : w.macros.Unquoted)
    (hnew : w.files.find? path = none) :
    ∃ v, w.enter? (Workspace.follow sources room) bytes path = some v
      ∧ Literals (Workspace.follow sources room) (Buffer.held bytes) path w
        v := by
  have hgrows := grows_follow sources room
  have hkeeps := keepsUnquoted_follow sources room
  generalize Workspace.follow sources room = follow at hgrows hkeeps ⊢
  have hlt := index_newFile_lt w path
  have hread := enter?_of_find?_eq_none hnew follow bytes
  generalize Buffer.held bytes = held at hread ⊢
  refine ⟨_, hread, ⟨?_,
    hkeeps.foldl_feed (v := w.entered path) hmacros held _ _⟩⟩
  rintro before after ⟨start, lexeme⟩ text body more hsplit rfl hbytes hbody u
  have hmet : Grown w.newFile.index (w.entered path) u :=
    hgrows.foldl_feed (v := w.entered path) hw (Nat.le_refl _) hlt held before
  have hunquoted : u.macros.Unquoted :=
    hkeeps.foldl_feed (v := w.entered path) hmacros held _ before
  obtain rfl : text = Lexeme.stringText body :=
    Lexeme.text_of_mem_lexemes (hsplit ▸ by simp) rfl hbytes hbody
  obtain ⟨hlaid, hfiles, htokens⟩ :=
    feed_string follow held w.newFile hmet.laid hunquoted start body
  obtain ⟨later, hlater, -⟩ := (hgrows.foldl_feed hlaid (Nat.le_refl _)
    (hfiles ▸ Nat.lt_of_lt_of_le hlt hmet.size_le) held after).tokens
  refine ⟨_, later, htokens, ?_, rfl, rfl, Lexeme.isCut_stringText hbody⟩
  rw [hsplit, List.foldl_append, List.foldl_cons]
  exact hlater.trans (by rw [htokens, List.append_assoc]; rfl)

/-- A literal with quotes and backslashes that are escaped, one in a file that
is included, and one that has no end. -/
theorem enter?_literals_of_source :
    let ascii : String → List UInt8 := fun s =>
      s.toList.map fun c => UInt8.ofNat c.toNat
    let bytes := ascii
      "#include \x22b.h\x22\nf(\x22a\\\x22b\\\\\x22, \x22\x22);\x22c\\\x22"
    let sources : Sources := fun path =>
      if path = "b.h" then .ok (ascii "g(\x22;\x22);") else .error .notFound
    ∃ v, empty.enter? (Workspace.follow sources maxDepth) bytes "a.c" = some v
      ∧ v.chain.tokens.map Token.text = ["#include", "b.h", "g", "(",
        "\x22;\x22", ")", ";", "f", "(", "\x22a\\\x22b\\\\\x22", ",",
        "\x22\x22", ")", ";", "\x22c\\\x22\x22"]
      ∧ Literals (Workspace.follow sources maxDepth) bytes "a.c" empty v := by
  intro ascii bytes sources
  have hnew : empty.files.find? "a.c" = none := rfl
  have hlength : bytes.length ≤ Buffer.capacity := by decide +kernel
  have hread := enter?_of_length_le hnew
    (Workspace.follow sources maxDepth) hlength
  obtain ⟨v, hv, hliterals⟩ : ∃ v,
      empty.enter? (Workspace.follow sources maxDepth) bytes "a.c" = some v
        ∧ Literals (Workspace.follow sources maxDepth) (Buffer.held bytes)
          "a.c" empty v :=
    enter?_literals sources maxDepth TokenChain.laid_empty
      Macros.unquoted_empty hnew
  rw [Buffer.held_of_le hlength] at hliterals
  refine ⟨v, hv, ?_, hliterals⟩
  rw [← Option.some.inj (hread.symm.trans hv)]
  decide +kernel

/-- **A source that is one string literal** has one lexeme, the literal at the
first place. -/
theorem lexemes_of_isBody (h : IsBody doubleQuote backslash body) :
    lexemes (doubleQuote :: body ++ [doubleQuote])
      = [⟨0, .string (Lexeme.stringText body)⟩] := by
  have hfirst : Lexeme.first false doubleQuote (body ++ [doubleQuote])
      = ⟨some (.string (Lexeme.stringText body)), body.length + 1,
        ((body ++ [doubleQuote]).take (body.length + 1)).count lineFeed⟩ := by
    rw [Lexeme.Cuts.first_eq (.string _), Lexeme.bodyLength_of_isBody h,
      List.take_left]
  rw [lexemes, List.cons_append, lexemesFrom_cut (by decide), hfirst,
    List.drop_of_length_le (by simp), lexemesFrom_nil]
  rfl

/-- **The closing quote may be escaped.** Of a body of 988 letters and `\n`
the letters and the backslash are kept. -/
theorem not_literals :
    let letters := List.replicate 988 0x61
    let body := letters ++ [backslash, 0x6E]
    let bytes := doubleQuote :: body ++ [doubleQuote]
    let text := String.ofList
      ('\x22' :: List.replicate 988 'a' ++ ['\\', '\x22'])
    IsLiteral doubleQuote backslash bytes
      ∧ (∃ v, empty.enter? (Workspace.follow (fun _ => .error .notFound)
          maxDepth) bytes "a.c" = some v
        ∧ v.chain.tokens = [⟨text, 1, empty.newFile⟩])
      ∧ ¬ IsLiteral '\x22' '\\' text.toList := by
  intro letters body bytes text
  have hletters : ∀ b ∈ letters, b = 0x61 := fun b hb =>
    List.eq_of_mem_replicate hb
  have hsplit : body = letters ++ [backslash] ++ [0x6E] :=
    (List.append_assoc letters [backslash] [0x6E]).symm
  have hbody : IsBody doubleQuote backslash body := by
    refine ⟨fun before after heq => ?_, ?_⟩
    · have hmem : doubleQuote ∈ body := heq ▸ by simp
      rcases List.mem_append.mp hmem with hmem | hmem
      · exact absurd (hletters _ hmem) (by decide)
      · exact absurd hmem (by decide)
    · rw [hsplit, escapes_concat]
      exact fun h => absurd h.1 (by decide)
  -- what is kept of the body, by its bytes and as it is read
  have hkept : body.take (Lexeme.maxLength - 1) = letters ++ [backslash] := by
    rw [hsplit]
    exact List.take_left' (by
      rw [List.length_append, List.length_replicate]
      rfl)
  have hread : Utf8.decodeFrom none (letters ++ [backslash])
      = List.replicate 988 'a' ++ ['\\'] := by
    have hascii : Utf8.decode (letters ++ [backslash]) = _ :=
      Utf8.decode_ascii fun b hb => by
        rcases List.mem_append.mp hb with hb | hb
        · rw [hletters b hb]
          decide
        · rw [List.mem_singleton.mp hb]
          decide
    have hchars := String.ofList_injective hascii
    rw [hchars, List.map_append, List.map_replicate]
    rfl
  have htext : Lexeme.stringText body = text := by
    apply String.toList_injective
    rw [Lexeme.toList_stringText, hkept, hread, String.toList_ofList]
    exact congrArg ('\x22' :: ·) (List.append_assoc _ _ _)
  have hescapes : Escapes backslash (letters ++ [backslash]) := by
    refine escapes_concat.mpr ⟨rfl, ?_⟩
    have hne : letters ≠ [] := List.cons_ne_nil _ _
    rw [escapes_iff, foldl_escapeStep_of_ne hne]
    · exact Bool.false_ne_true
    · intro b hb
      rw [hletters b hb]
      decide
  have hlength : bytes.length ≤ Buffer.capacity := by
    rw [List.length_append, List.length_cons, List.length_append,
      List.length_replicate]
    decide +kernel
  refine ⟨⟨body, rfl, hbody⟩, ⟨_, enter?_of_length_le rfl _ hlength, ?_⟩, ?_⟩
  · have hlexemes : lexemes bytes = _ := lexemes_of_isBody hbody
    obtain ⟨-, -, htokens⟩ := feed_string
      (Workspace.follow (fun _ => .error .notFound) maxDepth) bytes
      empty.newFile (v := empty.entered "a.c") TokenChain.laid_empty
      Macros.unquoted_empty 0 body
    rw [hlexemes, List.foldl_cons, List.foldl_nil, htokens, htext]
    rfl
  · rw [← htext, (Lexeme.isCut_stringText hbody).isLiteral_iff, hkept]
    exact not_not.mpr hescapes

end Workspace

end FlatC
