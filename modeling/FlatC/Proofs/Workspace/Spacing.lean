import FlatC.Proofs.Source.Spacing
import FlatC.Proofs.Workspace.Growth

/-!
# Reading undoes spacing out

A source that is nothing but lexemes with blanks between them is read into
just these, each as one token with its text, as long as no macro is defined
(`Workspace.enter?_spaced`). That is so before operators are fused and typedef
names are expanded, and it does not matter what is done with inclusions, as
there are none.

It is so only of what a buffer holds of the source. Blanks can be as many as
one likes, and a lexeme behind too many of them is not read at all. Nor is a
blank ever part of a word, printable as it is (`Workspace.not_spaced`).
-/

namespace FlatC.Workspace

variable {text : String} {texts : List String} {bytes : List UInt8}
variable {w : Workspace} {path : String}

/-- A lexeme that becomes a token leaves just that, and includes nothing. -/
theorem mark_of_token? {lexeme : Lexeme} (h : lexeme.token? = some text)
    (file : FileId) (line : Nat) (w : Workspace) :
    w.mark file line lexeme = (w.append file line text, none) := by
  cases lexeme with
  | word | symbol | character | string => cases h; rfl
  | directive | comment => cases h

/-- **A lexeme that leaves what it is spelled as** and nothing else: it
becomes a token, or it is a comment by which nothing is deleted. Directives
are not among these. -/
def Bare (lexeme : Lexeme) : Prop :=
  (∃ text, lexeme.spelled? = some text ∧ text ≠ "")
    ∨ ∃ text, lexeme = .comment text ∧ Comment.deleted? text = none

/-- **What such a lexeme leaves** is one token or none, with the file and no
matter which line, if there are no macros. -/
theorem tokens_feed (follow : String → Workspace → Workspace)
    (bytes : List UInt8) (file : FileId) {l : Located} (hl : Bare l.lexeme)
    (hw : w.chain.Laid w.chain.cells) (hmacros : w.macros = .empty) :
    (feed follow bytes file w l).chain.Laid
        (feed follow bytes file w l).chain.cells
      ∧ (feed follow bytes file w l).macros = .empty
      ∧ (feed follow bytes file w l).chain.tokens = w.chain.tokens
        ++ (l.lexeme.spelled?.map fun text =>
          ⟨text, lineAt bytes l.start, file⟩).toList := by
  rcases hl with ⟨text, hspelled, hne⟩ | ⟨text, hcomment, hdeleted⟩
  · obtain ⟨raw, hraw, rfl⟩ := Option.map_eq_some_iff.mp hspelled
    have hfeed : feed follow bytes file w l
        = w.append file (lineAt bytes l.start) raw := by
      rw [feed, feedCut, markCut, mark_of_token? hraw]
      rfl
    obtain ⟨hlaid, htokens⟩ := tokens_append hw file (lineAt bytes l.start) raw
    have hempty : raw.isEmpty = false := by
      refine Bool.eq_false_iff.mpr fun h => hne ?_
      rw [String.isEmpty_iff.mp h]
      decide
    rw [hempty, spelling, hmacros, Macros.find?_empty] at htokens
    rw [hfeed, hspelled]
    exact ⟨hlaid, (macros_append ..).trans hmacros, htokens⟩
  · have hfeed : feed follow bytes file w l = w := by
      rw [feed, feedCut, markCut, hcomment, mark, hdeleted]
      rfl
    rw [hfeed, hcomment]
    exact ⟨hw, hmacros, (List.append_nil _).symm⟩

/-- **One token for each lexeme that is spelled**, in order, with the number
of the file. The tokens that were there before come first. -/
theorem tokens_foldl_feed_of_bare (follow : String → Workspace → Workspace)
    (bytes : List UInt8) (file : FileId) {ls : List Located}
    (hls : ∀ l ∈ ls, Bare l.lexeme) (hw : w.chain.Laid w.chain.cells)
    (hmacros : w.macros = .empty) :
    ∃ ts, (ls.foldl (feed follow bytes file) w).chain.tokens
        = w.chain.tokens ++ ts
      ∧ ts.map Token.text = ls.filterMap (fun l => l.lexeme.spelled?)
      ∧ ∀ t ∈ ts, t.file = file := by
  induction ls generalizing w with
  | nil => exact ⟨[], by simp, rfl, by simp⟩
  | cons l ls ih =>
    obtain ⟨hlaid, hempty, htokens⟩ :=
      tokens_feed follow bytes file (hls l List.mem_cons_self) hw hmacros
    obtain ⟨ts, hts, hmap, hfile⟩ :=
      ih (fun k hk => hls k (List.mem_cons_of_mem l hk)) hlaid hempty
    rw [htokens, List.append_assoc] at hts
    refine ⟨_, hts, ?_, ?_⟩
    · rw [List.map_append, hmap, List.filterMap_cons]
      cases l.lexeme.spelled? <;> rfl
    · intro t ht
      rcases List.mem_append.mp ht with ht | ht
      · obtain ⟨text, -, rfl⟩ := Option.map_eq_some_iff.mp
          (Option.mem_toList.mp ht)
        rfl
      · exact hfile t ht

/-- **Lexemes that become texts which are lexemes** leave just these, as none
of the texts is respelled. -/
theorem bare_of_lexical {ls : List Located}
    (hls : ls.map (fun l => l.lexeme.token?) = texts.map some)
    (htexts : ∀ text ∈ texts, Lexical text) :
    (∀ l ∈ ls, Bare l.lexeme)
      ∧ ls.filterMap (fun l => l.lexeme.spelled?) = texts := by
  have hspelled : ls.map (fun l => l.lexeme.spelled?) = texts.map some := by
    have hmap := congrArg
      (List.map (Option.map fun text => (Hex.toDecimal? text).getD text)) hls
    rw [List.map_map, List.map_map] at hmap
    refine hmap.trans (List.map_congr_left fun text ht => ?_)
    show some ((Hex.toDecimal? text).getD text) = some text
    rw [(htexts text ht).toDecimal?_eq_none.2]
    rfl
  constructor
  · intro l hl
    have hmem := List.mem_map_of_mem (f := fun l => l.lexeme.spelled?) hl
    rw [hspelled] at hmem
    obtain ⟨text, ht, heq⟩ := List.mem_map.mp hmem
    exact .inl ⟨text, heq.symm, (htexts text ht).toDecimal?_eq_none.1⟩
  · have hfilter := congrArg (List.filterMap id) hspelled
    rw [List.filterMap_map, List.filterMap_map] at hfilter
    exact hfilter.trans List.filterMap_some

/-- **One token for each text**, in order, with the number of the file, if the
texts are lexemes. -/
theorem tokens_foldl_feed (follow : String → Workspace → Workspace)
    (bytes : List UInt8) (file : FileId) {ls : List Located}
    (hls : ls.map (fun l => l.lexeme.token?) = texts.map some)
    (htexts : ∀ text ∈ texts, Lexical text)
    (hw : w.chain.Laid w.chain.cells) (hmacros : w.macros = .empty) :
    ∃ ts, (ls.foldl (feed follow bytes file) w).chain.tokens
        = w.chain.tokens ++ ts
      ∧ ts.map Token.text = texts ∧ ∀ t ∈ ts, t.file = file := by
  obtain ⟨hbare, hspelled⟩ := bare_of_lexical hls htexts
  have htokens := tokens_foldl_feed_of_bare follow bytes file hbare hw hmacros
  rwa [hspelled] at htokens

/-- **What a buffer holds of a source**, if it is lexemes with blanks between
them, is put at the end of the chain as these. The source may be longer than
what is held. -/
theorem enter?_of_spaced_held (follow : String → Workspace → Workspace)
    (htexts : ∀ text ∈ texts, Lexical text)
    (hspaced : Spaced texts (Buffer.held bytes))
    (hw : w.chain.Laid w.chain.cells) (hmacros : w.macros = .empty)
    (hnew : w.files.find? path = none) :
    ∃ v ts, w.enter? follow bytes path = some v
      ∧ v.chain.tokens = w.chain.tokens ++ ts
      ∧ ts.map Token.text = texts ∧ ∀ t ∈ ts, t.file = w.newFile := by
  have hlexemes := hspaced.lexemesFrom htexts false 0
  obtain ⟨ts, hts, hmap, hfile⟩ :=
    tokens_foldl_feed (w := w.entered path) follow (Buffer.held bytes)
      w.newFile hlexemes htexts hw hmacros
  exact ⟨_, ts, enter?_of_find?_eq_none hnew follow bytes, hts, hmap, hfile⟩

/-- **Reading undoes spacing out**: lexemes with blanks between them, as many
as a buffer holds, read as a new file without macros, are put at the end of
the chain as they are. -/
theorem enter?_spaced (follow : String → Workspace → Workspace)
    (htexts : ∀ text ∈ texts, Lexical text) (hspaced : Spaced texts bytes)
    (hlength : bytes.length ≤ Buffer.capacity)
    (hw : w.chain.Laid w.chain.cells) (hmacros : w.macros = .empty)
    (hnew : w.files.find? path = none) :
    ∃ v ts, w.enter? follow bytes path = some v
      ∧ v.chain.tokens = w.chain.tokens ++ ts
      ∧ ts.map Token.text = texts ∧ ∀ t ∈ ts, t.file = w.newFile :=
  enter?_of_spaced_held follow htexts
    ((Buffer.held_of_le hlength).symm ▸ hspaced) hw hmacros hnew

/-- A word, a symbol that could begin a comment, a string literal that holds
one, a quote and a line feed, and two character literals. -/
theorem enter?_spaced_of_texts :
    let spaced : List (String × List UInt8) :=
      [("x#1", [0x20]), ("/", [0x0A]), ("\x22/*\\\x22\n#\x22", [0x09, 0x0D]),
        ("\x27\x27\x27", [0x20]), ("\x27\\n\x27", [0x0A])]
    let texts := spaced.map Prod.fst
    let bytes := spaced.flatMap fun p => Utf8.encode p.1 ++ p.2
    ∃ v ts, empty.enter? (Workspace.follow (fun _ => .error .notFound) maxDepth)
        bytes "a.c" = some v
      ∧ v.chain.tokens = empty.chain.tokens ++ ts
      ∧ ts.map Token.text = texts ∧ ∀ t ∈ ts, t.file = empty.newFile := by
  intro spaced texts bytes
  have htexts : ∀ text ∈ texts, Lexical text := by
    intro text ht
    simp only [texts, spaced, List.map_cons, List.map_nil, List.mem_cons,
      List.not_mem_nil, or_false] at ht
    rcases ht with rfl | rfl | rfl | rfl | rfl
    · exact .word (by decide) (by decide) (by decide) (by decide) (by decide)
        (by decide)
    · exact Lexical.symbol (c := '/') (by decide)
    · have hbody : Lexeme.closed false "/*\\\x22\n#".toList = true := by decide
      exact .string hbody (by decide)
    · exact Lexical.character (c := '\x27') (by decide) (by decide)
    · exact Lexical.escape (c := 'n') (by decide)
  exact enter?_spaced _ htexts (spaced_of_gaps (by decide)) (by decide +kernel)
    TokenChain.laid_empty rfl rfl

/-- What a buffer holds of a byte with too many blanks behind it is the byte
with blanks, and nothing of what comes then. -/
theorem held_blanks (b : UInt8) (more : List UInt8) :
    Buffer.held (b :: (List.replicate Buffer.capacity 0x20 ++ more))
      = b :: List.replicate (Buffer.capacity - 1) 0x20 := by
  have hcut : ∀ n, 0 < n →
      (b :: (List.replicate n 0x20 ++ more)).take n
        = b :: List.replicate (n - 1) 0x20 := by
    intro n hn
    obtain ⟨k, rfl⟩ := Nat.exists_eq_add_one_of_ne_zero (Nat.ne_of_gt hn)
    rw [List.take_succ_cons, List.take_append_of_le_length (by simp),
      List.take_replicate, Nat.min_eq_left (Nat.le_succ k),
      Nat.add_sub_cancel]
  exact hcut _ (by decide +kernel)

/-- **Reading need not undo spacing out.** Behind as many blanks as a buffer
has room for bytes, a name is not read any more; and where a blank is taken to
be part of a word, it ends the word all the same. -/
theorem not_spaced :
    let follow := Workspace.follow (fun _ => .error .notFound) maxDepth
    let gap := List.replicate Buffer.capacity 0x20
    let bytes := Utf8.encode ";" ++ gap ++ Utf8.encode "x"
    ((∀ text ∈ [";", "x"], Lexical text) ∧ Spaced [";", "x"] bytes
        ∧ ∃ v, empty.enter? follow bytes "a.c" = some v
          ∧ v.chain.tokens.map Token.text = [";"])
      ∧ ∃ v, empty.enter? follow (Utf8.encode "a b") "a.c" = some v
        ∧ v.chain.tokens.map Token.text = ["a", "b"] := by
  intro follow gap bytes
  have htexts : ∀ text ∈ [";", "x"], Lexical text := by
    simp only [List.forall_mem_cons, List.not_mem_nil, false_imp_iff,
      implies_true, and_true]
    exact ⟨Lexical.symbol (c := ';') (by decide),
      .word (by decide) (by decide) (by decide) (by decide) (by decide)
        (by decide)⟩
  have hgap : ∀ n, (List.replicate n (0x20 : UInt8)).all isGap = true :=
    fun n => List.all_eq_true.mpr fun b hb =>
      List.eq_of_mem_replicate hb ▸ by decide
  have hspaced : Spaced [";", "x"] bytes := by
    have hlast : Spaced ["x"] (Utf8.encode "x" ++ [] ++ []) :=
      .cons rfl (fun h => absurd rfl h) .nil
    rw [List.append_nil, List.append_nil] at hlast
    refine .cons (hgap _) (fun _ hnil => ?_) hlast
    have hzero := congrArg List.length hnil
    rw [List.length_replicate, List.length_nil] at hzero
    exact absurd hzero (by decide +kernel)
  have hheld : Spaced [";"] (Buffer.held bytes) := by
    have hsemicolon : Utf8.encode ";" = [0x3B] := by decide
    have hsingle : Spaced [";"] (Utf8.encode ";"
        ++ List.replicate (Buffer.capacity - 1) 0x20 ++ []) :=
      .cons (hgap _) (fun h => absurd rfl h) .nil
    rw [List.append_nil, hsemicolon] at hsingle
    have hbytes : bytes = 0x3B :: (gap ++ Utf8.encode "x") := by
      show Utf8.encode ";" ++ gap ++ Utf8.encode "x" = _
      rw [hsemicolon]
      rfl
    rw [hbytes, held_blanks]
    exact hsingle
  have hnew : empty.files.find? "a.c" = none := rfl
  obtain ⟨v, ts, hv, htokens, hmap, -⟩ := enter?_of_spaced_held follow
    (fun text ht => htexts text (List.mem_cons.mpr
      (.inl (List.mem_singleton.mp ht)))) hheld
    TokenChain.laid_empty rfl hnew
  refine ⟨⟨htexts, hspaced, v, hv, ?_⟩, _, enter?_of_length_le rfl follow
    (by decide +kernel), by decide +kernel⟩
  rw [htokens]
  exact hmap

end FlatC.Workspace
