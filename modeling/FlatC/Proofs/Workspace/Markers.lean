import FlatC.Proofs.Workspace.Lines
import FlatC.Proofs.Workspace.Marks

/-!
# Markers

A definition, an inclusion and a comment that says what is deleted leave
**markers**: statements for later passes to see, which stand in the source in
another form or not at all (`Workspace.Marker`). Each is put in the chain where
its lexeme is met, in front of the tokens of a file that is included there, and
of what a marker says nothing is left out (`Workspace.enter?_markers`).

A marker goes the way of all texts, though, and so it is spelled like the
source: it says what it is to say exactly if each of its texts is kept. The
name in a second definition of a macro is not: the first definition is in the
macro table by then, and its number takes the place of the name
(`Workspace.not_markers`).
-/

namespace FlatC

/-- The name of a definition is letters and digits, at least one. So it is a
text of its own in the marker, which is never left out. -/
theorem Directive.name_of_definition {line name : String}
    {value : Option String} (h : ofLine line = .definition name value) :
    name ≠ "" ∧ name.toList.all Char.isAlphanum = true := by
  have hof : ∀ cs, definitionOf cs = .definition name value →
      name ≠ "" ∧ name.toList.all Char.isAlphanum = true := by
    intro cs hcs
    unfold definitionOf at hcs
    dsimp only at hcs
    split at hcs
    · cases hcs
    · next hname =>
      rw [Bool.or_eq_true, not_or, Bool.not_eq_true', Bool.not_eq_false,
        List.isEmpty_iff] at hname
      cases hcs
      exact ⟨fun h => hname.1 (String.ofList_eq_empty_iff.mp h), by
        rw [String.toList_ofList]
        exact hname.2⟩
  unfold ofLine at h
  dsimp only at h
  split at h
  · split at h <;> cases h
  · split at h
    · split at h
      · exact hof _ h
      · cases h
    · cases h

namespace Workspace

variable {u w : Workspace} {bytes : List UInt8} {path : String}
variable {file : FileId} {follow : String → Workspace → Workspace}

/-- **The marker of a lexeme** that is met in a workspace, in a file with a
path: what it is to say, and the path of the file to be read behind it, if
any. There is one constructor for each kind of marker. -/
inductive Marker (path : String) (u : Workspace) :
    Lexeme → List String → Option String → Prop
  /-- A definition says what is defined. -/
  | definition {line name : String} {value : Option String} :
    Directive.ofLine line = .definition name value →
    Marker path u (.directive line) ["def", name, ";"] none
  /-- An inclusion says where the included file lies, if that can be said. -/
  | inclusion {line target : String} :
    Directive.ofLine line = .inclusion target →
    FileName.resolve path target ≠ "" →
    Marker path u (.directive line)
      ["#include", FileName.resolve path target]
      (some (FileName.resolve path target))
  /-- A comment says what is deleted, where a statement can begin. -/
  | deletion {text name : String} :
    Comment.deleted? text = some name → u.atStatementStart = true →
    Marker path u (.comment text) ["delete", name, ";"] none

namespace Marker

variable {lexeme : Lexeme} {texts : List String} {next : Option String}

/-- A marker is all of its lexeme's mark, so nothing else is left at its
place. -/
theorem texts_eq (h : Marker path u lexeme texts next) :
    lexeme.texts path u.atStatementStart = texts := by
  cases h with
  | definition hof => rw [Lexeme.texts, hof]; rfl
  | inclusion hof => rw [Lexeme.texts, hof]; rfl
  | deletion hdeleted hstarts => rw [Lexeme.texts, hdeleted, hstarts]; rfl

/-- No text of a marker is empty, so each of them becomes a token. A name has
a character at least, and a path that is empty makes no marker. -/
theorem ne_empty (h : Marker path u lexeme texts next) :
    ∀ text ∈ texts, text ≠ "" := by
  have hstatement : ∀ {first name : String}, first ≠ "" → name ≠ "" →
      ∀ text ∈ [first, name, ";"], text ≠ "" := by
    intro first name hfirst hname
    simp only [List.forall_mem_cons, List.not_mem_nil, false_imp_iff,
      implies_true, and_true]
    exact ⟨hfirst, hname, by decide⟩
  cases h with
  | definition hof =>
    exact hstatement (by decide) (Directive.name_of_definition hof).1
  | inclusion _ hne =>
    simp only [List.forall_mem_cons, List.not_mem_nil, false_imp_iff,
      implies_true, and_true]
    exact ⟨by decide, hne⟩
  | deletion hdeleted =>
    exact hstatement (by decide)
      (Comment.ne_empty_of_deleted?_eq_some hdeleted)

/-- **The tokens of a marker**, each with its text as that is spelled. This is
where a macro may replace what the marker is to say. -/
theorem tokens_mark (h : Marker path u lexeme texts next)
    (hu : u.chain.Laid u.chain.cells)
    (hpath : u.files.path? file = some path) (line : Nat) :
    (u.mark file line lexeme).1.chain.tokens = u.chain.tokens
      ++ texts.map fun text => ⟨u.spelling text, line, file⟩ := by
  rw [Workspace.tokens_mark hu hpath, h.texts_eq,
    List.filter_eq_self.mpr fun text ht => by
      rw [String.isEmpty_eq_false_iff.mpr (h.ne_empty text ht)]
      rfl]

/-- **What is read behind a marker** is the file that it names, if it is one
of an inclusion. -/
theorem snd_mark (h : Marker path u lexeme texts next)
    (hpath : u.files.path? file = some path) (line : Nat) :
    (u.mark file line lexeme).2 = next := by
  cases h with
  | @definition _ _ value hof =>
    rw [mark, hof]
    cases value <;> rfl
  | inclusion hof =>
    rw [mark, hof, carryOut, hpath]
    rfl
  | deletion hdeleted hstarts => rw [mark, hdeleted, hstarts]; rfl

end Marker

/-! ## A source read -/

/-- **A source read with its markers**, as a new file: what each of them
leaves where its lexeme is met, as it is spelled there, and what is read
behind it. -/
structure Markers (follow : String → Workspace → Workspace)
    (bytes : List UInt8) (path : String) (w v : Workspace) : Prop where
  /-- Where the lexeme of a marker is met, the marker is put in the chain, and
  behind it come the tokens of the file that is included, if one is, and of
  what comes later. The marker says what it is to say exactly if each of its
  texts is kept. -/
  marker : ∀ {before after : List Located} {l : Located},
    lexemes bytes = before ++ l :: after →
    let u := before.foldl (feed follow bytes w.newFile) (w.entered path)
    ∀ {texts : List String} {next : Option String},
      Marker path u l.lexeme texts next →
      ∃ own included more : List Token,
        (feed follow bytes w.newFile u l).chain.tokens
            = u.chain.tokens ++ own ++ included
          ∧ v.chain.tokens = u.chain.tokens ++ own ++ included ++ more
          ∧ (∀ t ∈ own, t.file = w.newFile ∧ t.line = lineAt bytes l.start)
          ∧ (∀ t ∈ included, w.newFile.index < t.file.index)
          ∧ (next = none → included = [])
          ∧ (own.map Token.text = texts
            ↔ ∀ text ∈ texts, u.spelling text = text)

/-- **Markers are put in the chain** of every source that is read as a new
file, as far as a buffer holds it, whatever it includes. That they say what
they are to say needs that no macro is in their way. -/
theorem enter?_markers (sources : Sources) (room : Nat)
    (hw : w.chain.Laid w.chain.cells) (hnew : w.files.find? path = none) :
    ∃ v, w.enter? (Workspace.follow sources room) bytes path = some v
      ∧ Markers (Workspace.follow sources room) (Buffer.held bytes) path w
        v := by
  have hgrows := grows_follow sources room
  generalize Workspace.follow sources room = follow at hgrows ⊢
  have hlt := index_newFile_lt w path
  have hread := enter?_of_find?_eq_none hnew follow bytes
  generalize Buffer.held bytes = held at hread ⊢
  refine ⟨_, hread, ⟨?_⟩⟩
  intro before after l hsplit u texts next hmarker
  have hmet : Grown w.newFile.index (w.entered path) u :=
    hgrows.foldl_feed (v := w.entered path) hw (Nat.le_refl _) hlt held before
  have hpath : u.files.path? w.newFile = some path :=
    FileTable.path?_of_prefix hmet.paths (w.files.path?_added path)
  have hsize := Nat.lt_of_lt_of_le hlt hmet.size_le
  have hown := hmarker.tokens_mark hmet.laid hpath (lineAt held l.start)
  have hnext := hmarker.snd_mark hpath (lineAt held l.start)
  -- behind the mark comes what is included, and it is of later files
  have hincluded := hgrows.readIncluded
    (marked_mark hmet.laid w.newFile (lineAt held l.start) l.lexeme).laid next
  rw [files_mark] at hincluded
  have hfeed : feed follow held w.newFile u l
      = readIncluded follow
        (u.mark w.newFile (lineAt held l.start) l.lexeme).1 next := by
    rw [← hnext]
    rfl
  rw [← hfeed] at hincluded
  obtain ⟨included, htokens, hlater⟩ := hincluded.tokens
  rw [hown] at htokens
  have hfed := hincluded.size_le
  rw [files_mark] at hfed
  obtain ⟨more, hmore, -⟩ := (hgrows.foldl_feed hincluded.laid (Nat.le_refl _)
    (Nat.lt_of_lt_of_le hsize hfed) held after).tokens
  refine ⟨_, included, more, htokens, ?_, ?_, ?_, ?_, ?_⟩
  · rw [hsplit, List.foldl_append, List.foldl_cons, ← htokens]
    exact hmore
  · intro t ht
    obtain ⟨text, -, rfl⟩ := List.mem_map.mp ht
    exact ⟨rfl, rfl⟩
  · exact fun t ht => Nat.lt_of_lt_of_le hsize (hlater t ht)
  · rintro rfl
    rw [hfeed, readIncluded, hown] at htokens
    exact List.self_eq_append_right.mp htokens
  · have hkept := List.map_inj_left (l := texts) (f := u.spelling) (g := id)
    rw [List.map_id] at hkept
    rw [List.map_map]
    exact hkept

/-- A source with a marker of each kind, in a directory, where the included
file uses the macro. -/
theorem enter?_markers_of_source :
    let ascii : String → List UInt8 := fun s =>
      s.toList.map fun c => UInt8.ofNat c.toNat
    let bytes := ascii
      "#define N 1\n#include \x22b.h\x22\n// p is deleted\nint x;"
    let sources : Sources := fun path =>
      if path = "d/b.h" then .ok (ascii "int y[N];") else .error .notFound
    ∃ v, empty.enter? (Workspace.follow sources maxDepth) bytes "d/a.c"
        = some v
      ∧ v.chain.tokens.map Token.text = ["def", "N", ";", "#include",
        "d/b.h", "int", "y", "[", "1", "]", ";", "delete", "p", ";", "int",
        "x", ";"]
      ∧ Markers (Workspace.follow sources maxDepth) bytes "d/a.c" empty v := by
  intro ascii bytes sources
  have hnew : empty.files.find? "d/a.c" = none := rfl
  have hlength : bytes.length ≤ Buffer.capacity := by decide +kernel
  have hread := enter?_of_length_le hnew
    (Workspace.follow sources maxDepth) hlength
  obtain ⟨v, hv, hmarkers⟩ : ∃ v,
      empty.enter? (Workspace.follow sources maxDepth) bytes "d/a.c" = some v
        ∧ Markers (Workspace.follow sources maxDepth) (Buffer.held bytes)
          "d/a.c" empty v :=
    enter?_markers sources maxDepth TokenChain.laid_empty hnew
  rw [Buffer.held_of_le hlength] at hmarkers
  refine ⟨v, hv, ?_, hmarkers⟩
  rw [← Option.some.inj (hread.symm.trans hv)]
  decide +kernel

/-- **A marker need not say what it is to say.** The second of two definitions
of `N` leaves `def 1 ;`, as the first has put `N` in the macro table. -/
theorem not_markers :
    let ascii : String → List UInt8 := fun s =>
      s.toList.map fun c => UInt8.ofNat c.toNat
    let bytes := ascii "#define N 1\n#define N 2\n"
    let first : Located := ⟨0, .directive "define N 1"⟩
    let second : Located := ⟨12, .directive "define N 2"⟩
    let follow := Workspace.follow (fun _ => .error .notFound) maxDepth
    let u := feed follow bytes empty.newFile (empty.entered "a.c") first
    lexemes bytes = [first, second]
      ∧ Marker "a.c" u second.lexeme ["def", "N", ";"] none
      ∧ ∃ v, empty.enter? follow bytes "a.c" = some v
        ∧ ¬ ∃ own more : List Token,
          v.chain.tokens = u.chain.tokens ++ own ++ more
            ∧ own.map Token.text = ["def", "N", ";"] := by
  intro ascii bytes first second follow u
  refine ⟨by decide +kernel, ?_, _,
    enter?_of_length_le rfl follow (by decide +kernel), ?_⟩
  · have hof : Directive.ofLine "define N 2" = .definition "N" (some "2") := by
      decide +kernel
    exact .definition hof
  · rintro ⟨own, more, htokens, hown⟩
    have htexts := congrArg (List.map Token.text) htokens
    have hread : ((lexemes bytes).foldl (feed follow bytes empty.newFile)
        (empty.entered "a.c")).chain.tokens.map Token.text
        = ["def", "N", ";", "def", "1", ";"] := by
      decide +kernel
    have hmet : u.chain.tokens.map Token.text = ["def", "N", ";"] := by
      decide +kernel
    rw [hread, List.map_append, List.map_append, hown, hmet] at htexts
    simp at htexts

end Workspace

end FlatC
