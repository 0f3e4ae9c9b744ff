import Mathlib.Data.List.SplitBy
import FlatC.Proofs.Text.Numeral
import FlatC.Text.Lead
import FlatC.Workspace.Listing

/-!
# Listings by place

A listing by place has a line for each **run** of tokens from one line of one
file (`Token.Runs`). The runs are as long as they can be: two that come next
to one another differ in their place, and a place that is come back to has
another run. There is exactly one way to put tokens into runs.

The listing itself knows of no runs. It goes from token to token, remembers
the one before, and ends a line where the place changes. So a run is read off
it in three parts: how the line begins, the texts that come after the first
one (`join_listing_append`), and the end of the line
(`listing_of_differs`). What the lines hold behind their places is all that
the tokens on one line are, provided no line is ended within a text or a path
(`listed_by_runs`).
-/

namespace FlatC

/-! ## Lines of a text -/

/-- **The lines of a text**, each of which a line feed ends. What is behind
the last line feed is no line. -/
def Text.lines (text : String) : List String :=
  ((text.toList.splitOn '\n').dropLast).map String.ofList

/-- Lines that hold no line feed are the lines of the text they make up, in
order and empty ones included. -/
theorem Text.lines_join {ls : List String}
    (h : ∀ l ∈ ls, '\n' ∉ l.toList) :
    Text.lines (String.join (ls.map fun l => l ++ "\n")) = ls := by
  have hsplit : (String.join (ls.map fun l => l ++ "\n")).toList.splitOn '\n'
      = ls.map String.toList ++ [[]] := by
    induction ls with
    | nil => rfl
    | cons l ls ih =>
      obtain ⟨hl, hls⟩ := List.forall_mem_cons.mp h
      have hfeed : "\n".toList = ['\n'] := rfl
      have hcut : ∀ more, (l.toList ++ '\n' :: more).splitOn '\n'
          = l.toList.splitOn '\n' ++ more.splitOn '\n' :=
        fun more => List.splitOnP_append_cons _ _ rfl
      rw [List.map_cons, String.join_cons, String.toList_append,
        String.toList_append, hfeed, List.append_assoc, List.singleton_append,
        hcut, List.splitOn_eq_singleton hl, ih hls]
      rfl
  have hid : String.ofList ∘ String.toList = id :=
    funext fun _ => String.ofList_toList
  rw [Text.lines, hsplit, List.dropLast_concat, List.map_map, hid, List.map_id]

/-- Texts with spaces between them hold no character that none of them holds,
but for the space. -/
theorem Text.notMem_intercalate {c : Char} {texts : List String}
    (hc : c ≠ ' ') (h : ∀ text ∈ texts, c ∉ text.toList) :
    c ∉ (" ".intercalate texts).toList := by
  induction texts with
  | nil => simp
  | cons text texts ih =>
    obtain ⟨htext, htexts⟩ := List.forall_mem_cons.mp h
    cases texts with
    | nil => rwa [String.intercalate_singleton]
    | cons next texts =>
      have hspace : " ".toList = [' '] := rfl
      rw [String.intercalate_cons_cons, String.toList_append,
        String.toList_append, List.mem_append, List.mem_append, hspace,
        List.mem_singleton]
      rintro ((hmem | hmem) | hmem)
      · exact htext hmem
      · exact hc hmem
      · exact ih htexts hmem

/-! ## Runs -/

namespace Token

variable {a b c : Token} {ts : List Token} {runs : List (List Token)}

/-- Two tokens are from the same place if their files and their lines are the
same. -/
theorem samePlace_iff :
    a.samePlace b = true ↔ a.file = b.file ∧ a.line = b.line := by
  rw [samePlace, Bool.and_eq_true, beq_iff_eq, beq_iff_eq]

/-- Every token is from its own line. -/
theorem samePlace_refl (a : Token) : a.samePlace a = true :=
  samePlace_iff.mpr ⟨rfl, rfl⟩

/-- Of two tokens from one line, one is from the line of a third exactly if
the other is. So it does not matter which token of a line is remembered. -/
theorem samePlace_congr (h : a.samePlace b = true) (c : Token) :
    a.samePlace c = b.samePlace c := by
  obtain ⟨hfile, hline⟩ := samePlace_iff.mp h
  rw [samePlace, samePlace, hfile, hline]

/-- **Tokens put into runs**, each from one line of one file and as long as it
can be. As long means that two runs in a row are not from the same line; a
line that is come back to later makes another run. -/
structure Runs (ts : List Token) (runs : List (List Token)) : Prop where
  flatten : runs.flatten = ts
  ne_nil : ∀ run ∈ runs, run ≠ []
  same : ∀ run ∈ runs, ∀ a ∈ run, ∀ b ∈ run,
    a.file = b.file ∧ a.line = b.line
  maximal : runs.IsChain fun run next =>
    ∀ a ∈ run, ∀ b ∈ next, ¬ (a.file = b.file ∧ a.line = b.line)

/-- Where each token is from the line of the one before it, all are from one
line. A run is found by looking at neighbours only. -/
theorem samePlace_of_isChain
    (h : ts.IsChain fun a b => a.samePlace b = true) :
    ∀ a ∈ ts, ∀ b ∈ ts, a.samePlace b = true := by
  induction ts with
  | nil => exact fun _ ha => nomatch ha
  | cons t ts ih =>
    obtain ⟨hhead, hts⟩ := List.isChain_cons.mp h
    have hfirst : ∀ b ∈ t :: ts, t.samePlace b = true := by
      refine List.forall_mem_cons.mpr ⟨samePlace_refl t, fun b hb => ?_⟩
      cases ts with
      | nil => cases hb
      | cons u ts =>
        rw [samePlace_congr (hhead u rfl)]
        exact ih hts u List.mem_cons_self b hb
    intro a ha b hb
    rw [← samePlace_congr (hfirst a ha)]
    exact hfirst b hb

/-- **Tokens are put into runs in one way**: cut where the place changes. So
one may speak of the runs of a chain. -/
theorem runs_iff : Runs ts runs ↔ ts.splitBy samePlace = runs := by
  rw [List.splitBy_eq_iff]
  constructor
  · intro h
    refine ⟨h.flatten.symm, fun hnil => h.ne_nil [] hnil rfl,
      fun run hrun => ?_, ?_⟩
    · exact (List.pairwise_of_forall_mem_list fun a ha b hb =>
        samePlace_iff.mpr (h.same run hrun a ha b hb)).isChain
    · refine h.maximal.imp_of_mem_imp fun run next hrun hnext hne => ?_
      refine ⟨h.ne_nil run hrun, h.ne_nil next hnext, ?_⟩
      rw [← Bool.not_eq_true, samePlace_iff]
      exact hne _ (List.getLast_mem _) _ (List.head_mem _)
  · rintro ⟨hflatten, hnil, hchain, hmaximal⟩
    have hsame : ∀ run ∈ runs, ∀ a ∈ run, ∀ b ∈ run, a.samePlace b = true :=
      fun run hrun => samePlace_of_isChain (hchain run hrun)
    refine ⟨hflatten.symm, fun run hrun he => hnil (he ▸ hrun),
      fun run hrun a ha b hb => samePlace_iff.mp (hsame run hrun a ha b hb),
      hmaximal.imp_of_mem_imp fun run next hrun hnext => ?_⟩
    rintro ⟨hrunne, hnextne, hdiffers⟩ a ha b hb hplace
    rw [← samePlace_congr (hsame run hrun a ha _ (List.getLast_mem hrunne)),
      samePlace_congr (samePlace_iff.mpr hplace),
      hsame next hnext b hb _ (List.head_mem hnextne)] at hdiffers
    cases hdiffers

end Token

/-! ## Lines of a listing -/

namespace Workspace

variable {w : Workspace} {t u : Token} {ts tail more : List Token}
variable {runs : List (List Token)}

/-- **How the line of a run begins**: with the path of the file, which is
empty if the file is not known, and the number of the line. -/
def heading (w : Workspace) : List Token → String
  | [] => ""
  | t :: _ => (w.files.path? t.file).getD "" ++ ":" ++ Numeral.text t.line
    ++ ": "

/-- The texts of a run with single spaces between them, which is what its line
holds behind the place. -/
def body (run : List Token) : String :=
  " ".intercalate (run.map Token.text)

/-- A line without the place it begins with, if it begins with that of the
run. -/
def unplaced? (w : Workspace) (run : List Token) (line : String) :
    Option String :=
  (Text.behind? (w.heading run).toList line.toList).map String.ofList

/-- A token from the line of the one before goes on with that line, behind a
space. -/
theorem listing_of_samePlace (h : t.samePlace u = true) (ts : List Token) :
    w.listing (some t) (u :: ts) = " " :: u.text :: w.listing (some u) ts := by
  rw [listing, if_pos h]

/-- The line of the token before is all that is remembered of it, so any token
of the line will do. -/
theorem listing_congr (h : t.samePlace u = true) (ts : List Token) :
    w.listing (some t) ts = w.listing (some u) ts := by
  cases ts with
  | nil => rfl
  | cons next ts => rw [listing, listing, Token.samePlace_congr h]

/-- **Where the place changes**, or there is nothing more, the line ends, and
what comes is listed anew. -/
theorem listing_of_differs (h : ∀ u ∈ ts.head?, t.samePlace u = false) :
    w.listing (some t) ts = "\n" :: w.listing none ts := by
  cases ts with
  | nil => rfl
  | cons u ts =>
    show (if t.samePlace u then _ else _) = _
    rw [h u rfl, if_neg Bool.false_ne_true]
    rfl

/-- **Tokens from the line of the one before** go on with it, each behind a
space. -/
theorem join_listing_append (h : ∀ u ∈ tail, t.samePlace u = true)
    (more : List Token) :
    String.join (w.listing (some t) (tail ++ more))
      = String.join (tail.map fun u => " " ++ u.text)
        ++ String.join (w.listing (some t) more) := by
  induction tail generalizing t with
  | nil => rw [List.map_nil, String.join_nil, String.empty_append]; rfl
  | cons u tail ih =>
    obtain ⟨hu, htail⟩ := List.forall_mem_cons.mp h
    have htail : ∀ v ∈ tail, u.samePlace v = true := fun v hv =>
      (Token.samePlace_congr hu v).symm.trans (htail v hv)
    rw [List.cons_append, listing_of_samePlace hu, String.join_cons,
      String.join_cons, ih htail, List.map_cons, String.join_cons,
      listing_congr hu, String.append_assoc, String.append_assoc]

/-- A body is its first text, and the others with a space in front of each.
The listing writes the spaces in that way. -/
theorem body_cons (t : Token) (tail : List Token) :
    body (t :: tail)
      = t.text ++ String.join (tail.map fun u => " " ++ u.text) := by
  induction tail generalizing t with
  | nil => rw [body, List.map_nil, String.join_nil, String.append_empty]; simp
  | cons u tail ih =>
    have := ih u
    rw [body, List.map_cons] at this
    rw [body, List.map_cons, List.map_cons, String.intercalate_cons_cons,
      this, List.map_cons, String.join_cons, String.append_assoc,
      String.append_assoc]

/-- **A run makes a line**, and what comes after it is listed anew. -/
theorem join_listing_run (htail : ∀ u ∈ tail, t.samePlace u = true)
    (hmore : ∀ u ∈ more.head?, t.samePlace u = false) :
    String.join (w.listing none (t :: tail ++ more))
      = w.heading (t :: tail) ++ body (t :: tail) ++ "\n"
        ++ String.join (w.listing none more) := by
  rw [List.cons_append, listing, String.join_cons, String.join_cons,
    join_listing_append htail, listing_of_differs hmore, String.join_cons,
    body_cons, heading, placeOf]
  simp only [String.append_assoc]

/-- **Runs are the lines of a listing.** The induction is on the runs, and
what is carried along is that no two in a row are from the same line. -/
theorem join_listing (h : Token.Runs ts runs) :
    String.join (w.listing none ts)
      = String.join (runs.map fun run => w.heading run ++ body run ++ "\n") := by
  obtain ⟨rfl, hne, hsame, hmaximal⟩ := h
  induction runs with
  | nil => rfl
  | cons run runs ih =>
    obtain ⟨hrun, hruns⟩ := List.forall_mem_cons.mp hne
    obtain ⟨hfrom, hfroms⟩ := List.forall_mem_cons.mp hsame
    obtain ⟨hnext, hchain⟩ := List.isChain_cons.mp hmaximal
    obtain ⟨t, tail, rfl⟩ := List.exists_cons_of_ne_nil hrun
    have htail : ∀ u ∈ tail, t.samePlace u = true := fun u hu =>
      Token.samePlace_iff.mpr
        (hfrom t List.mem_cons_self u (List.mem_cons_of_mem t hu))
    have hmore : ∀ u ∈ runs.flatten.head?, t.samePlace u = false := by
      intro u hu
      cases runs with
      | nil => cases hu
      | cons next runs =>
        obtain ⟨v, rest, rfl⟩ :=
          List.exists_cons_of_ne_nil (hruns next List.mem_cons_self)
        obtain rfl : v = u := Option.some.inj hu
        rw [← Bool.not_eq_true, Token.samePlace_iff]
        exact hnext _ rfl t List.mem_cons_self v List.mem_cons_self
    rw [List.flatten_cons, join_listing_run htail hmore,
      ih hruns hfroms hchain, List.map_cons, String.join_cons]

/-- **The bodies of runs** with single spaces between them are the texts of
all the tokens. No run is empty, so no two spaces come together. -/
theorem intercalate_bodies (hne : ∀ run ∈ runs, run ≠ []) :
    " ".intercalate (runs.map body) = body runs.flatten := by
  induction runs with
  | nil => rfl
  | cons run runs ih =>
    obtain ⟨hrun, hruns⟩ := List.forall_mem_cons.mp hne
    cases runs with
    | nil =>
      rw [List.map_cons, List.map_nil, String.intercalate_singleton,
        List.flatten_cons, List.flatten_nil, List.append_nil]
    | cons next runs =>
      have hmore : (next :: runs).flatten ≠ [] := by
        rw [List.flatten_cons]
        exact List.append_ne_nil_of_left_ne_nil
          (hruns next List.mem_cons_self) _
      have hmap : ∀ {ts : List Token}, ts ≠ [] → ts.map Token.text ≠ [] :=
        fun hts => mt List.map_eq_nil_iff.mp hts
      rw [List.flatten_cons, body, List.map_append,
        String.intercalate_append_of_ne_nil (hmap hrun) (hmap hmore)]
      exact String.intercalate_cons_cons.trans (congrArg _ (ih hruns))

/-- The flat listing is the body of all tokens, as if they were from one line. -/
theorem flat_eq (w : Workspace) : w.flat = body w.chain.tokens := by
  rw [flat, TokenChain.display, body, TokenChain.tokens, List.map_map]
  rfl

/-- A heading holds no line feed, if no path does. -/
theorem notMem_heading (hpaths : ∀ path ∈ w.files.paths, '\n' ∉ path.toList)
    (run : List Token) : '\n' ∉ (w.heading run).toList := by
  cases run with
  | nil => exact fun h => nomatch h
  | cons t run =>
    have hpath : '\n' ∉ ((w.files.path? t.file).getD "").toList := by
      cases hfile : w.files.path? t.file with
      | none => exact fun h => nomatch h
      | some path => exact hpaths path (List.mem_of_getElem? hfile)
    have hnumber : '\n' ∉ (Numeral.text t.line).toList := fun h =>
      absurd (Numeral.isDigit_of_mem_text h) (by decide)
    have hcolon : ":".toList = [':'] := rfl
    have hspace : ": ".toList = [':', ' '] := rfl
    simp [heading, hpath, hnumber, hcolon, hspace]

/-- **A listing has the lines of its runs**, if no text and no path holds a
line feed. A string literal may hold one, and would then be in two lines of
the listing. -/
theorem lines_byPlace (h : Token.Runs w.chain.tokens runs)
    (htexts : ∀ t ∈ w.chain.tokens, '\n' ∉ t.text.toList)
    (hpaths : ∀ path ∈ w.files.paths, '\n' ∉ path.toList) :
    Text.lines w.byPlace = runs.map fun run => w.heading run ++ body run := by
  have hbody : ∀ run ∈ runs, '\n' ∉ (body run).toList := by
    intro run hrun
    refine Text.notMem_intercalate (by decide) fun text htext => ?_
    obtain ⟨t, ht, rfl⟩ := List.mem_map.mp htext
    exact htexts t (h.flatten ▸ List.mem_flatten_of_mem hrun ht)
  have hnone : ∀ line ∈ runs.map fun run => w.heading run ++ body run,
      '\n' ∉ line.toList := by
    intro line hline
    obtain ⟨run, hrun, rfl⟩ := List.mem_map.mp hline
    rw [String.toList_append, List.mem_append]
    exact fun hmem => hmem.elim (notMem_heading hpaths run) (hbody run hrun)
  rw [byPlace, join_listing h]
  simpa only [List.map_map, Function.comp_def] using Text.lines_join hnone

/-- **The bodies are what the lines hold** behind their headings, whatever the
paths are like. -/
theorem zipWith_unplaced? (w : Workspace) (runs : List (List Token)) :
    List.zipWith w.unplaced? runs
        (runs.map fun run => w.heading run ++ body run)
      = (runs.map body).map some := by
  rw [List.zipWith_map_right, List.zipWith_self, List.map_map]
  refine List.map_congr_left fun run _ => ?_
  rw [unplaced?, String.toList_append, Text.behind?_eq_some_iff.mpr rfl,
    Option.map_some, String.ofList_toList]
  rfl

/-- **A listing by place, told by runs**: that these are the runs, that the
listing is made of them, and that the flat listing is got back from its lines. -/
structure ListedByRuns (w : Workspace) (runs : List (List Token)) : Prop where
  /-- These are the runs of the tokens, and there are no others. -/
  are_runs : Token.Runs w.chain.tokens runs
  unique : ∀ others, Token.Runs w.chain.tokens others → others = runs
  /-- The listing has a line for each: its place, its texts, and the end. -/
  byPlace : w.byPlace
    = String.join (runs.map fun run => w.heading run ++ body run ++ "\n")
  /-- If no text and no path holds a line feed, the lines without their places
  and with single spaces between them are all tokens on one line. -/
  flat : (∀ t ∈ w.chain.tokens, '\n' ∉ t.text.toList) →
    (∀ path ∈ w.files.paths, '\n' ∉ path.toList) →
    (Text.lines w.byPlace).length = runs.length
      ∧ ∃ bodies,
        List.zipWith w.unplaced? runs (Text.lines w.byPlace)
          = bodies.map some
        ∧ " ".intercalate bodies = w.flat

/-- **The tokens are listed run by run**, in any workspace, whether or not its
chain has been built by tokenizing. -/
theorem listed_by_runs (w : Workspace) : ∃ runs, w.ListedByRuns runs := by
  have hruns := Token.runs_iff.mpr (rfl :
    w.chain.tokens.splitBy Token.samePlace = _)
  refine ⟨_, hruns, fun others h => (Token.runs_iff.mp h).symm,
    join_listing hruns, fun htexts hpaths => ?_⟩
  rw [lines_byPlace hruns htexts hpaths]
  refine ⟨List.length_map _, _, zipWith_unplaced? w _, ?_⟩
  rw [intercalate_bodies hruns.ne_nil, hruns.flatten, flat_eq]

end Workspace

end FlatC
