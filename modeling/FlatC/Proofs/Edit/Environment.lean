import Mathlib.Data.List.Infix
import FlatC.Bindings
import FlatC.Proofs.Edit.Constant
import FlatC.Proofs.Chain.Runs
import FlatC.Proofs.Text.Numeral

/-!
# Constants in one reading

Inlining goes over the cells once for each declaration that it finds: the
name is replaced in all that comes behind, and what is found later has been
changed by every declaration before it. A declaration may so be completed or
destroyed by earlier ones.

The same comes of reading the cells once from left to right, with an
environment (`Constant.Reading`). A cell whose text is bound there is written
with its value, any other as it is; and when the last six cells that have
been written are a declaration, its name is bound from then on.

The two meet at the places where no declaration has been begun and not ended
(`Constant.Clear`). Two declarations never overlap, so where one begins the
reading has six cells to go, in which nothing else is bound. What is bound
are names and what they are bound to are numbers, so nothing is replaced
twice and no name is bound twice.
-/

namespace FlatC

/-- Where a cell is: its slot, and the line and the file of its token. All of
it but the text. -/
def Cell.place (c : Cell) : TokenId × Nat × FileId :=
  (c.slot, c.token.line, c.token.file)

namespace Constant

/-! ## The reading -/

/-- A cell with the value of its text written, if that has one. -/
def replace (env : Bindings String) (c : Cell) : Cell :=
  match env.find? c.text with
  | some value => c.withText value
  | none => c

/-- **The constant that some cells end with the declaration of**, and its
value. It is asked of what has been written, so earlier replacements count. -/
def declared? (written : List Cell) : Option (String × String) :=
  match written.reverse with
  | stop :: num :: eq :: name :: type :: word :: _ =>
    if shape.opens [word, type, name, eq, num, stop] then
      some (name.text, num.text)
    else none
  | _ => none

/-- **A reading of some cells**: what names are bound to, what has been
written and how many cells were replaced. No cell is read twice. -/
structure Reading where
  env : Bindings String
  written : List Cell
  count : Nat

namespace Reading

/-- A reading that has not begun. -/
def start : Reading := ⟨.empty, [], 0⟩

/-- **The next cell read**: it is written, with its value if it has one, and
may end a declaration. -/
def read (r : Reading) (c : Cell) : Reading :=
  let written := r.written ++ [replace r.env c]
  { env :=
      match declared? written with
      | some (name, value) => r.env.insert name value
      | none => r.env
    written
    count := r.count + if (r.env.find? c.text).isSome then 1 else 0 }

end Reading

/-- **Some cells read from left to right.** -/
def readAll (cells : List Cell) : Reading :=
  cells.foldl Reading.read Reading.start

variable {word type name eq num stop c d : Cell} {env : Bindings String}
variable {cells written rest after xs ys zs t : List Cell} {pool : SlotPool}
variable {key value : String} {r : Reading}

/-! ## Declarations -/

/-- A declaration, word by word. -/
theorem opens_iff :
    shape.opens (word :: type :: name :: eq :: num :: stop :: rest) = true
      ↔ word.text = "const" ∧ Token.isTypeName type.text = true
        ∧ Token.isName name.text = true ∧ eq.text = "="
        ∧ Token.isNumber num.text = true ∧ stop.text = ";" := by
  simp [Pattern.opens, pieces_shape, @eq_comm _ "const", @eq_comm _ "=",
    @eq_comm _ ";"]

/-- A declaration takes six cells. -/
theorem exists_of_opens (h : shape.opens cells = true) :
    ∃ word type name eq num stop rest,
      cells = word :: type :: name :: eq :: num :: stop :: rest := by
  have hlen := Pattern.length_le_of_fits h
  rw [pieces_shape] at hlen
  rcases cells with _ | ⟨word, _ | ⟨type, _ | ⟨name, _ | ⟨eq, _ | ⟨num,
    _ | ⟨stop, rest⟩⟩⟩⟩⟩⟩
  iterate 6 simp at hlen
  exact ⟨word, type, name, eq, num, stop, rest, rfl⟩

/-- **No declaration begins within another one**, as `const` is only its first
word. -/
theorem not_opens_within
    (h : shape.opens [word, type, name, eq, num, stop] = true)
    (ht : t <:+ [type, name, eq, num, stop]) (hne : t ≠ [])
    (rest : List Cell) : shape.opens (t ++ rest) = false := by
  obtain ⟨-, -, -, heq, hnum, hstop⟩ := opens_iff.mp h
  have hequals : Token.isName "=" = false := by decide +kernel
  have hword : num.text ≠ "const" := fun hc => by
    rw [hc] at hnum
    exact absurd hnum (by decide +kernel)
  refine Bool.eq_false_iff.mpr fun hopens => ?_
  rw [Pattern.opens, pieces_shape] at hopens
  simp only [List.suffix_cons_iff, List.suffix_nil] at ht
  rcases ht with rfl | rfl | rfl | rfl | rfl | rfl
  · simp [heq, hequals] at hopens
  · simp [heq, Token.isTypeName, hequals] at hopens
  · simp [heq] at hopens
  · exact hword (by simpa [eq_comm] using And.left (by simpa using hopens))
  · simp [hstop] at hopens
  · exact hne rfl

/-- What has been written declares a constant if its last six cells do, with
the name and the number that they have. -/
theorem declared?_eq_some_iff :
    declared? written = some (key, value)
      ↔ ∃ before word type name eq num stop,
        written = before ++ [word, type, name, eq, num, stop]
          ∧ shape.opens [word, type, name, eq, num, stop] = true
          ∧ name.text = key ∧ num.text = value := by
  constructor
  · intro h
    unfold declared? at h
    split at h
    · next stop num eq name type word before hwritten =>
      split at h
      · next hopens =>
        refine ⟨before.reverse, word, type, name, eq, num, stop, ?_, hopens, ?_⟩
        · rw [← List.reverse_reverse written, hwritten]
          simp
        · simpa using h
      · cases h
    · cases h
  · rintro ⟨before, word, type, name, eq, num, stop, rfl, hopens, rfl, rfl⟩
    simp [declared?, hopens]

/-! ## What is bound -/

/-- **Names are bound to numbers.** So what is written for a name is never
replaced in turn. -/
def Numeric (env : Bindings String) : Prop :=
  ∀ key value, env.find? key = some value →
    Token.isName key = true ∧ Token.isNumber value = true

/-- How many cells have a text that is bound. -/
def uses (env : Bindings String) (cells : List Cell) : Nat :=
  cells.countP fun c => (env.find? c.text).isSome

theorem text_replace (env : Bindings String) (c : Cell) :
    (replace env c).text = (env.find? c.text).getD c.text := by
  unfold replace
  split
  · next h => rw [h, Cell.text_withText, Option.getD_some]
  · next h => rw [h, Option.getD_none]

/-- A name that is written was not bound: it would be a number. -/
theorem Numeric.find?_eq_none (h : Numeric env)
    (hname : Token.isName (replace env c).text = true) :
    env.find? (replace env c).text = none := by
  have hnone : env.find? c.text = none := by
    refine Option.eq_none_iff_forall_ne_some.mpr fun value hvalue => ?_
    rw [text_replace, hvalue, Option.getD_some] at hname
    have := Numeral.isName_of_isNumber (h _ _ hvalue).2
    rw [hname] at this
    cases this
  rw [text_replace, hnone, Option.getD_none, hnone]

/-- Binding a name to a number keeps this. -/
theorem Numeric.insert (h : Numeric env) (hkey : Token.isName key = true)
    (hvalue : Token.isNumber value = true) :
    Numeric (env.insert key value) := by
  intro k v hk
  rw [Bindings.find?_insert] at hk
  split at hk
  · next heq =>
    cases hk
    exact ⟨heq ▸ hkey, hvalue⟩
  · exact h k v hk

section Insert

variable (henv : Numeric env) (hkey : Token.isName key = true)
variable (hnone : env.find? key = none)
include henv hkey hnone

/-- A name that is not bound is neither one of those that are nor what they
are bound to. -/
theorem ne_of_find?_eq_none {k v : String} (h : env.find? k = some v) :
    k ≠ key ∧ v ≠ key := by
  constructor
  · rintro rfl
    rw [hnone] at h
    cases h
  · exact (Token.ne_of_isName hkey
      (Numeral.isName_of_isNumber (henv _ _ h).2)).symm

/-- **A further binding** replaces its name in what the others have left. In
this way the pass comes to many bindings, one after another. -/
theorem map_replace_insert (value : String) (cells : List Cell) :
    cells.map (replace (env.insert key value))
      = Cell.rename key value (cells.map (replace env)) := by
  rw [Cell.rename, List.map_map]
  refine List.map_congr_left fun c _ => ?_
  show _ = if (replace env c).text == key then _ else _
  rw [text_replace, replace, replace, Bindings.find?_insert]
  cases hc : env.find? c.text with
  | none =>
    rw [Option.getD_none]
    by_cases heq : c.text = key
    · simp [heq]
    · simp [heq]
  | some v =>
    obtain ⟨hne, hv⟩ := ne_of_find?_eq_none henv hkey hnone hc
    simp [hne, hv]

/-- Its uses come on top of those of the others, since a name that has been
replaced by a number is none of them. -/
theorem uses_insert (value : String) (cells : List Cell) :
    uses (env.insert key value) cells
      = uses env cells + Cell.occurrences key (cells.map (replace env)) := by
  induction cells with
  | nil => rfl
  | cons c cells ih =>
    simp only [uses, Cell.occurrences, List.map_cons, List.countP_cons]
      at ih ⊢
    rw [ih, Bindings.find?_insert, text_replace]
    cases hc : env.find? c.text with
    | none =>
      by_cases heq : c.text = key
      · simp [heq]
        omega
      · simp [heq]
    | some v =>
      obtain ⟨hne, hv⟩ := ne_of_find?_eq_none henv hkey hnone hc
      simp [hne, hv]
      omega

end Insert

/-! ## Where no declaration has been begun -/

/-- **No declaration has been begun and not ended** where some cells have been
written and others come next. Only at such places do the pass and the reading
agree. -/
def Clear (written rest : List Cell) : Prop :=
  ∀ t, t <:+ written → t ≠ [] → t.length ≤ 5 → shape.opens (t ++ rest) = false

/-- What comes next ends no declaration within its first five cells. One that
ended there would have begun in what has been written, and nothing that begins
there is ahead. -/
theorem Clear.declared?_eq_none (h : Clear written rest) (hzs : zs <+: rest)
    (hne : zs ≠ []) (hlen : zs.length ≤ 5) :
    declared? (written ++ zs) = none := by
  refine Option.eq_none_iff_forall_ne_some.mpr fun binding hbinding => ?_
  obtain ⟨before, word, type, name, eq, num, stop, hwritten, hopens, -⟩ :=
    declared?_eq_some_iff.mp hbinding
  obtain ⟨more, rfl⟩ := hzs
  generalize hsix : [word, type, name, eq, num, stop] = six
    at hwritten hopens
  have hsixlen : six.length = 6 := by rw [← hsix]; rfl
  have hpos := List.length_pos_of_ne_nil hne
  rcases List.append_eq_append_iff.mp hwritten with
    ⟨t, rfl, rfl⟩ | ⟨t, rfl, rfl⟩
  · rw [List.length_append] at hlen
    omega
  · rw [List.length_append] at hsixlen
    have hcut := h t (List.suffix_append _ _)
      (fun hnil => by simp [hnil] at hsixlen; omega) (by omega)
    rw [← List.append_assoc, Pattern.opens,
      Cell.fits_append (by rw [pieces_shape, List.length_append]; simp; omega)]
      at hcut
    rw [Pattern.opens, hcut] at hopens
    cases hopens

/-- **Up to five cells are read** without a further binding, since a
declaration takes six. -/
theorem Clear.foldl_read (cells : List Cell) (h : Clear r.written rest)
    (hzs : cells.map (replace r.env) <+: rest) (hlen : cells.length ≤ 5) :
    cells.foldl Reading.read r
      = ⟨r.env, r.written ++ cells.map (replace r.env),
        r.count + uses r.env cells⟩ := by
  induction cells using List.reverseRecOn with
  | nil => simp [uses]
  | append_singleton cells c ih =>
    rw [List.length_append, List.length_singleton] at hlen
    rw [List.map_append] at hzs
    have hnone := h.declared?_eq_none hzs (by simp) (by simp; omega)
    rw [← List.append_assoc] at hnone
    rw [List.foldl_append, ih ((List.prefix_append _ _).trans hzs) (by omega),
      List.foldl_cons, List.foldl_nil, Reading.read]
    dsimp only
    simp only [List.map_singleton] at hnone
    rw [hnone]
    simp [uses, Nat.add_assoc, List.countP_cons]

/-- Behind a cell with which no declaration begins it is clear if it was
before. -/
theorem Clear.snoc (h : Clear written (c :: rest))
    (hopens : shape.opens (c :: rest) = false) :
    Clear (written ++ [c]) rest := by
  intro t ht hne hlen
  rcases List.suffix_concat_iff.mp ht with rfl | ⟨t, rfl, hsub⟩
  · exact absurd rfl hne
  · rw [List.append_assoc, List.singleton_append]
    rw [List.length_append, List.length_singleton] at hlen
    by_cases hnil : t = []
    · rw [hnil]
      exact hopens
    · exact h t hsub hnil (by omega)

/-- Behind a declaration it is always clear. -/
theorem clear_of_opens
    (h : shape.opens [word, type, name, eq, num, stop] = true)
    (written rest : List Cell) :
    Clear (written ++ [word, type, name, eq, num, stop]) rest := by
  intro t ht hne hlen
  refine not_opens_within h ?_ hne rest
  have hfive : [type, name, eq, num, stop]
      <:+ written ++ [word, type, name, eq, num, stop] :=
    (List.suffix_cons word _).trans (List.suffix_append written _)
  exact List.suffix_of_suffix_length_le ht hfive hlen

/-! ## The pass and the reading -/

/-- A cell with which no declaration begins is passed. -/
theorem inlineConstants_of_not_opens (h : shape.opens (c :: rest) = false)
    (pool : SlotPool) :
    inlineConstants (c :: rest) pool
      = (inlineConstants rest pool).cons c := by
  have happly : apply c rest = (rest, 0) := by
    unfold apply
    split
    · rw [h]
      rfl
    · rfl
  rw [inlineConstants, happly]
  exact Edit.plus_zero _

/-- Cells with which no declaration begins are passed. -/
theorem inlineConstants_append
    (h : ∀ t, t <:+ xs → t ≠ [] → shape.opens (t ++ ys) = false)
    (pool : SlotPool) :
    inlineConstants (xs ++ ys) pool
      = (inlineConstants ys pool).prepend xs := by
  induction xs with
  | nil => rfl
  | cons x xs ih =>
    have hfirst : shape.opens (x :: (xs ++ ys)) = false :=
      h (x :: xs) List.suffix_rfl (List.cons_ne_nil x xs)
    rw [List.cons_append, inlineConstants_of_not_opens hfirst,
      ih fun t ht => h t (ht.trans (List.suffix_cons x xs)),
      Edit.cons_prepend]

/-- **A declaration** acts on what comes behind it, and nothing else begins in
it. The six cells stay as they are. -/
theorem inlineConstants_of_opens
    (h : shape.opens [word, type, name, eq, num, stop] = true)
    (rest : List Cell) (pool : SlotPool) :
    inlineConstants ([word, type, name, eq, num, stop] ++ rest) pool
      = ((inlineConstants (Cell.rename name.text num.text rest) pool).prepend
          [word, type, name, eq, num, stop]).plus
            (Cell.occurrences name.text rest) := by
  have hopens : shape.opens
      ([word, type, name, eq, num, stop] ++ rest) = true :=
    opens_iff.mpr (opens_iff.mp h)
  have happly : apply word ([type, name, eq, num, stop] ++ rest)
      = ([type, name, eq, num, stop] ++ Cell.rename name.text num.text rest,
        Cell.occurrences name.text rest) :=
    if_pos hopens
  show inlineConstants (word :: ([type, name, eq, num, stop] ++ rest)) pool
    = _
  rw [inlineConstants, happly,
    inlineConstants_append fun t ht hne => not_opens_within h ht hne _,
    Edit.cons_prepend]

/-- **A declaration is read** and its name bound, if none has been begun in
front of it. -/
theorem Clear.foldl_read_of_opens
    (h : Clear r.written ([word, type, name, eq, num, stop] ++ rest))
    (hcells : cells.map (replace r.env) = [word, type, name, eq, num, stop])
    (hopens : shape.opens [word, type, name, eq, num, stop] = true) :
    cells.foldl Reading.read r
      = ⟨r.env.insert name.text num.text,
        r.written ++ [word, type, name, eq, num, stop],
        r.count + uses r.env cells⟩ := by
  rcases List.eq_nil_or_concat cells with rfl | ⟨five, last, rfl⟩
  · cases hcells
  rw [List.concat_eq_append] at hcells ⊢
  have happend : five.map (replace r.env) ++ [replace r.env last]
      = [word, type, name, eq, num] ++ [stop] := by
    rw [List.map_append] at hcells
    exact hcells
  obtain ⟨hfive, hlast⟩ := List.append_inj' happend rfl
  have hstop : replace r.env last = stop := (List.cons.inj hlast).1
  have hlen : five.length = 5 := by
    rw [← List.length_map (replace r.env), hfive]
    rfl
  have hdeclared : declared? (r.written ++ [word, type, name, eq, num]
      ++ [stop]) = some (name.text, num.text) :=
    declared?_eq_some_iff.mpr ⟨r.written, word, type, name, eq, num, stop,
      List.append_assoc _ _ _, hopens, rfl, rfl⟩
  have hread := h.foldl_read five
    (hfive ▸ List.prefix_append [word, type, name, eq, num] (stop :: rest))
    (Nat.le_of_eq hlen)
  rw [List.foldl_append, hread, List.foldl_cons, List.foldl_nil, Reading.read,
    hfive]
  dsimp only
  rw [hstop, hdeclared]
  simp [uses, Nat.add_assoc, List.countP_cons]

/-- **What the pass makes of cells in which all that is bound has been
replaced is what the reading writes**, from where no declaration has been
begun. -/
theorem Clear.foldl_read_eq
    (hclear : Clear r.written (cells.map (replace r.env)))
    (henv : Numeric r.env) (pool : SlotPool) :
    (cells.foldl Reading.read r).written
        = r.written ++ (inlineConstants (cells.map (replace r.env)) pool).cells
      ∧ (cells.foldl Reading.read r).count
        = r.count + uses r.env cells
          + (inlineConstants (cells.map (replace r.env)) pool).count := by
  induction hn : cells.length using Nat.strong_induction_on
    generalizing cells r with
  | _ n ih =>
  by_cases hopens : shape.opens (cells.map (replace r.env)) = true
  · -- the six cells of a declaration are read, and its name is bound
    obtain ⟨word, type, name, eq, num, stop, rest, hsix⟩ :=
      exists_of_opens hopens
    have hsplit : cells.map (replace r.env)
        = [word, type, name, eq, num, stop] ++ rest := hsix
    obtain ⟨six, after, rfl, hmap, hafter⟩ :=
      List.map_eq_append_iff.mp hsplit
    rw [hsplit] at hclear hopens ⊢
    replace hopens : shape.opens [word, type, name, eq, num, stop] = true :=
      opens_iff.mpr (opens_iff.mp hopens)
    obtain ⟨-, -, hname, -, hnum, -⟩ := opens_iff.mp hopens
    have hread := hclear.foldl_read_of_opens hmap hopens
    -- the name was not bound before, as it would be a number now
    have hnone : r.env.find? name.text = none := by
      have hmem : name ∈ six.map (replace r.env) := by
        rw [hmap]
        simp
      obtain ⟨c, -, rfl⟩ := List.mem_map.mp hmem
      exact henv.find?_eq_none hname
    have hrename := map_replace_insert henv hname hnone num.text after
    rw [hafter] at hrename
    have hlt : after.length < n := by
      have := congrArg List.length hmap
      rw [List.length_map] at this
      simp [← hn, this]
    have hclear' : Clear (six.foldl Reading.read r).written
        (after.map (replace (six.foldl Reading.read r).env)) := by
      rw [hread]
      exact clear_of_opens hopens _ _
    have hrest := ih after.length hlt hclear'
      (by rw [hread]; exact henv.insert hname hnum) rfl
    have huses := uses_insert henv hname hnone num.text after
    rw [hafter] at huses
    rw [hread] at hrest
    dsimp only at hrest
    rw [hrename, huses] at hrest
    rw [List.foldl_append, hread, hrest.1, hrest.2,
      inlineConstants_of_opens hopens]
    simp [uses]
    omega
  · rcases cells with _ | ⟨c, rest⟩
    · rw [List.map_nil, inlineConstants]
      simp [uses]
    · have hopens' := Bool.eq_false_iff.mpr hopens
      rw [List.map_cons] at hclear hopens' ⊢
      have hread : r.read c
          = ⟨r.env, r.written ++ [replace r.env c],
            r.count + uses r.env [c]⟩ :=
        hclear.foldl_read [c] (List.prefix_append [_] _) (by simp)
      have hrest := ih rest.length (by rw [← hn]; simp)
        (r := r.read c) (by rw [hread]; exact hclear.snoc hopens')
        (by rw [hread]; exact henv) rfl
      rw [hread] at hrest
      rw [List.foldl_cons, hread, hrest.1, hrest.2,
        inlineConstants_of_not_opens hopens']
      simp [uses, List.countP_cons]
      omega

/-- **The pass and the reading** write the same and count the same. At the
start there is no constant, so nothing is replaced and nothing has been
written. -/
theorem readAll_eq (cells : List Cell) (pool : SlotPool) :
    (readAll cells).written = (inlineConstants cells pool).cells
      ∧ (readAll cells).count = (inlineConstants cells pool).count := by
  have hsame : cells.map (replace Bindings.empty) = cells :=
    List.map_id'' (fun _ => rfl) cells
  have hclear : Clear Reading.start.written
      (cells.map (replace Reading.start.env)) := by
    intro t ht hne
    exact absurd (List.suffix_nil.mp ht) hne
  have henv : Numeric Reading.start.env := by
    intro key value h
    cases h
  have hread := hclear.foldl_read_eq henv pool
  have huses : uses Bindings.empty cells = 0 := by
    simp [uses]
  simpa [readAll, Reading.start, hsame, huses] using hread

/-- Each cell that is read is written in its place. -/
theorem place_replace (env : Bindings String) (c : Cell) :
    (replace env c).place = c.place := by
  unfold replace
  split <;> rfl

/-- No cell changes its place, whatever is read. -/
theorem map_place_foldl_read (cells : List Cell) (r : Reading) :
    (cells.foldl Reading.read r).written.map Cell.place
      = r.written.map Cell.place ++ cells.map Cell.place := by
  induction cells generalizing r with
  | nil => rw [List.foldl_nil, List.map_nil, List.append_nil]
  | cons c cells ih =>
    rw [List.foldl_cons, ih, Reading.read, List.map_append, List.map_cons,
      List.map_nil, place_replace, List.append_assoc]
    rfl

end Constant

/-! ## Chains -/

namespace TokenChain

open Constant (readAll)

variable {c : TokenChain}

/-- **A chain with its constants inlined**, and a count, told by the one
reading. -/
structure Inlined (c : TokenChain) (count : Nat) (c' : TokenChain) : Prop where
  /-- The cells are those that one reading writes, -/
  cells : c'.cells = (readAll c.cells).written
  /-- the count is how many of them it replaced, -/
  count : count = (readAll c.cells).count
  /-- each is where it was, -/
  places : c'.cells.map Cell.place = c.cells.map Cell.place
  /-- and there are as many as before. -/
  length : c'.cells.length = c.cells.length
  len : c'.len = c.len

/-- **Inlining the constants of a chain is one reading of it**, from left to
right and with an environment. So each declaration need not be gone behind by
itself. -/
theorem Laid.inlined (h : c.Laid c.cells) :
    c.Inlined (c.edit inlineConstants).1 (c.edit inlineConstants).2 := by
  have hcells := (h.edit sound_inlineConstants).cells_eq
  obtain ⟨hwritten, hcount⟩ := Constant.readAll_eq c.cells c.pool
  have hplaces : (inlineConstants c.cells c.pool).cells.map Cell.place
      = c.cells.map Cell.place := by
    rw [← hwritten]
    exact Constant.map_place_foldl_read c.cells Constant.Reading.start
  have hlength : (inlineConstants c.cells c.pool).cells.length
      = c.cells.length := by
    rw [← List.length_map Cell.place, hplaces, List.length_map]
  refine ⟨hcells.trans hwritten.symm, hcount.symm, ?_, ?_, ?_⟩
  · rw [hcells]
    exact hplaces
  · rw [hcells]
    exact hlength
  · have hids : c.ids.length = c.cells.length := by
      rw [h.ids_eq, List.length_map]
    have hlen := h.length_le_len
    show c.len - c.ids.length + (inlineConstants c.cells c.pool).cells.length
      = c.len
    omega

/-- A declaration that an earlier one completes, one that an earlier one of
the same name destroys, and one of the word `const` itself. -/
theorem inlined_of_texts :
    let texts := ["const", "int", "N", "=", "5", ";", "const", "long", "M",
      "=", "N", ";", "const", "int", "N", "=", "6", ";", "N", "+", "M", ";",
      "const", "int", "const", "=", "7", ";", "const", "int", "X", "=", "1",
      ";", "X"]
    let c := (ChainOp.run TokenChain.act .empty
      (texts.map fun s => .pushBack ⟨s, 1, .first⟩)).2
    c.tokens.map Token.text = texts
      ∧ (c.edit inlineConstants).1 = 5
      ∧ (c.edit inlineConstants).2.tokens.map Token.text
        = ["const", "int", "N", "=", "5", ";", "const", "long", "M", "=", "5",
          ";", "const", "int", "5", "=", "6", ";", "5", "+", "5", ";",
          "const", "int", "const", "=", "7", ";", "7", "int", "X", "=", "1",
          ";", "X"]
      ∧ c.Inlined (c.edit inlineConstants).1 (c.edit inlineConstants).2 := by
  intro texts c
  refine ⟨by decide +kernel, by decide +kernel, by decide +kernel, ?_⟩
  exact (laid_empty.run _).inlined

end TokenChain

end FlatC
