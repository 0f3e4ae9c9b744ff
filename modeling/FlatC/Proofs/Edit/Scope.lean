import FlatC.Edit.ArraySizeof
import FlatC.Proofs.Edit.ArraySizeof
import FlatC.Proofs.Edit.Windows
import FlatC.Proofs.Text.Numeral

/-!
# How far the declaration of an array reaches

An array's size is known from the `;` of its declaration to the end of the
block that the declaration stands in. Here this is told by counting and not
by going over anything: the block is **open** as long as nothing between has
closed more than was opened there (`Open`). A declaration **reaches** a place
if it stands somewhere in front of it, with its block open up to there
(`Reaches`), and the first one of a name that does **governs** the name there
(`Governs`).

The uses of one array are replaced in a sweep that keeps count of the blocks
that are open (`Swept`). It may as well go on to the end of the cells, with no
count any more once the block has been closed. Whether a use is replaced is
then a matter of what the count is in front of it, and the count is the same
whether what stands there has been replaced or not: a use opens and closes no
block (`Use.foldl_deepen`), and a number does not either.
-/

namespace FlatC

namespace ArraySizeof

variable {sizes : TypeSizes} {name other type bound : String} {total n : Nat}
variable {c : Cell} {cells rest six x y xs ys between : List Cell}

/-! ## Declarations and uses -/

/-- **The declaration of an array**: its type, its name and its bound, in six
cells. -/
inductive IsArray : List Cell → String → String → String → Prop
  | mk {type var left bound right stop : Cell} :
    Token.isTypeName type.text = true → Token.isName var.text = true →
    left.text = "[" → Token.isNumber bound.text = true → right.text = "]" →
    stop.text = ";" →
    IsArray [type, var, left, bound, right, stop] type.text var.text
      bound.text

/-- **The declaration of an array whose size in bytes is known**: its type has
one, and the array's own fits in a word. Other declarations of arrays are as
if they were not there. -/
def Declares (sizes : TypeSizes) (six : List Cell) (name : String)
    (total : Nat) : Prop :=
  ∃ type bound, IsArray six type name bound ∧ sizes.sizeOf type ≠ 0
    ∧ total = sizes.sizeOf type * elements bound
    ∧ total ≤ Numeral.maxWord64

/-- **The size of a variable**, in four cells, the third of which is the name. -/
inductive Use (name : String) : List Cell → Prop
  | mk {word left var right : Cell} :
    word.text = "sizeof" → left.text = "(" → Token.isName var.text = true →
    var.text = name → right.text = ")" → Use name [word, left, var, right]

/-- **A use and what is written for it**: the size, where the first cell was. -/
inductive Evaluates (name : String) (total : Nat) :
    List Cell → List Cell → Prop
  | mk {word : Cell} {rest : List Cell} : Use name (word :: rest) →
    Evaluates name total (word :: rest) [word.withText (Numeral.text total)]

theorem IsArray.length (h : IsArray six type name bound) : six.length = 6 := by
  cases h
  rfl

theorem Declares.length (h : Declares sizes six name total) :
    six.length = 6 := by
  obtain ⟨type, bound, harray, -⟩ := h
  exact harray.length

theorem Use.length (h : Use name x) : x.length = 4 := by
  cases h
  rfl

/-- A declaration, word by word. -/
theorem opens_shape_iff {t v l b r s : Cell} :
    shape.opens (t :: v :: l :: b :: r :: s :: rest) = true
      ↔ Token.isTypeName t.text = true ∧ Token.isName v.text = true
        ∧ l.text = "[" ∧ Token.isNumber b.text = true ∧ r.text = "]"
        ∧ s.text = ";" := by
  simp [Pattern.opens, pieces_shape, @eq_comm _ "[", @eq_comm _ "]",
    @eq_comm _ ";"]

/-- **The shape of a declaration** is told by its first six cells. -/
theorem opens_shape_append_iff :
    shape.opens cells = true
      ↔ ∃ six rest type name bound, cells = six ++ rest
        ∧ IsArray six type name bound := by
  constructor
  · intro h
    have hlen := Pattern.length_le_of_fits h
    rw [pieces_shape] at hlen
    rcases cells with _ | ⟨t, _ | ⟨v, _ | ⟨l, _ | ⟨b, _ | ⟨r,
      _ | ⟨s, rest⟩⟩⟩⟩⟩⟩
    iterate 6 simp at hlen
    obtain ⟨ht, hv, hl, hb, hr, hs⟩ := opens_shape_iff.mp h
    exact ⟨[t, v, l, b, r, s], rest, _, _, _, rfl, .mk ht hv hl hb hr hs⟩
  · rintro ⟨_, rest, type, name, bound, rfl, ht, hv, hl, hb, hr, hs⟩
    exact opens_shape_iff.mpr ⟨ht, hv, hl, hb, hr, hs⟩

/-- What a declaration at the head of some cells declares. -/
theorem declared?_of_isArray (h : IsArray six type name bound)
    (rest : List Cell) :
    declared? sizes (six ++ rest)
      = if sizes.sizeOf type ≠ 0
          ∧ sizes.sizeOf type * elements bound ≤ Numeral.maxWord64
        then some (name, sizes.sizeOf type * elements bound) else none := by
  have hopens : shape.opens (six ++ rest) = true :=
    opens_shape_append_iff.mpr ⟨six, rest, type, name, bound, rfl, h⟩
  cases h
  simp only [List.cons_append, List.nil_append] at hopens ⊢
  simp [declared?, hopens]

/-- Nothing is declared but by a declaration. -/
theorem opens_of_declared? (h : declared? sizes cells = some (name, total)) :
    shape.opens cells = true := by
  unfold declared? at h
  split at h
  · dsimp only at h
    split at h
    · next hcond =>
      rw [Bool.and_eq_true, Bool.and_eq_true] at hcond
      exact hcond.1.1
    · cases h
  · cases h

/-- What is declared at the head of some cells is what a declaration there
declares. -/
theorem declared?_eq_some_iff :
    declared? sizes cells = some (name, total)
      ↔ ∃ six rest, cells = six ++ rest ∧ Declares sizes six name total := by
  constructor
  · intro h
    obtain ⟨six, rest, type, name', bound, rfl, harray⟩ :=
      opens_shape_append_iff.mp (opens_of_declared? h)
    rw [declared?_of_isArray harray] at h
    split at h
    · next hcond =>
      cases h
      exact ⟨six, rest, rfl, type, bound, harray, hcond.1, rfl, hcond.2⟩
    · cases h
  · rintro ⟨six, rest, rfl, type, bound, harray, hsize, rfl, hle⟩
    rw [declared?_of_isArray harray, if_pos ⟨hsize, hle⟩]

/-- A declaration declares one array. -/
theorem Declares.unique {total' : Nat} (h : Declares sizes six name total)
    (h' : Declares sizes six other total') : name = other ∧ total = total' := by
  have hsome := declared?_eq_some_iff.mpr ⟨six, [], rfl, h⟩
  rw [declared?_eq_some_iff.mpr ⟨six, [], rfl, h'⟩] at hsome
  cases hsome
  exact ⟨rfl, rfl⟩

/-- A use is found where some cells begin with one, whatever comes behind it. -/
theorem isUse_iff :
    isUse name cells = true ↔ ∃ x rest, cells = x ++ rest ∧ Use name x := by
  constructor
  · intro h
    unfold isUse at h
    split at h
    · next word left var more =>
      rw [Bool.and_eq_true, beq_iff_eq] at h
      obtain ⟨hopens, hname⟩ := h
      have hlen := Pattern.length_le_of_fits hopens
      rw [pieces_useShape] at hlen
      rcases more with _ | ⟨right, rest⟩
      · simp at hlen
      simp only [Pattern.opens, pieces_useShape, Pattern.fits_cons_cons,
        Piece.accepts_var, Piece.accepts_literal, Bool.and_eq_true,
        beq_iff_eq] at hopens
      obtain ⟨hword, hleft, hvar, hright, -⟩ := hopens
      exact ⟨[word, left, var, right], rest, rfl,
        .mk hword.symm hleft.symm hvar hname hright.symm⟩
    · cases h
  · rintro ⟨_, rest, rfl, hword, hleft, hvar, rfl, hright⟩
    simp [isUse, Pattern.opens, pieces_useShape, hword, hleft, hvar, hright]

/-- No cell of a use is a number. -/
theorem Use.isNumber_eq_false (h : Use name x) (hc : c ∈ x) :
    Token.isNumber c.text = false := by
  obtain ⟨hw, hl, hv, hname, hr⟩ := h
  have hvar := mt Numeral.isName_of_isNumber (by rw [hv]; decide)
  simp only [List.mem_cons, List.not_mem_nil, or_false] at hc
  rcases hc with rfl | rfl | rfl | rfl
  · rw [hw]; decide +kernel
  · rw [hl]; decide +kernel
  · exact Bool.eq_false_iff.mpr hvar
  · rw [hr]; decide +kernel

/-- What is written for a use is a number. -/
theorem Evaluates.exists_number (h : Evaluates name total x y) :
    ∃ c, y = [c] ∧ Token.isNumber c.text = true := by
  obtain ⟨-⟩ := h
  exact ⟨_, rfl, Numeral.isNumber_of_isDigits (Numeral.isDigits_text total)⟩

theorem Evaluates.use (h : Evaluates name total x y) : Use name x := by
  obtain ⟨huse⟩ := h
  exact huse

/-! ## Blocks -/

/-- Whether a cell opens a block. -/
def opens (c : Cell) : Bool := Token.startsWithAny ['{'] c.text

/-- Whether a cell closes a block. -/
def closes (c : Cell) : Bool := Token.startsWithAny ['}'] c.text

/-- **The block that some cells begin in is still open** behind them: at no
place have more blocks been closed than opened. -/
def Open (between : List Cell) : Prop :=
  ∀ l, l <+: between → l.countP closes ≤ l.countP opens

/-- **How many blocks are open behind a cell** of those that have been opened,
or nothing once the block around them has been closed. Once closed, a block
stays closed. -/
def deepen : Option Nat → Cell → Option Nat
  | none, _ => none
  | some n, c =>
    if opens c then some (n + 1)
    else if closes c then
      match n with
      | 0 => none
      | n + 1 => some n
    else some n

theorem closes_of_opens (h : opens c = true) : closes c = false := by
  unfold opens Token.startsWithAny at h
  unfold closes Token.startsWithAny
  split at h
  · cases h
  · obtain rfl := by simpa using h
    rfl

theorem opens_of_closes (h : closes c = true) : opens c = false :=
  Bool.eq_false_iff.mpr fun hopen => by
    rw [closes_of_opens hopen] at h
    cases h

theorem deepen_of_opens (h : opens c = true) (n : Nat) :
    deepen (some n) c = some (n + 1) := by
  simp [deepen, h]

theorem deepen_zero_of_closes (h : closes c = true) :
    deepen (some 0) c = none := by
  simp [deepen, opens_of_closes h, h]

theorem deepen_succ_of_closes (h : closes c = true) (n : Nat) :
    deepen (some (n + 1)) c = some n := by
  simp [deepen, opens_of_closes h, h]

/-- Other cells change no count. -/
theorem deepen_of_neither (hopen : opens c = false) (hclose : closes c = false)
    (level : Option Nat) : deepen level c = level := by
  cases level with
  | none => rfl
  | some n => simp [deepen, hopen, hclose]

/-- A closed block stays closed. -/
theorem foldl_deepen_none (cells : List Cell) :
    cells.foldl deepen none = none := by
  induction cells with
  | nil => rfl
  | cons c cells ih => exact ih

/-- A cell opens one block at most, so the depth goes up by one at most. -/
theorem le_of_deepen {k : Nat} (h : deepen (some n) c = some k) :
    k ≤ n + 1 := by
  by_cases hopen : opens c = true
  · rw [deepen_of_opens hopen] at h
    cases h
    exact Nat.le_refl _
  by_cases hclose : closes c = true
  · cases n with
    | zero =>
      rw [deepen_zero_of_closes hclose] at h
      cases h
    | succ n =>
      rw [deepen_succ_of_closes hclose] at h
      cases h
      omega
  · rw [deepen_of_neither (Bool.eq_false_iff.mpr hopen)
      (Bool.eq_false_iff.mpr hclose)] at h
    cases h
    exact Nat.le_succ _

/-- **The count goes up by one at a cell at most**, so that a word which tells
all tokens of a chain apart holds it at any time. -/
theorem le_of_foldl_deepen {k : Nat} (cells : List Cell)
    (h : cells.foldl deepen (some n) = some k) : k ≤ n + cells.length := by
  induction cells generalizing n with
  | nil =>
    cases h
    exact Nat.le_refl _
  | cons c cells ih =>
    rw [List.foldl_cons] at h
    rw [List.length_cons]
    cases hcount : deepen (some n) c with
    | none =>
      rw [hcount, foldl_deepen_none] at h
      cases h
    | some m =>
      rw [hcount] at h
      have hone := le_of_deepen hcount
      have hothers := ih h
      omega

/-- **A block is open as long as there is a count.** This is the bridge from
counting to going over the cells. -/
theorem forall_countP_iff (cells : List Cell) (n : Nat) :
    (∀ l, l <+: cells → l.countP closes ≤ n + l.countP opens)
      ↔ cells.foldl deepen (some n) ≠ none := by
  induction cells generalizing n with
  | nil => simp
  | cons c cells ih =>
    -- The empty prefix says nothing, and all others begin with the cell.
    have hcons : (∀ l, l <+: c :: cells →
          l.countP closes ≤ n + l.countP opens)
        ↔ ∀ l, l <+: cells →
          (c :: l).countP closes ≤ n + (c :: l).countP opens := by
      simp only [List.prefix_cons_iff, forall_eq_or_imp, List.countP_nil,
        Nat.zero_le, true_and]
      exact ⟨fun h l hl => h _ ⟨l, rfl, hl⟩, by
        rintro h _ ⟨l, rfl, hl⟩
        exact h l hl⟩
    rw [hcons, List.foldl_cons]
    by_cases hopen : opens c = true
    · have hclose := Bool.eq_false_iff.mp (closes_of_opens hopen)
      rw [deepen_of_opens hopen, ← ih (n + 1)]
      refine forall₂_congr fun l _ => ?_
      rw [List.countP_cons_of_pos hopen, List.countP_cons_of_neg hclose]
      omega
    · by_cases hclose : closes c = true
      · cases n with
        | zero =>
          rw [deepen_zero_of_closes hclose, foldl_deepen_none]
          refine iff_of_false (fun h => ?_) (not_not.mpr rfl)
          have := h [] List.nil_prefix
          rw [List.countP_cons_of_pos hclose, List.countP_cons_of_neg hopen]
            at this
          simp at this
        | succ n =>
          rw [deepen_succ_of_closes hclose, ← ih n]
          refine forall₂_congr fun l _ => ?_
          rw [List.countP_cons_of_pos hclose, List.countP_cons_of_neg hopen]
          omega
      · rw [deepen_of_neither (Bool.eq_false_iff.mpr hopen)
          (Bool.eq_false_iff.mpr hclose), ← ih n]
        refine forall₂_congr fun l _ => ?_
        rw [List.countP_cons_of_neg hopen, List.countP_cons_of_neg hclose]

/-- A block is open exactly if there is a count when it is gone over from 0. -/
theorem open_iff : Open between ↔ between.foldl deepen (some 0) ≠ none := by
  rw [← forall_countP_iff, Open]
  simp only [Nat.zero_add]

/-- What starts with no brace opens no block and closes none. -/
theorem deepen_of_startsWithAny
    (h : Token.startsWithAny ['{', '}'] c.text = false) (level : Option Nat) :
    deepen level c = level :=
  deepen_of_neither (Token.startsWithAny_of_subset h (by simp))
    (Token.startsWithAny_of_subset h (by simp)) level

/-- A use opens no block and closes none, -/
theorem Use.foldl_deepen (h : Use name x) (level : Option Nat) :
    x.foldl deepen level = level := by
  have hnone : ∀ c ∈ x, Token.startsWithAny ['{', '}'] c.text = false := by
    obtain ⟨hword, hleft, hvar, -, hright⟩ := h
    have hbrace : Token.startsWithAny ['{', '}'] _ = false :=
      Token.startsWithAny_of_isName hvar (by decide)
    simp only [List.forall_mem_cons, hword, hleft, hright, hbrace,
      List.not_mem_nil, false_imp_iff, implies_true, and_true, true_and]
    decide +kernel
  clear h
  induction x with
  | nil => rfl
  | cons c x ih =>
    obtain ⟨hc, hx⟩ := List.forall_mem_cons.mp hnone
    rw [List.foldl_cons, deepen_of_startsWithAny hc, ih hx]

/-- and neither does what is written for it. -/
theorem Evaluates.foldl_deepen (h : Evaluates name total x y)
    (level : Option Nat) : y.foldl deepen level = level := by
  obtain ⟨c, rfl, hnumber⟩ := h.exists_number
  exact deepen_of_startsWithAny
    (Token.startsWithAny_of_isNumber hnumber (by decide)) level

/-! ## Reach -/

/-- **A declaration reaches a place** from where it starts: its block is open
between its `;` and the place. -/
def Reaches (sizes : TypeSizes) (start : Nat) (written : List Cell)
    (name : String) (total : Nat) : Prop :=
  ∃ before six between, written = before ++ six ++ between
    ∧ before.length = start ∧ Declares sizes six name total ∧ Open between

/-- **The first declaration of a name that reaches a place** governs the name
there. A later one of the same name, also in an inner block, does not count. -/
def Governs (sizes : TypeSizes) (start : Nat) (written : List Cell)
    (name : String) (total : Nat) : Prop :=
  Reaches sizes start written name total
    ∧ ∀ earlier < start, ∀ total, ¬ Reaches sizes earlier written name total

/-- **What comes behind a declaration** decides how far it reaches, and only
by how it leaves the count of blocks. So replacing uses changes nothing of it. -/
theorem reaches_append_congr {start : Nat} (hstart : start + 6 ≤ cells.length)
    (h : ∀ level, xs.foldl deepen level = ys.foldl deepen level) :
    Reaches sizes start (cells ++ xs) name total
      ↔ Reaches sizes start (cells ++ ys) name total := by
  have key : ∀ {xs ys : List Cell},
      (∀ level, xs.foldl deepen level = ys.foldl deepen level) →
      Reaches sizes start (cells ++ xs) name total →
      Reaches sizes start (cells ++ ys) name total := by
    rintro xs ys h ⟨before, six, between, heq, hbefore, hdeclares, hopen⟩
    have hlen : (before ++ six).length ≤ cells.length := by
      rw [List.length_append, hbefore, hdeclares.length]
      exact hstart
    obtain ⟨t, rfl⟩ : ∃ t, cells = before ++ six ++ t :=
      List.prefix_of_prefix_length_le (List.prefix_append _ _)
        (heq ▸ List.prefix_append cells xs) hlen |>.imp fun _ => Eq.symm
    rw [List.append_assoc, List.append_right_inj] at heq
    refine ⟨before, six, t ++ ys, List.append_assoc _ _ _, hbefore, hdeclares,
      ?_⟩
    rw [open_iff] at hopen ⊢
    rwa [← heq, List.foldl_append, h, ← List.foldl_append] at hopen
  exact ⟨key h, key fun level => (h level).symm⟩

/-- **The declaration that stands right in front** reaches as far as its block
is open, and no other one reaches from there. -/
theorem reaches_behind_iff {before : List Cell}
    (h : Declares sizes six name total) {total' : Nat} :
    Reaches sizes before.length (before ++ six ++ between) other total'
      ↔ name = other ∧ total = total' ∧ Open between := by
  constructor
  · rintro ⟨before', six', between', heq, hbefore, hdeclares, hopen⟩
    rw [List.append_assoc, List.append_assoc] at heq
    obtain ⟨-, heq⟩ := List.append_inj heq hbefore.symm
    obtain ⟨rfl, rfl⟩ := List.append_inj heq
      (h.length.trans hdeclares.length.symm)
    obtain ⟨rfl, rfl⟩ := h.unique hdeclares
    exact ⟨rfl, rfl, hopen⟩
  · rintro ⟨rfl, rfl, hopen⟩
    exact ⟨before, six, between, rfl, rfl, h, hopen⟩

/-! ## Sweeps -/

/-- **The uses of one array replaced**, given how many blocks are open: each
one up to the end of the block, and none behind it. What is kept is no use as
long as there is a count. -/
inductive Swept (name : String) (total : Nat) :
    Option Nat → List Segment → Prop
  | nil {level : Option Nat} : Swept name total level []
  | kept {level : Option Nat} {c : Cell} {segments : List Segment} :
    (level ≠ none → ∀ x rest,
      c :: segments.flatMap Segment.old = x ++ rest → ¬ Use name x) →
    Swept name total (deepen level c) segments →
    Swept name total level (.kept c :: segments)
  | replaced {n : Nat} {x y : List Cell} {segments : List Segment} :
    Evaluates name total x y → Swept name total (some n) segments →
    Swept name total (some n) (.replaced x y :: segments)

theorem flatMap_old_kept (cells : List Cell) :
    (cells.map Segment.kept).flatMap Segment.old = cells := by
  rw [List.flatMap_map]
  exact List.flatMap_singleton' cells

theorem flatMap_new_kept (cells : List Cell) :
    (cells.map Segment.kept).flatMap Segment.new = cells := by
  rw [List.flatMap_map]
  exact List.flatMap_singleton' cells

theorem countP_isReplaced_kept (cells : List Cell) :
    (cells.map Segment.kept).countP Segment.isReplaced = 0 := by
  simp [List.countP_eq_zero, Segment.isReplaced]

/-- **What comes of a sweep** over some cells, told by their parts, each of
which is kept or is a use that has been replaced. -/
def Sweeps (name : String) (total : Nat) (level : Option Nat)
    (cells : List Cell) (r : Edit) : Prop :=
  ∃ segments, Swept name total level segments
    ∧ segments.flatMap Segment.old = cells
    ∧ segments.flatMap Segment.new = r.cells
    ∧ segments.countP Segment.isReplaced = r.count

namespace Sweeps

variable {level : Option Nat} {r : Edit}

/-- A cell kept in front. -/
theorem cons (huse : level ≠ none → isUse name (c :: rest) ≠ true)
    (h : Sweeps name total (deepen level c) rest r) :
    Sweeps name total level (c :: rest) (r.cons c) := by
  obtain ⟨segments, hswept, hold, hnew, hcount⟩ := h
  refine ⟨.kept c :: segments, .kept (fun hlevel x rest' heq hx => ?_) hswept,
    ?_, ?_, ?_⟩
  · exact huse hlevel (isUse_iff.mpr ⟨x, rest', hold ▸ heq, hx⟩)
  · rw [List.flatMap_cons, hold]
    rfl
  · rw [List.flatMap_cons, hnew]
    rfl
  · rw [List.countP_cons_of_neg Bool.false_ne_true, hcount, Edit.count_cons]

/-- A use replaced in front. -/
theorem replaced (huse : Evaluates name total x y)
    (h : Sweeps name total (some n) rest r) :
    Sweeps name total (some n) (x ++ rest) ((r.prepend y).plus 1) := by
  obtain ⟨segments, hswept, hold, hnew, hcount⟩ := h
  refine ⟨.replaced x y :: segments, .replaced huse hswept, ?_, ?_, ?_⟩
  · rw [List.flatMap_cons, hold]
    rfl
  · rw [List.flatMap_cons, hnew]
    rfl
  · rw [List.countP_cons_of_pos rfl, hcount, Edit.count_plus,
      Edit.count_prepend, Nat.add_comm]

/-- Behind the end of the block all cells are kept. -/
theorem unchanged (cells : List Cell) (pool : SlotPool) :
    Sweeps name total none cells (.unchanged cells pool) := by
  induction cells with
  | nil => exact ⟨[], .nil, rfl, rfl, rfl⟩
  | cons c cells ih => exact cons (fun h => absurd rfl h) ih

end Sweeps

/-- No use begins with a brace. -/
theorem isUse_of_startsWithAny {chars : List Char}
    (h : Token.startsWithAny chars c.text = true)
    (hword : Token.startsWithAny chars "sizeof" = false) :
    isUse name (c :: rest) ≠ true := by
  intro huse
  obtain ⟨_, _, heq, hsizeof, -⟩ := isUse_iff.mp huse
  obtain ⟨rfl, -⟩ := List.cons.inj heq
  rw [hsizeof, hword] at h
  cases h

/-- **Replacing the uses of an array is a sweep**, along the recursion of the
pass. -/
theorem sweeps_replaceUses (name : String) (total n : Nat)
    (cells : List Cell) (pool : SlotPool) :
    Sweeps name total (some n) cells
      (replaceUses name (Numeral.text total) n cells pool) := by
  fun_induction replaceUses name (Numeral.text total) n cells pool with
  | case1 n pool => exact ⟨[], .nil, rfl, rfl, rfl⟩
  | case2 n pool c rest hopen ih =>
    rw [← deepen_of_opens hopen] at ih
    exact .cons
      (fun _ => isUse_of_startsWithAny hopen (by decide +kernel)) ih
  | case3 pool c rest hopen hclose =>
    refine .cons
      (fun _ => isUse_of_startsWithAny hclose (by decide +kernel)) ?_
      (r := .unchanged rest pool)
    rw [deepen_zero_of_closes hclose]
    exact .unchanged rest pool
  | case4 pool c rest hopen hclose n ih =>
    rw [← deepen_succ_of_closes hclose] at ih
    exact .cons
      (fun _ => isUse_of_startsWithAny hclose (by decide +kernel)) ih
  | case5 n pool c rest hopen hclose huse ih =>
    obtain ⟨_, rest', heq, hx⟩ := isUse_iff.mp huse
    obtain ⟨hword, hleft, hvar, hname, hright⟩ := id hx
    obtain ⟨rfl, rfl⟩ := List.cons.inj heq
    exact .replaced (.mk hx) ih
  | case6 n pool c rest hopen hclose huse ih =>
    refine .cons (fun _ => huse) ?_
    rw [deepen_of_neither (Bool.eq_false_iff.mpr hopen)
      (Bool.eq_false_iff.mpr hclose)]
    exact ih

namespace Swept

variable {level : Option Nat} {segments j k : List Segment}

/-- **What is replaced is a use** in the block, with the block open in front
of it. -/
theorem evaluates (h : Swept name total level segments)
    (heq : segments = j ++ .replaced x y :: k) :
    Evaluates name total x y
      ∧ (j.flatMap Segment.old).foldl deepen level ≠ none := by
  induction h generalizing j with
  | nil => simp at heq
  | @kept level c segments huse hrest ih =>
    rcases j with _ | ⟨s, j⟩
    · cases heq
    · obtain ⟨rfl, htail⟩ := List.cons.inj heq
      exact ih htail
  | @replaced n x' y' segments hx hrest ih =>
    rcases j with _ | ⟨s, j⟩
    · cases heq
      exact ⟨hx, Option.some_ne_none n⟩
    · obtain ⟨rfl, htail⟩ := List.cons.inj heq
      obtain ⟨hevaluates, hlevel⟩ := ih htail
      refine ⟨hevaluates, ?_⟩
      rw [List.flatMap_cons, List.foldl_append]
      exact (hx.use.foldl_deepen (some n)).symm ▸ hlevel

/-- **What is kept is no use**, unless the block has been closed. So none is
missed. -/
theorem not_use (h : Swept name total level segments)
    (heq : segments = j ++ x.map .kept ++ k) (hx : Use name x) :
    (j.flatMap Segment.old).foldl deepen level = none := by
  induction h generalizing j with
  | nil =>
    obtain ⟨hword, -⟩ := hx
    simp at heq
  | @kept level c segments huse hrest ih =>
    rcases j with _ | ⟨s, j⟩
    · by_contra hlevel
      rcases x with _ | ⟨c', x⟩
      · cases hx
      obtain ⟨hc, htail⟩ := List.cons.inj heq
      obtain rfl := Segment.kept.inj hc
      obtain rfl : segments = x.map Segment.kept ++ k := htail
      refine huse hlevel (c :: x) (k.flatMap Segment.old) ?_ hx
      rw [List.flatMap_append, flatMap_old_kept]
      rfl
    · obtain ⟨rfl, htail⟩ := List.cons.inj heq
      exact ih htail
  | @replaced n x' y' segments hx' hrest ih =>
    rcases j with _ | ⟨s, j⟩
    · obtain ⟨hword, -⟩ := hx
      cases heq
    · obtain ⟨rfl, htail⟩ := List.cons.inj heq
      rw [List.flatMap_cons, List.foldl_append]
      exact (hx'.use.foldl_deepen (some n)).symm ▸ ih htail

end Swept

end ArraySizeof

end FlatC
