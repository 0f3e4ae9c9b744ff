import FlatC.Workspace.Tokenizing
import FlatC.Proofs.Edit.Expanded
import FlatC.Proofs.Edit.Fused
import FlatC.Proofs.Edit.Fusion

/-!
# What arranging leaves

Tokenizing arranges the whole chain, with all that was arranged before. Two
things are said of this. Without a typedef, arranging is fusing
(`texts_arrange`). And what has been arranged is left as it is when it is
arranged again with more behind it (`prefix_arrange`), as long as expanding
leaves it as it is and there is nothing to fuse.

Fusing has left nothing to fuse, but it is not the last pass. A typedef puts
type names in the place of a type name, and in all pairs there are, the second
part is none, and the first is one only if it is an access label. So a typedef
can make a pair only by putting an access label in front of a colon
(`isChain_arrange`).
-/

namespace FlatC

variable {cells ys : List Cell} {pool : SlotPool}

/-- Arranging is sound, as both of its passes are: it leaves a chain laid out,
and does the same to cells that are alike. -/
theorem sound_arrange : Pass.Sound arrange where
  exchanged := fun cells pool =>
    (sound_fuseOperators.exchanged cells pool).trans
      (sound_expandTypedefs.exchanged _ _)
  alike := fun p q h =>
    have hfused := sound_fuseOperators.alike p q h
    (sound_expandTypedefs.alike _ _ hfused.cells).plus hfused.count

/-- **Without a typedef** arranging is fusing. Fusing makes no typedef either,
as no two texts together are the word. -/
theorem texts_arrange (h : ∀ c ∈ cells, c.text ≠ "typedef")
    (pool : SlotPool) :
    (arrange cells pool).cells.map Cell.text
      = (Fusion.groups (cells.map Cell.text)).map Fusion.written := by
  have htexts := Fusion.texts_fuseOperators cells pool
  have hpair : ∀ p ∈ Fusion.pairs, Fusion.written [p.1, p.2] ≠ "typedef" := by
    decide +kernel
  rw [arrange, Edit.cells_plus, expandTypedefs_of_ne, Edit.cells_unchanged,
    htexts]
  intro c hc hword
  have hmem := List.mem_map_of_mem (f := Cell.text) hc
  rw [htexts] at hmem
  obtain ⟨group, hgroup, hwritten⟩ := List.mem_map.mp hmem
  rw [hword] at hwritten
  -- a fused text that is the word was one text before, or two
  rcases Fusion.of_mem_groups hgroup with ⟨text, ht, rfl⟩ | ⟨p, hp, rfl⟩
  · obtain ⟨d, hd, rfl⟩ := List.mem_map.mp ht
    refine h d hd ?_
    rw [Fusion.written, Fusion.dot] at hwritten
    split at hwritten
    · exact absurd hwritten (by decide)
    · simpa using hwritten
  · exact hpair p hp hwritten

/-! ## Pairs that expanding makes -/

namespace Fusion

variable {a b : String}

/-- **Two texts that are no pair**, unless the first is a type name. This is
what expanding keeps, as it puts type names in front of anything. -/
def Parted (a b : String) : Prop :=
  (a, b) ∈ pairs → Token.isTypeName a = true

/-- The access labels, which are type names to the passes and are fused with a
colon. -/
def labels : List String := ["private", "protected", "public"]

/-- What is not joined is no pair. -/
theorem Unjoined.parted (h : Unjoined a b) : Parted a b := by
  intro hmem
  rw [Unjoined, joined?, if_pos (List.contains_iff_mem.mpr hmem)] at h
  cases h

/-- **Of the first parts of pairs only the labels are type names**, and their
second part is the colon. The table of pairs is gone through for this. -/
theorem Parted.unjoined (h : Parted a b) (hlabel : a ∈ labels → b ≠ ":") :
    Unjoined a b := by
  have hall : ∀ p ∈ pairs, Token.isTypeName p.1 = true →
      p.1 ∈ labels ∧ p.2 = ":" := by
    decide
  refine unjoined_of_notMem fun hmem => ?_
  obtain ⟨hfirst, hsecond⟩ := hall _ hmem (h hmem)
  exact hlabel hfirst hsecond

/-- No second part of a pair is a type name, so one that is put behind
anything makes no pair with it. -/
theorem parted_right (h : Token.isTypeName b = true) (a : String) :
    Parted a b := by
  have hall : ∀ p ∈ pairs, Token.isTypeName p.2 = false := by decide
  intro hmem
  rw [show Token.isTypeName b = false from hall _ hmem] at h
  cases h

end Fusion

namespace Cell

variable {pre post xs : List Cell} {c d e : Cell}

/-- **Cells of which no two next to each other are a pair**, unless the first
is a type name. What is there of a chain in front is part of the cells, as a
pair may be made with its last one. -/
def Parted (cells : List Cell) : Prop :=
  cells.IsChain fun c d => Fusion.Parted c.text d.text

/-- A type name put in the place of a cell keeps it so: with the one in front
it is no pair, and with the one behind it may be. -/
theorem Parted.insert (h : Parted (pre ++ c :: post))
    (hd : Token.isTypeName d.text = true) : Parted (pre ++ d :: post) := by
  rw [Parted, List.isChain_append] at h ⊢
  obtain ⟨hpre, hpost, -⟩ := h
  refine ⟨hpre, List.isChain_cons.mpr ⟨fun e _ _ => hd,
    (List.isChain_cons.mp hpost).2⟩, fun e _ f hf => ?_⟩
  cases hf
  exact Fusion.parted_right hd e.text

/-- Two type names put there keep it so, and are no pair themselves. -/
theorem Parted.insert_two (h : Parted (pre ++ c :: post))
    (hd : Token.isTypeName d.text = true)
    (he : Token.isTypeName e.text = true) :
    Parted (pre ++ d :: e :: post) := by
  have hsecond := h.insert he
  have hpost : Parted (e :: post) := hsecond.right_of_append
  have hboth : Parted ([] ++ d :: e :: post) :=
    List.isChain_cons.mpr ⟨fun f _ _ => hd, hpost⟩
  rw [Parted, List.isChain_append] at hsecond ⊢
  refine ⟨hsecond.1, hboth, fun f _ g hg => ?_⟩
  cases hg
  exact Fusion.parted_right hd f.text

/-- Renaming to a type name keeps it so, wherever the name occurs. -/
theorem Parted.rename {old new : String} (h : Parted (pre ++ xs))
    (hnew : Token.isTypeName new = true) :
    Parted (pre ++ rename old new xs) := by
  induction xs generalizing pre with
  | nil => exact h
  | cons x xs ih =>
    rw [Cell.rename, List.map_cons, List.append_cons]
    refine ih ?_
    rw [← List.append_cons]
    split
    · exact h.insert hnew
    · exact h

end Cell

namespace Typedef

variable {pre own more after : List Cell} {c : Cell}

/-- Writing a name out as two type names keeps it so, wherever the name
occurs. -/
theorem parted_writeOut {name first second : String} {xs : List Cell}
    (h : Cell.Parted (pre ++ xs)) (hfirst : Token.isTypeName first = true)
    (hsecond : Token.isTypeName second = true) (pool : SlotPool) :
    Cell.Parted (pre ++ (writeOut name first second xs pool).cells) := by
  induction xs generalizing pre pool with
  | nil => exact h
  | cons x xs ih =>
    rw [writeOut]
    split
    · have hxs := h.insert_two (d := x.withText first)
        (e := ⟨pool.take.1, x.token.withText second⟩) hfirst hsecond
      rw [List.append_cons, List.append_cons] at hxs
      have hrest := ih hxs pool.take.2
      rwa [← List.append_cons, ← List.append_cons] at hrest
    · rw [List.append_cons] at h
      have hrest := ih h pool
      rwa [← List.append_cons] at hrest

/-- A part of a statement carried out keeps it so, as what it puts in place of
a name are type names, if it puts anything. -/
theorem parted_apply (h : Cell.Parted (pre ++ (c :: more ++ after)))
    (pool : SlotPool) :
    Cell.Parted (pre ++ ((apply c more after pool).1 :: more
      ++ (apply c more after pool).2.cells)) := by
  have hword : Cell.Parted
      (pre ++ ((apply c more after pool).1 :: more ++ after)) := by
    rcases fst_apply c more after pool with hc | ⟨actual, -, -, hactual, hc⟩
    · rwa [hc]
    · rw [hc]
      exact h.insert hactual
  rw [← List.append_assoc] at hword ⊢
  generalize (apply c more after pool).1 = word at hword ⊢
  rcases apply_cases c more after pool with
    ⟨actual, name, last, rfl, hopens, happly⟩
    | ⟨first, second, name, last, rfl, hopens, happly⟩ | happly
  · rw [happly]
    exact hword.rename (opens_short_iff.mp hopens).2.1
  · rw [happly]
    obtain ⟨-, hfirst, hsecond, -⟩ := opens_long_iff.mp hopens
    exact parted_writeOut hword hfirst hsecond pool
  · rwa [happly]

/-- A statement looked through keeps it so, part by part. -/
theorem parted_lookThrough (h : Cell.Parted (pre ++ (own ++ after)))
    (pool : SlotPool) :
    Cell.Parted (pre ++ ((lookThrough own after pool).own
      ++ (lookThrough own after pool).after.cells)) := by
  induction own generalizing pre after pool with
  | nil => exact h
  | cons c more ih =>
    rw [own_lookThrough_cons, cells_lookThrough_cons]
    have happly := parted_apply h pool
    rw [List.cons_append, List.append_cons] at happly ⊢
    exact ih happly _

end Typedef

/-- **Expanding makes no pair**, but for a type name in front. The induction
is on the statements, with what is in front of the next one left open, as it
is a part of the chain that is done with. -/
theorem parted_expandTypedefs {pre : List Cell}
    (h : Cell.Parted (pre ++ cells)) (pool : SlotPool) :
    Cell.Parted (pre ++ (expandTypedefs cells pool).cells) := by
  fun_induction expandTypedefs cells pool generalizing pre with
  | case1 cells pool hcut => exact h
  | case2 cells pool own after hcut o =>
    rename_i ih
    rw [Typedef.eq_append_of_cut? hcut] at h
    have hlook := Typedef.parted_lookThrough h pool
    rw [← List.append_assoc] at hlook
    have hrest := ih hlook
    rwa [List.append_assoc] at hrest

/-! ## Arranged tokens with more behind -/

/-- No arranged token is `->`: fusing makes a dot of it, and expanding only
copies texts that are there. -/
theorem ne_of_mem_arrange {c : Cell} (h : c ∈ (arrange cells pool).cells) :
    c.text ≠ "->" := by
  have hmem := text_mem_of_expandTypedefs h
  obtain ⟨d, hd, hdc⟩ := List.mem_map.mp hmem
  exact hdc ▸ Fusion.ne_of_mem_fuseOperators hd

/-- **The pairs that arranging leaves** are access labels in front of a colon.
So a chain without these is one that fusing would not change. -/
theorem isChain_arrange
    (h : ∀ label ∈ Fusion.labels,
      ¬ [label, ":"] <:+: (arrange cells pool).cells.map Cell.text) :
    ((arrange cells pool).cells.map Cell.text).IsChain Fusion.Unjoined := by
  have hfused := Fusion.isChain_fuseOperators cells pool
  rw [List.isChain_map] at hfused
  have hfused : Cell.Parted ([] ++ (fuseOperators cells pool).cells) :=
    hfused.imp fun _ _ hab => hab.parted
  have hparted := parted_expandTypedefs hfused (fuseOperators cells pool).pool
  have htexts := (List.isChain_map Cell.text).mpr hparted
  refine List.isChain_iff_forall_rel_of_append_cons_cons.mpr ?_
  intro a b before behind hsplit
  have hab := List.isChain_iff_forall_rel_of_append_cons_cons.mp htexts hsplit
  refine hab.unjoined ?_
  rintro hlabel rfl
  exact h a hlabel ⟨before, behind, by rw [hsplit]; simp⟩

/-- **What has been arranged stays**, whatever is behind it that its last
token is not joined with, if no access label in it stands in front of a colon,
if no typedef brings its own name back and if no typedef is begun in the last
two tokens. Fusing is dealt with by the pairs, of which only the one across
the end is new, and expanding by the statements. -/
theorem prefix_arrange {xs : List Cell}
    (hxs : xs = (arrange cells pool).cells)
    (hpair : ∀ c ∈ xs.getLast?, ∀ d ∈ ys.head?,
      Fusion.Unjoined c.text d.text)
    (hlabels : ∀ label ∈ Fusion.labels,
      ¬ [label, ":"] <:+: xs.map Cell.text)
    (hrecurs : ∀ t, t <:+ xs → ¬ Typedef.Recurs t)
    (hbegun : ∀ t, t <:+ xs → t.length ≤ 2 → ∀ c ∈ t, c.text ≠ "typedef")
    (q : SlotPool) : xs <+: (arrange (xs ++ ys) q).cells := by
  have hpairs : ((xs ++ ys.take 1).map Cell.text).IsChain
      Fusion.Unjoined := by
    have hchain := isChain_arrange (hxs ▸ hlabels)
    rw [← hxs, List.isChain_map] at hchain
    rw [List.isChain_map, List.isChain_append]
    refine ⟨hchain, ?_, fun c hc d hd => hpair c hc d ?_⟩
    · cases ys with
      | nil => exact .nil
      | cons y ys => exact .singleton y
    · rwa [List.head?_take, if_neg Nat.one_ne_zero] at hd
  rw [arrange, Edit.cells_plus, Fusion.cells_fuseOperators_append q hpairs
    fun c hc => ne_of_mem_arrange (hxs ▸ hc)]
  subst hxs
  exact prefix_expandTypedefs hrecurs hbegun _ _

namespace Workspace

variable {u w : Workspace} {sources : Sources} {bytes : List UInt8}
variable {path : String}

/-- **A source that is read is tokenized**, by arranging the chain, so
tokenizing fails only where reading does. -/
theorem tokenize?_of_read? (hread : w.read? sources bytes path = some u)
    (hu : u.chain.Laid u.chain.cells) :
    ∃ v, w.tokenize? sources bytes path = some v
      ∧ v.chain.Laid (arrange u.chain.cells u.chain.pool).cells := by
  refine ⟨_, by rw [tokenize?, hread]; rfl, ?_⟩
  exact hu.edit sound_arrange

end Workspace

end FlatC
