import FlatC.Proofs.Text.Utf8
import FlatC.Proofs.Workspace.Arranged
import FlatC.Proofs.Workspace.Growth
import Mathlib.Data.List.Infix

/-!
# Further sources

Tokenizing a further source puts its tokens behind those that are there, and
then goes over all of them once more. What was there is to be left as it is.
It is, but for what going over it again brings about
(`Workspace.tokenize?_prefix`):

* the first new token may make a pair with the last one;
* a typedef may have put an access label in front of a colon;
* a typedef of two words may have its own name among them, as in
  `typedef struct foo foo ;`, and then writes it out again wherever it has
  been written out;
* what is new may complete a typedef that gives the word `typedef` itself
  another meaning.

Of these, the third is met in practice: each further source puts one more
`struct` in front of every `foo` (`Workspace.tokenize?_not_prefix`).
-/

namespace FlatC.Workspace

variable {u v w : Workspace} {sources : Sources} {bytes : List UInt8}
variable {path : String} {new : List Token}

/-- **A workspace that sources have been tokenized into**, each with whatever
could be included at the time, and to which nothing else has been done. In
particular it has not been simplified. -/
inductive Tokenized : Workspace → Prop
  | empty : Tokenized .empty
  | next {w v : Workspace} {sources : Sources} {bytes : List UInt8}
    {path : String} : Tokenized w →
    w.tokenize? sources bytes path = some v → Tokenized v

/-- Reading only adds, so the tokens that were there come first. -/
theorem grown_of_read? (hw : w.chain.Laid w.chain.cells)
    (hread : w.read? sources bytes path = some u) :
    Grown w.files.size w u := by
  have hnew : w.files.find? path = none := by
    rw [← Option.not_isSome_iff_eq_none, ← enter?_eq_none_iff]
    show ¬ w.read? sources bytes path = none
    rw [hread]
    exact Option.some_ne_none u
  obtain ⟨u', hu', hgrown, -⟩ :=
    (grows_follow sources maxDepth).enter? hw hnew bytes
  exact Option.some.inj (hread.symm.trans hu') ▸ hgrown

/-- **A source is read before it is tokenized**, and then all is arranged, the
tokens of earlier sources among them. -/
theorem exists_arrange_of_tokenize? (hw : w.chain.Laid w.chain.cells)
    (h : w.tokenize? sources bytes path = some v) :
    ∃ u : Workspace,
      v.chain.Laid (arrange u.chain.cells u.chain.pool).cells := by
  obtain ⟨u, hread, -⟩ := Option.map_eq_some_iff.mp h
  obtain ⟨v', hv', hlaid⟩ :=
    tokenize?_of_read? hread (grown_of_read? hw hread).laid
  exact ⟨u, Option.some.inj (hv'.symm.trans h) ▸ hlaid⟩

namespace Tokenized

/-- A workspace that sources have been tokenized into is laid out. -/
theorem laid (h : Tokenized w) : w.chain.Laid w.chain.cells := by
  induction h with
  | empty => exact TokenChain.laid_empty
  | next _ h ih =>
    obtain ⟨u, hlaid⟩ := exists_arrange_of_tokenize? ih h
    exact hlaid.cells_eq.symm ▸ hlaid

/-- **What sources have been tokenized into is arranged.** Only the last
source matters for this, as it had all of the chain arranged. -/
theorem exists_arrange (h : Tokenized w) :
    ∃ cells pool, w.chain.cells = (arrange cells pool).cells := by
  cases h with
  | empty => exact ⟨[], ⟨[], 0⟩, by decide +kernel⟩
  | next hw h =>
    obtain ⟨u, hlaid⟩ := exists_arrange_of_tokenize? hw.laid h
    exact ⟨u.chain.cells, u.chain.pool, hlaid.cells_eq⟩

end Tokenized

/-- What is at the end of a list is among its last elements. -/
theorem mem_take_reverse {α : Type} {t l : List α} {a : α} {n : Nat}
    (ht : t <:+ l) (hlen : t.length ≤ n) (ha : a ∈ t) :
    a ∈ l.reverse.take n := by
  have hreverse := List.prefix_iff_eq_take.mp (List.reverse_prefix.mpr ht)
  refine List.take_subset_take_left _ hlen ?_
  rw [← List.length_reverse, ← hreverse]
  exact List.mem_reverse.mpr ha

/-- **A further source leaves the tokens before it as they are**, if the first
token read is not joined with the last one of them, and if in them no access
label stands in front of a colon, no typedef brings its own name back and none
is begun in the last two. Each of these is seen in the tokens that are there. -/
theorem tokenize?_prefix (hw : Tokenized w)
    (hread : w.read? sources bytes path = some u)
    (hnew : u.chain.tokens = w.chain.tokens ++ new)
    (hpair : ∀ s ∈ w.chain.tokens.getLast?, ∀ t ∈ new.head?,
      Fusion.Unjoined s.text t.text)
    (hlabels : ∀ label ∈ Fusion.labels,
      ¬ [label, ":"] <:+: w.chain.tokens.map Token.text)
    (hrecurs : ∀ cells, cells <:+ w.chain.cells → ¬ Typedef.Recurs cells)
    (hbegun : ∀ t ∈ w.chain.tokens.reverse.take 2, t.text ≠ "typedef") :
    ∃ v, w.tokenize? sources bytes path = some v
      ∧ w.chain.tokens <+: v.chain.tokens := by
  obtain ⟨cells, pool, hcells⟩ := hw.exists_arrange
  -- The slots of the new tokens do not matter.
  let ys : List Cell := new.map (Cell.mk ⟨0⟩)
  have htokens : ys.map Cell.token = new := by
    rw [List.map_map]
    exact List.map_id new
  have halike : Cell.Alike u.chain.cells (w.chain.cells ++ ys) := by
    rw [Cell.Alike, List.map_append, htokens]
    exact hnew
  have hprefix : w.chain.cells
      <+: (arrange (w.chain.cells ++ ys) u.chain.pool).cells := by
    refine prefix_arrange hcells ?_ ?_ hrecurs ?_ _
    · intro c hc d hd
      have hlast : c.token ∈ w.chain.tokens.getLast? := by
        rw [TokenChain.tokens, List.getLast?_map]
        exact Option.mem_map_of_mem Cell.token hc
      have hfirst : d.token ∈ new.head? := by
        rw [← htokens, List.head?_map]
        exact Option.mem_map_of_mem Cell.token hd
      exact hpair _ hlast _ hfirst
    · rw [TokenChain.tokens, List.map_map] at hlabels
      exact hlabels
    · intro t ht hlen c hc
      refine hbegun c.token ?_
      rw [TokenChain.tokens, ← List.map_reverse, ← List.map_take]
      exact List.mem_map_of_mem (mem_take_reverse ht hlen hc)
  have hgrown := grown_of_read? hw.laid hread
  obtain ⟨v, hv, hlaid⟩ := tokenize?_of_read? hread hgrown.laid
  have harranged :=
    (sound_arrange.alike u.chain.pool u.chain.pool halike).cells
  refine ⟨v, hv, ?_⟩
  rw [TokenChain.tokens, TokenChain.tokens, hlaid.cells_eq, harranged]
  exact hprefix.map Cell.token

/-- A typedef of two words that is used before and after, beside operators
that are fused. -/
theorem tokenize?_prefix_of_sources :
    let sources : Sources := fun _ => .error .notFound
    let w := (empty.tokenize? sources
      (Utf8.encode "typedef unsigned int u32; u32 a; p->q <<= 1;") "a.c").get
        (by decide +kernel)
    let u := (w.read? sources (Utf8.encode "u32 b;") "b.c").get
      (by decide +kernel)
    let new := u.chain.tokens.drop w.chain.tokens.length
    w.chain.tokens.map Token.text
        = ["typedef", "unsigned", "int", "u32", ";", "unsigned", "int", "a",
          ";", "p", ".", "q", "<<", "=", "1", ";"]
      ∧ new.map Token.text = ["u32", "b", ";"]
      ∧ ∃ v, w.tokenize? sources (Utf8.encode "u32 b;") "b.c" = some v
        ∧ w.chain.tokens <+: v.chain.tokens := by
  intro sources w u new
  have hw : Tokenized w := .next .empty (Option.some_get _).symm
  refine ⟨by decide +kernel, by decide +kernel, ?_⟩
  have hnew : u.chain.tokens = w.chain.tokens ++ new := by decide +kernel
  refine tokenize?_prefix hw (Option.some_get _).symm hnew ?_ ?_ ?_ ?_
  · decide +kernel
  · decide +kernel
  · intro cells hcells
    have hall : ∀ t ∈ w.chain.cells.tails, ¬ Typedef.Recurs t := by
      decide +kernel
    exact hall cells ((List.mem_tails _ _).mpr hcells)
  · decide +kernel

/-- **A further source may disturb the tokens before it**: the `foo` that
each `struct foo` was written out for is written out once more. -/
theorem tokenize?_not_prefix :
    let sources : Sources := fun _ => .error .notFound
    let w := (empty.tokenize? sources
      (Utf8.encode "typedef struct foo foo ; foo x ;") "a.c").get
        (by decide +kernel)
    let u := (w.read? sources (Utf8.encode "foo y ;") "b.c").get
      (by decide +kernel)
    let v := (w.tokenize? sources (Utf8.encode "foo y ;") "b.c").get
      (by decide +kernel)
    Tokenized w ∧ w.tokenize? sources (Utf8.encode "foo y ;") "b.c" = some v
      ∧ w.read? sources (Utf8.encode "foo y ;") "b.c" = some u
      ∧ u.chain.tokens.map Token.text
        = w.chain.tokens.map Token.text ++ ["foo", "y", ";"]
      ∧ Fusion.Unjoined ";" "foo"
      ∧ w.chain.tokens.map Token.text
        = ["typedef", "struct", "foo", "foo", ";", "struct", "foo", "x", ";"]
      ∧ v.chain.tokens.map Token.text
        = ["typedef", "struct", "foo", "foo", ";", "struct", "struct", "foo",
          "x", ";", "struct", "foo", "y", ";"]
      ∧ ¬ w.chain.tokens <+: v.chain.tokens := by
  intro sources w u v
  refine ⟨.next .empty (Option.some_get _).symm, (Option.some_get _).symm,
    (Option.some_get _).symm, ?_, ?_, ?_, ?_, ?_⟩
  all_goals decide +kernel

end FlatC.Workspace
