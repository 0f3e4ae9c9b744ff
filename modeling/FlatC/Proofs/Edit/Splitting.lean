import FlatC.Proofs.Edit.Declaration
import FlatC.Proofs.Edit.Subscript

/-!
# Nothing is left to split

Splitting makes no declaration that it could split again. That is not seen
cell by cell: a declaration is left as it is where its initializer has no
end, and an end would be a `;` or a `,` far behind it, among cells that are
split later.

What is written there adds no end. A declaration that is split inside the
initializer ends where nothing it opened itself is open; the initializer
would have ended there too if nothing of its own were open. So something
is, and neither the `,` that stood there nor the `;` that is written for it
matters to it (`Declaration.cutInitializer?_splitDeclarations`).

The other passes' work is not undone either. Splitting writes `;` for
separators and copies names. `Splittable` lists what a statement about the
cells has to put up with in order to stay true everywhere.
-/

namespace FlatC

/-! ## How a declaration begins -/

namespace Declaration

variable {xs ys lead after : List Cell} {before : String} {sep c d : Cell}
variable {shape : Shape}

/-- The characters by which nothing of a declaration starts that stands before
its separator, but the separator does. -/
def marks : List Char := [';', '{', '}', '(', ')', ',', '=', '<', '>']

/-- A text that may stand before the separator: no bracket but square ones,
and no sign at which a declaration ends. -/
def Plain (text : String) : Prop := Token.startsWithAny marks text = false

/-- A shape ends with its separator, so where it holds the separator is there. -/
theorem length_pieces (h : shape ∈ shapes) :
    shape.pattern.pieces.length = shape.before + 1 := by
  revert shape
  decide +kernel

/-- A shape has a type, and more than that before its separator. -/
theorem type_lt_before (h : shape ∈ shapes) :
    0 < shape.type ∧ shape.type < shape.before := by
  revert shape
  decide +kernel

/-- **The shapes of a declaration**: each is that of some texts with a
separator behind them, and begins with the names that are its type. -/
theorem pieces_of_mem_shapes (h : shape ∈ shapes) :
    (shape.pattern.pieces.take shape.before).all (Piece.avoids marks) = true
      ∧ (shape.pattern.pieces.drop shape.before = [.literal ","]
        ∨ shape.pattern.pieces.drop shape.before = [.literal "="])
      ∧ ∀ piece ∈ shape.pattern.pieces.take shape.type,
        piece = .type ∨ piece = .literal "struct" := by
  revert shape
  decide +kernel

/-- A shape that comes next is one of the shapes, and holds. -/
theorem mem_shapes_of_shapeOf? (h : shapeOf? xs = some shape) :
    shape ∈ shapes ∧ shape.pattern.opens xs = true := by
  have hfind : shapes.find? (fun s => s.pattern.opens xs) = some shape := h
  exact ⟨List.mem_of_find?_eq_some hfind, by simpa using List.find?_some hfind⟩

/-- **What comes before the separator, and the separator.** This is all that
is needed of shapes from here on. -/
theorem lead_of_shapeOf? (h : shapeOf? (lead ++ sep :: after) = some shape)
    (hlen : lead.length = shape.before) :
    (∀ x ∈ lead, Plain x.text) ∧ (sep.text = "," ∨ sep.text = "=")
      ∧ ∀ x ∈ lead.take shape.type, Token.isName x.text = true := by
  obtain ⟨hmem, hopens⟩ := mem_shapes_of_shapeOf? h
  obtain ⟨hplain, hsep, htype⟩ := pieces_of_mem_shapes hmem
  have hpieces := length_pieces hmem
  have hlt := (type_lt_before hmem).2
  rw [Pattern.opens] at hopens
  refine ⟨?_, ?_, ?_⟩
  · refine Cell.forall_of_fits hopens (by omega) fun piece hp text hacc => ?_
    rw [hlen] at hp
    refine Bool.eq_false_iff.mpr fun hmark => ?_
    rw [Piece.accepts_eq_false (List.all_eq_true.mp hplain piece hp) hmark]
      at hacc
    cases hacc
  · rw [← List.take_append_drop shape.before shape.pattern.pieces,
      Cell.fits_append_append (by rw [List.length_take]; omega),
      Bool.and_eq_true] at hopens
    rcases hsep with hsep | hsep
    · rw [hsep, Pattern.fits_cons_cons, Bool.and_eq_true] at hopens
      exact Or.inl (eq_of_beq hopens.2.1).symm
    · rw [hsep, Pattern.fits_cons_cons, Bool.and_eq_true] at hopens
      exact Or.inr (eq_of_beq hopens.2.1).symm
  · rw [← List.take_append_drop shape.type lead, List.append_assoc] at hopens
    have htake : (lead.take shape.type).length = shape.type := by
      rw [List.length_take]
      omega
    refine Cell.forall_of_fits (Q := fun t => Token.isName t = true) hopens
      (by omega) fun piece hp text hacc => ?_
    rw [htake] at hp
    rcases htype piece hp with rfl | rfl
    · exact Token.isName_of_isTypeName hacc
    · rw [← eq_of_beq hacc]
      decide +kernel

/-- Where the shape of a declaration comes next, its separator does, behind as
many cells as the shape has in front of it. -/
theorem exists_of_shapeOf? (h : shapeOf? xs = some shape) :
    ∃ lead sep after, xs = lead ++ sep :: after
      ∧ lead.length = shape.before := by
  obtain ⟨hmem, hopens⟩ := mem_shapes_of_shapeOf? h
  have hle := Pattern.length_le_of_fits hopens
  rw [length_pieces hmem] at hle
  have hlen : (xs.take shape.before).length = shape.before := by
    rw [List.length_take]
    omega
  cases hdrop : xs.drop shape.before with
  | nil =>
    have := List.drop_eq_nil_iff.mp hdrop
    omega
  | cons sep after =>
    exact ⟨xs.take shape.before, sep, after,
      by rw [← hdrop, List.take_append_drop], hlen⟩

/-- **Cells have one first cell that is not plain**, so a separator is found
in one place only. -/
theorem eq_of_plain {lead' after' : List Cell} {sep' : Cell}
    (h : lead ++ sep :: after = lead' ++ sep' :: after')
    (hlead : ∀ x ∈ lead, Plain x.text) (hlead' : ∀ x ∈ lead', Plain x.text)
    (hsep : ¬ Plain sep.text) (hsep' : ¬ Plain sep'.text) :
    lead = lead' ∧ sep = sep' ∧ after = after' := by
  induction lead generalizing lead' with
  | nil =>
    cases lead' with
    | nil =>
      obtain ⟨rfl, rfl⟩ := List.cons.inj h
      exact ⟨rfl, rfl, rfl⟩
    | cons x lead' =>
      obtain ⟨rfl, -⟩ := List.cons.inj h
      exact absurd (hlead' _ List.mem_cons_self) hsep
  | cons x lead ih =>
    cases lead' with
    | nil =>
      obtain ⟨rfl, -⟩ := List.cons.inj h
      exact absurd (hlead _ List.mem_cons_self) hsep'
    | cons x' lead' =>
      obtain ⟨rfl, htail⟩ := List.cons.inj h
      obtain ⟨rfl, rfl, rfl⟩ := ih htail
        (fun y hy => hlead y (List.mem_cons_of_mem _ hy))
        (fun y hy => hlead' y (List.mem_cons_of_mem _ hy))
      exact ⟨rfl, rfl, rfl⟩

theorem not_plain_of_separator (h : c.text = "," ∨ c.text = "=") :
    ¬ Plain c.text := by
  rcases h with h | h
  · rw [h]
    exact (by decide +kernel : ¬ Token.startsWithAny marks "," = false)
  · rw [h]
    exact (by decide +kernel : ¬ Token.startsWithAny marks "=" = false)

theorem not_plain_of_semicolon (h : c.text = ";") : ¬ Plain c.text := by
  rw [h]
  exact (by decide +kernel : ¬ Token.startsWithAny marks ";" = false)

/-- **The first cell that is not plain is the separator** of a declaration
that begins. -/
theorem separator_of_shapeOf?
    (h : shapeOf? (lead ++ sep :: after) = some shape)
    (hlead : ∀ x ∈ lead, Plain x.text) (hsep : ¬ Plain sep.text) :
    lead.length = shape.before ∧ (sep.text = "," ∨ sep.text = "=") := by
  obtain ⟨lead', sep', after', hsplit, hlen⟩ := exists_of_shapeOf? h
  rw [hsplit] at h
  obtain ⟨hplain, hseparator, -⟩ := lead_of_shapeOf? h hlen
  obtain ⟨rfl, rfl, rfl⟩ := eq_of_plain hsplit hlead hplain hsep
    (not_plain_of_separator hseparator)
  exact ⟨hlen, hseparator⟩

/-- **No declaration begins** where the first cell that is not plain is
another one, or comes too early. -/
theorem shapeOf?_eq_none (hlead : ∀ x ∈ lead, Plain x.text)
    (hsep : ¬ Plain sep.text)
    (h : (sep.text = "," ∨ sep.text = "=") → lead.length < 2) :
    shapeOf? (lead ++ sep :: after) = none := by
  refine Option.eq_none_iff_forall_ne_some.mpr fun shape hshape => ?_
  obtain ⟨hlen, hseparator⟩ := separator_of_shapeOf? hshape hlead hsep
  have hshort := h hseparator
  have hpos := type_lt_before (mem_shapes_of_shapeOf? hshape).1
  omega

/-! ## Initializers without an end -/

theorem Plain.startsWithAny {text : String} (h : Plain text)
    {chars : List Char} (hsub : chars ⊆ marks) :
    Token.startsWithAny chars text = false :=
  Token.startsWithAny_of_subset h hsub

/-- What stands in an initializer without opening, closing or ending anything.
It can be put in or left out there. -/
structure Neutral (text : String) : Prop where
  opening : Token.startsWithAny opening text = false
  closing : Token.startsWithAny closing text = false
  ending : Token.startsWithAny ending text = false

theorem Plain.neutral {text : String} (h : Plain text) : Neutral text :=
  ⟨h.startsWithAny (by decide), h.startsWithAny (by decide),
    h.startsWithAny (by decide)⟩

theorem Neutral.of_isName {text : String} (h : Token.isName text = true) :
    Neutral text :=
  ⟨Token.startsWithAny_of_isName h (by decide),
    Token.startsWithAny_of_isName h (by decide),
    Token.startsWithAny_of_isName h (by decide)⟩

theorem neutral_equals : Neutral "=" :=
  ⟨by decide +kernel, by decide +kernel, by decide +kernel⟩

/-- Whether an initializer ends does not depend on what is neutral. -/
theorem cutInitializer?_neutral (h : Neutral c.text) (depth : Int)
    (rest : List Cell) :
    cutInitializer? depth (c :: rest) = none
      ↔ cutInitializer? depth rest = none := by
  rw [cutInitializer?, h.opening, h.closing, h.ending]
  exact Option.map_eq_none_iff

/-- The same of several cells in front. -/
theorem cutInitializer?_append (h : ∀ x ∈ lead, Neutral x.text)
    (depth : Int) (rest : List Cell) :
    cutInitializer? depth (lead ++ rest) = none
      ↔ cutInitializer? depth rest = none := by
  induction lead with
  | nil => exact Iff.rfl
  | cons x lead ih =>
    rw [List.cons_append,
      cutInitializer?_neutral (h x List.mem_cons_self),
      ih fun y hy => h y (List.mem_cons_of_mem _ hy)]

/-- A `,` or a `;` ends an initializer where nothing is open. Anywhere else it
is passed, and the end is looked for behind it. -/
theorem cutInitializer?_ending (h : c.text = "," ∨ c.text = ";")
    (depth : Int) (rest : List Cell) :
    cutInitializer? depth (c :: rest) = none
      ↔ depth ≠ 0 ∧ cutInitializer? depth rest = none := by
  have hopen : Token.startsWithAny opening c.text = false := by
    rcases h with h | h <;> rw [h] <;> decide +kernel
  have hclose : Token.startsWithAny closing c.text = false := by
    rcases h with h | h <;> rw [h] <;> decide +kernel
  have hend : Token.startsWithAny ending c.text = true := by
    rcases h with h | h <;> rw [h] <;> decide +kernel
  rw [cutInitializer?, hopen, hclose, hend]
  by_cases hdepth : depth = 0
  · rw [hdepth]
    exact iff_of_false (Option.some_ne_none _) fun hn => hn.1 rfl
  · rw [beq_eq_false_iff_ne.mpr hdepth]
    exact Option.map_eq_none_iff.trans (and_iff_right hdepth).symm

/-- What comes after a cell decides, at the depth the cell leaves. -/
theorem cutInitializer?_cons (h : cutInitializer? depth (c :: xs) = none)
    (hrest : ∀ depth, cutInitializer? depth xs = none →
      cutInitializer? depth ys = none) :
    cutInitializer? depth (c :: ys) = none := by
  rcases cutInitializer?_step depth c.text with
    ⟨-, -, hc⟩ | ⟨-, -, hc⟩ | ⟨-, -, hc⟩
  · exact hc c ys rfl
  · rw [hc c xs rfl] at h
    cases h
  · rw [hc c xs rfl, Option.map_eq_none_iff] at h
    rw [hc c ys rfl, Option.map_eq_none_iff]
    exact hrest _ h

/-- What holds of some texts holds of their copies. -/
theorem forall_mem_copy {Q : String → Prop} (h : ∀ x ∈ xs, Q x.text)
    (pool : SlotPool) : ∀ t ∈ (pool.copy (xs.map Cell.token)).1, Q t.text := by
  intro t ht
  have hmem := List.mem_map_of_mem (f := Cell.token) ht
  rw [SlotPool.map_token_copy] at hmem
  obtain ⟨x, hx, htoken⟩ := List.mem_map.mp hmem
  exact Cell.text_eq htoken ▸ h x hx

/-- Between what came before a comma and what came after it, a `;` and the
type end nothing where something is open. -/
theorem cutInitializer?_retype {type more : List Cell} {semi : Cell}
    (hsemi : semi.text = ";") (hne : depth ≠ 0)
    (htype : ∀ x ∈ type, Neutral x.text) (pool : SlotPool)
    (h : cutInitializer? depth more = none) :
    cutInitializer? depth
      (semi :: ((pool.copy (type.map Cell.token)).1 ++ more)) = none :=
  (cutInitializer?_ending (Or.inr hsemi) _ _).mpr
    ⟨hne, (cutInitializer?_append (forall_mem_copy htype pool) _ _).mpr h⟩

/-- **A comma split further in ends no initializer that had no end.** Seen
from another depth than the one the comma ends an initializer at, neither the
comma nor the `;` written for it ends anything. -/
theorem cutInitializer?_split {init more type : List Cell} {stop semi : Cell}
    {inner : Int} (hinner : cutInitializer? inner xs = some (init, stop, more))
    (hne : depth ≠ inner) (hstop : stop.text = ",") (hsemi : semi.text = ";")
    (htype : ∀ x ∈ type, Neutral x.text) (pool : SlotPool)
    (h : cutInitializer? depth xs = none) :
    cutInitializer? depth
      (init ++ semi :: ((pool.copy (type.map Cell.token)).1 ++ more))
        = none := by
  induction xs generalizing init depth inner with
  | nil => cases hinner
  | cons c xs ih =>
    rcases cutInitializer?_step inner c.text with
      ⟨-, -, hc⟩ | ⟨-, -, hc⟩ | ⟨-, -, hc⟩
    · rw [hc c xs rfl] at hinner
      cases hinner
    · rw [hc c xs rfl] at hinner
      cases hinner
      obtain ⟨hdepth, hmore⟩ := (cutInitializer?_ending (Or.inl hstop) _ _).mp h
      exact cutInitializer?_retype hsemi hdepth htype pool hmore
    · rw [hc c xs rfl] at hinner
      obtain ⟨⟨i, e, m⟩, hcut, heq⟩ := Option.map_eq_some_iff.mp hinner
      cases heq
      rcases cutInitializer?_step depth c.text with
        ⟨-, -, hd⟩ | ⟨-, -, hd⟩ | ⟨-, -, hd⟩
      · exact hd c _ rfl
      · rw [hd c xs rfl] at h
        cases h
      · rw [hd c xs rfl, Option.map_eq_none_iff] at h
        -- both depths move by the same, so they stay apart
        have hshift : depth + shift c.text ≠ inner + shift c.text := by
          omega
        exact (hd c _ rfl).trans
          (Option.map_eq_none_iff.mpr (ih hcut hshift h))

/-! ## The parts of a declaration -/

/-- **A declaration in its parts**: what comes before the separator, with the
type it begins with and the name it declares, and what comes after. All that
is known of the parts goes with them. -/
structure Parts (xs lead type after : List Cell) (name sep : Cell) : Prop where
  eq_append : xs = lead ++ sep :: after
  plain : ∀ x ∈ lead, Plain x.text
  subset : type ⊆ lead
  type_ne_nil : type ≠ []
  isName_type : ∀ x ∈ type, Token.isName x.text = true
  name_mem : name ∈ lead

theorem mem_of_nameCell? {name : Cell} (h : nameCell? xs = some name) :
    name ∈ xs := by
  rcases xs with _ | ⟨c, _ | ⟨d, xs⟩⟩
  · cases h
  · cases h
    exact List.mem_cons_self
  · rw [nameCell?] at h
    split at h
    · cases h
      exact List.mem_cons_of_mem _ List.mem_cons_self
    · cases h
      exact List.mem_cons_self

/-- **The declaration that comes next has its parts**, and it is split at its
separator, in one of two ways. -/
theorem exists_parts {pool : SlotPool} {s : Split}
    (h : next? before xs pool = some s) :
    Token.startsWithAny ['{', '}', ';'] before = true
      ∧ (shapeOf? xs).isSome = true
      ∧ ∃ lead type after name sep, Parts xs lead type after name sep
        ∧ (sep.text = "," ∧ s = atComma lead type sep after pool
          ∨ sep.text = "="
            ∧ atEquals? lead type name sep after pool = some s) := by
  obtain ⟨hbefore, shape, lead, sep, after, name, hshape, rfl, hlen, hname,
    hs⟩ := cells_of_next? h
  obtain ⟨hplain, hsep, htype⟩ := lead_of_shapeOf? hshape hlen
  have hpos := type_lt_before (mem_shapes_of_shapeOf? hshape).1
  refine ⟨hbefore, by rw [hshape]; rfl, lead, lead.take shape.type, after, name,
    sep, ⟨rfl, hplain, List.take_subset _ _, ?_, htype,
      List.mem_of_mem_drop (mem_of_nameCell? hname)⟩, ?_⟩
  · intro hnil
    have := congrArg List.length hnil
    rw [List.length_take, List.length_nil] at this
    omega
  · rcases hs with hcomma | ⟨hne, heq⟩
    · exact Or.inl hcomma
    · exact Or.inr ⟨hsep.resolve_left hne, heq⟩

/-- Where a declaration begins is a matter of the cells up to its
separator. -/
theorem isSome_shapeOf? {after' : List Cell}
    (h : (shapeOf? (lead ++ sep :: after)).isSome = true)
    (hlead : ∀ x ∈ lead, Plain x.text) (hsep : ¬ Plain sep.text) :
    (shapeOf? (lead ++ sep :: after')).isSome = true := by
  obtain ⟨shape, hshape⟩ := Option.isSome_iff_exists.mp h
  obtain ⟨hmem, hopens⟩ := mem_shapes_of_shapeOf? hshape
  have hlen := (separator_of_shapeOf? hshape hlead hsep).1
  have hle : shape.pattern.pieces.length ≤ (lead ++ [sep]).length := by
    have hlength : (lead ++ [sep]).length = shape.before + 1 := by
      rw [List.length_append, hlen, List.length_singleton]
    exact Nat.le_of_eq ((length_pieces hmem).trans hlength.symm)
  rw [shapeOf?, List.find?_isSome]
  refine ⟨shape, hmem, ?_⟩
  rw [Pattern.opens, List.append_cons, Cell.fits_append hle] at hopens ⊢
  exact hopens

/-- A declaration has a name behind its type. -/
theorem exists_nameCell? (h : shape ∈ shapes)
    (hlen : lead.length = shape.before) :
    ∃ name, nameCell? (lead.drop shape.type) = some name := by
  have hpos := type_lt_before h
  rcases hdrop : lead.drop shape.type with _ | ⟨c, _ | ⟨d, cells⟩⟩
  · have := List.drop_eq_nil_iff.mp hdrop
    omega
  · exact ⟨c, rfl⟩
  · rw [nameCell?]
    split
    · exact ⟨d, rfl⟩
    · exact ⟨c, rfl⟩

/-- **A declaration comes next** where its shape does and its initializer, if
it has one, has an end. So where none comes next one of these is missing. -/
theorem next?_ne_none
    (hbefore : Token.startsWithAny ['{', '}', ';'] before = true)
    (hshape : (shapeOf? (lead ++ sep :: after)).isSome = true)
    (hlead : ∀ x ∈ lead, Plain x.text) (hsep : ¬ Plain sep.text)
    (hcut : sep.text = "," ∨ cutInitializer? 0 after ≠ none)
    (pool : SlotPool) : next? before (lead ++ sep :: after) pool ≠ none := by
  obtain ⟨shape, hshape⟩ := Option.isSome_iff_exists.mp hshape
  have hlen := (separator_of_shapeOf? hshape hlead hsep).1
  obtain ⟨name, hname⟩ :=
    exists_nameCell? (mem_shapes_of_shapeOf? hshape).1 hlen
  rw [next?_of_shapeOf? hbefore hshape hlen hname]
  split
  · exact Option.some_ne_none _
  · next hne =>
    rcases hcut with hcomma | hcut
    · exact absurd (beq_iff_eq.mpr hcomma) hne
    · obtain ⟨⟨init, stop, more⟩, hcut⟩ := Option.ne_none_iff_exists'.mp hcut
      rw [atEquals?, hcut]
      dsimp only
      split <;> exact Option.some_ne_none _

/-- **What is written for a declaration with an initializer** ends in the
name and the `=`, copied. -/
theorem written_of_atEquals? {pool : SlotPool} {s : Split}
    {type : List Cell} {name eq : Cell}
    (h : atEquals? lead type name eq after pool = some s) :
    ∃ n e, s.written = lead ++ [eq.withText ";", n, e]
      ∧ n.text = name.text ∧ e.text = eq.text := by
  have hlen := SlotPool.length_copy pool [name.token, eq.token]
  have htokens := SlotPool.map_token_copy pool [name.token, eq.token]
  obtain ⟨n, e, hcopies⟩ := List.length_eq_two.mp hlen
  rw [hcopies] at htokens
  obtain ⟨hn, he⟩ := List.cons.inj htokens
  refine ⟨n, e, ?_, Cell.text_eq hn, Cell.text_eq (List.cons.inj he).1⟩
  obtain ⟨_, _, _, -, hs⟩ := cells_of_atEquals? h
  rcases hs with ⟨-, rfl⟩ | ⟨-, rfl⟩ <;> rw [hcopies]

/-- **What is left of a declaration with an initializer** ends no other
initializer, as little as what came after its `=` did. -/
theorem cutInitializer?_left {pool : SlotPool} {s : Split}
    {type : List Cell} {name eq : Cell} {depth : Int}
    (h : atEquals? lead type name eq after pool = some s)
    (htype : ∀ x ∈ type, Neutral x.text)
    (hafter : cutInitializer? depth after = none) :
    depth ≠ 0 ∧ cutInitializer? depth s.left = none := by
  obtain ⟨init, stop, more, hcut, hs⟩ := cells_of_atEquals? h
  have hne : depth ≠ 0 := by
    rintro rfl
    rw [hcut] at hafter
    cases hafter
  refine ⟨hne, ?_⟩
  rcases hs with ⟨hstop, rfl⟩ | ⟨-, rfl⟩
  · exact cutInitializer?_split hcut hne hstop rfl htype _ hafter
  · rwa [eq_append_of_cutInitializer? hcut] at hafter

end Declaration

/-! ## What splitting leaves in place -/

section Split

variable {c : Cell} {cells rest : List Cell} {pool : SlotPool}

/-- **Splitting agrees with the cells** up to the first token behind which a
statement can begin. -/
theorem agree_splitDeclarations (cells : List Cell) (pool : SlotPool) :
    Cell.Agree ['{', '}', ';'] cells (splitDeclarations cells pool).cells := by
  fun_induction splitDeclarations cells pool with
  | case1 pool => trivial
  | case2 pool c rest s hnext ih =>
    exact Or.inl ⟨rfl, Or.inl (Declaration.exists_parts hnext).1⟩
  | case3 pool c rest _ ih => exact Or.inl ⟨rfl, Or.inr ih⟩

/-- The first cell stays. -/
theorem cells_splitDeclarations_cons (c : Cell) (rest : List Cell)
    (pool : SlotPool) :
    ∃ tail, (splitDeclarations (c :: rest) pool).cells = c :: tail := by
  cases h : Declaration.next? c.text rest pool with
  | none => exact ⟨_, by rw [splitDeclarations_of_next?_eq_none h]; rfl⟩
  | some s => exact ⟨_, by rw [splitDeclarations_of_next? h]; rfl⟩

namespace Declaration

theorem next?_of_not_begins {before : String}
    (h : Token.startsWithAny ['{', '}', ';'] before = false)
    (rest : List Cell) (pool : SlotPool) : next? before rest pool = none := by
  rw [next?, h]
  rfl

/-- Cells at which no statement begins are left as they are. -/
theorem splitDeclarations_append {xs : List Cell}
    (h : ∀ x ∈ xs, Token.startsWithAny ['{', '}', ';'] x.text = false)
    (rest : List Cell) (pool : SlotPool) :
    splitDeclarations (xs ++ rest) pool
      = (splitDeclarations rest pool).prepend xs := by
  induction xs with
  | nil => rfl
  | cons x xs ih =>
    rw [List.cons_append, splitDeclarations_of_next?_eq_none
      (next?_of_not_begins (h x List.mem_cons_self) _ pool),
      ih fun y hy => h y (List.mem_cons_of_mem _ hy), Edit.cons_prepend]

/-- **Up to the first separator nothing is split** where no statement
begins. -/
theorem exists_of_splitDeclarations_eq {lead after : List Cell} {sep : Cell}
    (h : (splitDeclarations cells pool).cells = lead ++ sep :: after)
    (hlead : ∀ x ∈ lead, Plain x.text)
    (hsep : Token.startsWithAny ['{', '}', ';'] sep.text = false) :
    ∃ after' q, cells = lead ++ sep :: after'
      ∧ (splitDeclarations after' q).cells = after := by
  induction lead generalizing cells with
  | nil =>
    cases cells with
    | nil =>
      rw [splitDeclarations] at h
      cases h
    | cons c rest =>
      obtain ⟨_, htail⟩ := cells_splitDeclarations_cons c rest pool
      obtain rfl : c = sep := (List.cons.inj (htail.symm.trans h)).1
      rw [splitDeclarations_of_next?_eq_none (next?_of_not_begins hsep _ _)]
        at h
      exact ⟨rest, pool, rfl, (List.cons.inj h).2⟩
  | cons x lead ih =>
    cases cells with
    | nil =>
      rw [splitDeclarations] at h
      cases h
    | cons c rest =>
      obtain ⟨_, htail⟩ := cells_splitDeclarations_cons c rest pool
      obtain rfl : c = x := (List.cons.inj (htail.symm.trans h)).1
      have hc : Token.startsWithAny ['{', '}', ';'] c.text = false :=
        (hlead c List.mem_cons_self).startsWithAny (by decide)
      rw [splitDeclarations_of_next?_eq_none (next?_of_not_begins hc _ _)] at h
      obtain ⟨after', q, rfl, hafter⟩ := ih (List.cons.inj h).2
        fun y hy => hlead y (List.mem_cons_of_mem _ hy)
      exact ⟨after', q, rfl, hafter⟩

/-- **An initializer without an end gets none** when what comes after is
split. By induction along the pass, at all depths at once: a split further in
is seen from another depth. -/
theorem cutInitializer?_splitDeclarations {depth : Int}
    (h : cutInitializer? depth cells = none) :
    cutInitializer? depth (splitDeclarations cells pool).cells = none := by
  fun_induction splitDeclarations cells pool generalizing depth with
  | case1 pool => exact h
  | case2 pool c rest s hnext ih =>
    obtain ⟨-, -, lead, type, after, name, sep, hparts, hs⟩ :=
      exists_parts hnext
    obtain rfl := hparts.eq_append
    have hlead : ∀ x ∈ lead, Neutral x.text :=
      fun x hx => (hparts.plain x hx).neutral
    have htype : ∀ x ∈ type, Neutral x.text :=
      fun x hx => hlead x (hparts.subset hx)
    rw [Edit.cells_plus, Edit.cells_prepend, List.cons_append]
    -- the depth behind the first cell is any, so nothing is said of it
    refine cutInitializer?_cons h fun d hd => ?_
    replace hd := (cutInitializer?_append hlead d _).mp hd
    rcases hs with ⟨hsep, rfl⟩ | ⟨hsep, heq⟩
    · obtain ⟨hne, hafter⟩ := (cutInitializer?_ending (Or.inl hsep) d _).mp hd
      refine (cutInitializer?_append hlead d _).mpr (ih ?_)
      exact cutInitializer?_retype rfl hne htype pool hafter
    · have hafter := (cutInitializer?_neutral (hsep ▸ neutral_equals) d _).mp hd
      obtain ⟨hne, hleft⟩ := cutInitializer?_left heq htype hafter
      obtain ⟨n, e, hwritten, hn, he⟩ := written_of_atEquals? heq
      have hneutral : ∀ x ∈ [n, e], Neutral x.text := by
        refine List.forall_mem_cons.mpr ⟨?_, List.forall_mem_singleton.mpr ?_⟩
        · exact hn ▸ hlead name hparts.name_mem
        · exact he.trans hsep ▸ neutral_equals
      rw [hwritten, List.append_assoc]
      refine (cutInitializer?_append hlead d _).mpr ?_
      exact (cutInitializer?_ending (Or.inr rfl) d _).mpr
        ⟨hne, (cutInitializer?_append hneutral d _).mpr (ih hleft)⟩
  | case3 pool c rest hnext ih =>
    exact cutInitializer?_cons h fun d hd => ih hd

/-! ## Where there is nothing to split -/

/-- No declaration comes next that can be split, whatever slots are at hand. -/
def Settled (before : String) (rest : List Cell) : Prop :=
  ∀ pool, next? before rest pool = none

/-- No statement begins behind a plain text. -/
theorem settled_of_plain {text : String} (h : Plain text)
    (rest : List Cell) : Settled text rest :=
  next?_of_not_begins (h.startsWithAny (by decide)) rest

/-- Nothing is split where no shape of a declaration comes next. -/
theorem settled_of_shapeOf?_eq_none (h : shapeOf? rest = none)
    (before : String) : Settled before rest := by
  intro pool
  rw [next?, h]
  split <;> rfl

/-- **Nothing to split is left** before a `;` that was a separator. -/
theorem settled_of_semicolon {lead : List Cell} {semi : Cell}
    (hlead : ∀ x ∈ lead, Plain x.text) (hsemi : semi.text = ";")
    (before : String) (tail : List Cell) :
    Settled before (lead ++ semi :: tail) := by
  refine settled_of_shapeOf?_eq_none ?_ before
  refine shapeOf?_eq_none hlead (not_plain_of_semicolon hsemi) ?_
  rw [hsemi]
  rintro (h | h)
  · exact absurd h (by decide)
  · exact absurd h (by decide)

/-- Nothing is split before a name with a `=` behind it. -/
theorem settled_of_equals {n e : Cell} (hn : Plain n.text) (he : e.text = "=")
    (before : String) (tail : List Cell) :
    Settled before (n :: e :: tail) :=
  settled_of_shapeOf?_eq_none
    (shapeOf?_eq_none (List.forall_mem_singleton.mpr hn)
      (not_plain_of_separator (Or.inr he)) fun _ => Nat.one_lt_two) before

/-- **Where no declaration comes next none does** when what comes is split:
neither a shape nor an end comes about. -/
theorem Settled.splitDeclarations {before : String}
    (h : next? before rest pool = none) :
    Settled before (splitDeclarations rest pool).cells := by
  refine fun q => Option.eq_none_iff_forall_ne_some.mpr fun s hnext => ?_
  obtain ⟨hbefore, hshape, lead, type, after, name, sep, hparts, hs⟩ :=
    exists_parts hnext
  have hsep : sep.text = "," ∨ sep.text = "=" := hs.imp And.left And.left
  have hbegins : Token.startsWithAny ['{', '}', ';'] sep.text = false := by
    rcases hsep with hsep | hsep <;> rw [hsep] <;> decide +kernel
  obtain ⟨after', q', rfl, hafter⟩ :=
    exists_of_splitDeclarations_eq hparts.eq_append hparts.plain hbegins
  rw [hparts.eq_append] at hshape
  have hplain := not_plain_of_separator hsep
  refine next?_ne_none hbefore (isSome_shapeOf? hshape hparts.plain hplain)
    hparts.plain hplain ?_ pool h
  rcases hs with ⟨hcomma, -⟩ | ⟨-, heq⟩
  · exact Or.inl hcomma
  · refine Or.inr fun hcut => ?_
    obtain ⟨_, _, _, hsome, -⟩ := cells_of_atEquals? heq
    rw [← hafter, cutInitializer?_splitDeclarations hcut] at hsome
    cases hsome

end Declaration

/-- **Declarations are settled** when they have been split, all of them at
once. -/
theorem declaration_settled_splitDeclarations (cells : List Cell)
    (pool : SlotPool) :
    Cell.Everywhere Declaration.Settled
      (splitDeclarations cells pool).cells := by
  fun_induction splitDeclarations cells pool with
  | case1 pool => trivial
  | case2 pool c rest s hnext ih =>
    obtain ⟨-, -, lead, type, after, name, sep, hparts, hs⟩ :=
      Declaration.exists_parts hnext
    have hlead : ∀ x ∈ lead, ∀ tail, Declaration.Settled x.text tail :=
      fun x hx => Declaration.settled_of_plain (hparts.plain x hx)
    rw [Edit.cells_plus, Edit.cells_prepend, List.cons_append]
    rcases hs with ⟨-, rfl⟩ | ⟨hsep, heq⟩
    · obtain ⟨tail, htail⟩ := cells_splitDeclarations_cons (sep.withText ";")
        ((pool.copy (type.map Cell.token)).1 ++ after)
        (pool.copy (type.map Cell.token)).2
      refine ⟨?_, ih.prepend hlead⟩
      dsimp only [Declaration.atComma]
      rw [htail]
      exact Declaration.settled_of_semicolon hparts.plain rfl _ _
    · obtain ⟨n, e, hwritten, hn, he⟩ := Declaration.written_of_atEquals? heq
      have hplain : Declaration.Plain n.text :=
        hn ▸ hparts.plain name hparts.name_mem
      have hbegins : Token.startsWithAny ['{', '}', ';'] e.text = false := by
        rw [he, hsep]
        decide +kernel
      rw [hwritten, List.append_assoc]
      exact ⟨Declaration.settled_of_semicolon hparts.plain rfl _ _,
        Cell.Everywhere.prepend
          ⟨Declaration.settled_of_equals hplain (he.trans hsep) _ _,
            Declaration.settled_of_plain hplain _,
            Declaration.next?_of_not_begins hbegins _, ih⟩ hlead⟩
  | case3 pool c rest hnext ih =>
    exact ⟨Declaration.Settled.splitDeclarations hnext, ih⟩

/-- **Settled declarations are not split again**, and no slot is taken. -/
theorem splitDeclarations_eq_unchanged {cells : List Cell}
    (h : Cell.Everywhere Declaration.Settled cells) (pool : SlotPool) :
    splitDeclarations cells pool = .unchanged cells pool := by
  induction cells generalizing pool with
  | nil => rw [splitDeclarations]
  | cons c rest ih =>
    rw [splitDeclarations_of_next?_eq_none (h.1 pool), ih h.2]
    rfl

end Split

/-! ## What stays settled -/

/-- A name of which a statement is true where something comes after it. -/
def NameIn (P : String → List Cell → Prop) (text : String) : Prop :=
  Token.isName text = true ∧ ∃ xs, xs ≠ [] ∧ P text xs

/-- **What splitting leaves true**: a statement about the places of some cells
that sees nothing but edits it can put up with. The work of each earlier pass
is shown to be one. -/
structure Splittable (P : String → List Cell → Prop) : Prop where
  agree : ∀ {before : String} {xs ys : List Cell},
    Cell.Agree ['{', '}', ';'] xs ys → P before xs → P before ys
  separated : ∀ {before : String} {t : Cell} {rest : List Cell},
    before = ";" ∨ before = "," → Token.isName t.text = true →
      P before (t :: rest)
  name : ∀ {text : String} {ys : List Cell}, NameIn P text → P "," ys →
    P text ys
  copied : ∀ {n e : Cell} {rest : List Cell}, e.text = "=" →
    P ";" (n :: e :: rest)
  equals : ∀ {text : String} {xs : List Cell} {e : Cell} {rest : List Cell},
    xs ≠ [] → P text xs → e.text = "=" → P text (e :: rest)

namespace Splittable

variable {P : String → List Cell → Prop}

/-- Names between a comma and what came after it. -/
theorem everywhere_names (hP : Splittable P) {types after : List Cell}
    (htypes : ∀ t ∈ types, NameIn P t.text) (hcomma : P "," after)
    (hafter : Cell.Everywhere P after) :
    P "," (types ++ after) ∧ Cell.Everywhere P (types ++ after) := by
  induction types with
  | nil => exact ⟨hcomma, hafter⟩
  | cons t types ih =>
    have ht := htypes t List.mem_cons_self
    obtain ⟨hcons, hrest⟩ := ih fun u hu => htypes u (List.mem_cons_of_mem _ hu)
    exact ⟨hP.separated (Or.inr rfl) ht.1, hP.name ht hcons, hrest⟩

/-- **A comma split**: a `;` and the type in front of what came after. What
holds behind a comma holds behind the type, as neither is anything that the
passes look for. -/
theorem everywhere_retype (hP : Splittable P) {type after : List Cell}
    {semi : Cell} (hsemi : semi.text = ";") (hne : type ≠ [])
    (htype : ∀ t ∈ type, NameIn P t.text)
    (hcomma : P "," after) (hafter : Cell.Everywhere P after)
    (q : SlotPool) :
    Cell.Everywhere P
      (semi :: ((q.copy (type.map Cell.token)).1 ++ after)) := by
  have hcopies := Declaration.forall_mem_copy htype q
  refine ⟨?_, (hP.everywhere_names hcopies hcomma hafter).2⟩
  rw [hsemi]
  cases hcopy : (q.copy (type.map Cell.token)).1 with
  | nil =>
    have hlen := SlotPool.length_copy q (type.map Cell.token)
    rw [hcopy, List.length_map] at hlen
    exact absurd (List.eq_nil_of_length_eq_zero hlen.symm) hne
  | cons t types =>
    rw [hcopy] at hcopies
    exact hP.separated (Or.inl rfl) (hcopies t List.mem_cons_self).1

/-- **What is left of a declaration with an initializer**, which ends at a
comma or not. In the first case the type is copied behind it. -/
theorem everywhere_left (hP : Splittable P) {lead type after : List Cell}
    {name sep : Cell} {pool : SlotPool} {s : Declaration.Split}
    (h : Declaration.atEquals? lead type name sep after pool = some s)
    (hne : type ≠ []) (htype : ∀ t ∈ type, NameIn P t.text)
    (hinit : P "=" after) (hafter : Cell.Everywhere P after) :
    P "=" s.left ∧ Cell.Everywhere P s.left := by
  obtain ⟨init, stop, more, hcut, hs⟩ := Declaration.cells_of_atEquals? h
  obtain rfl := Declaration.eq_append_of_cutInitializer? hcut
  rcases hs with ⟨hstop, rfl⟩ | ⟨-, rfl⟩
  · have hend : Cell.Ended stop.text (stop.withText ";").text :=
      ⟨Or.inl hstop, rfl⟩
    obtain ⟨hcomma, hmore⟩ : P stop.text more ∧ Cell.Everywhere P more :=
      hafter.right
    rw [hstop] at hcomma
    exact ⟨hP.agree ((Cell.Agree.ended hend _ _).append init) hinit,
      Cell.Everywhere.ended (P := P) hP.agree hafter hend
        (hP.everywhere_retype rfl hne htype hcomma hmore _)⟩
  · exact ⟨hinit, hafter⟩

/-- **Splitting leaves a statement true** that it is bound to leave true in
its single steps. -/
theorem everywhere_splitDeclarations (hP : Splittable P)
    {cells : List Cell} (h : Cell.Everywhere P cells) (pool : SlotPool) :
    Cell.Everywhere P (splitDeclarations cells pool).cells := by
  fun_induction splitDeclarations cells pool with
  | case1 pool => trivial
  | case2 pool c rest s hnext ih =>
    obtain ⟨-, -, lead, type, after, name, sep, hparts, hs⟩ :=
      Declaration.exists_parts hnext
    obtain rfl := hparts.eq_append
    have hall : Cell.Everywhere P ((c :: lead) ++ sep :: after) := h
    have hlead : ∀ t ∈ lead, ∃ xs, xs ≠ [] ∧ P t.text xs :=
      fun t ht => hall.exists_of_mem (List.mem_cons_of_mem _ ht)
    have htype : ∀ t ∈ type, NameIn P t.text := fun t ht =>
      ⟨hparts.isName_type t ht, hlead t (hparts.subset ht)⟩
    obtain ⟨hsep, hafter⟩ : P sep.text after ∧ Cell.Everywhere P after :=
      hall.right
    rw [Edit.cells_plus, Edit.cells_prepend]
    -- the separator becomes a `;`; what is behind it is the type and the rest
    -- after a comma, and copies of the name and the `=` after an `=`
    rcases hs with ⟨hcomma, rfl⟩ | ⟨hequals, heq⟩
    · rw [hcomma] at hsep
      have hleft := ih (hP.everywhere_retype rfl hparts.type_ne_nil htype hsep
        hafter pool)
      obtain ⟨tail, htail⟩ := cells_splitDeclarations_cons (sep.withText ";")
        ((pool.copy (type.map Cell.token)).1 ++ after)
        (pool.copy (type.map Cell.token)).2
      dsimp only [Declaration.atComma] at hleft ⊢
      rw [htail] at hleft ⊢
      exact Cell.Everywhere.ended (P := P) hP.agree hall ⟨Or.inl hcomma, rfl⟩
        hleft
    · rw [hequals] at hsep
      obtain ⟨hinit, hleft⟩ := hP.everywhere_left heq hparts.type_ne_nil htype
        hsep hafter
      obtain ⟨n, e, hwritten, hn, he⟩ := Declaration.written_of_atEquals? heq
      obtain ⟨xs, hxs, hname⟩ := hlead name hparts.name_mem
      rw [← hn] at hname
      rw [hequals] at he
      have hrest : Cell.Everywhere P
          (n :: e :: (splitDeclarations s.left s.pool).cells) := by
        refine ⟨hP.equals hxs hname he, ?_, ih hleft⟩
        rw [he]
        exact hP.agree (agree_splitDeclarations s.left s.pool) hinit
      rw [hwritten, ← List.cons_append, List.append_assoc]
      exact Cell.Everywhere.ended (P := P) hP.agree hall ⟨Or.inr hequals, rfl⟩
        ⟨hP.copied he, hrest⟩
  | case3 pool c rest hnext ih =>
    exact ⟨hP.agree (agree_splitDeclarations rest pool) h.1, ih h.2⟩

end Splittable

/-- Splitting brings no `unsigned` in front of anything. -/
theorem splittable_unsigned : Splittable Unsigned.Settled where
  agree := fun hagree h hu => hagree.eq_nil_iff.mp (h hu)
  separated := fun hbefore _ => Unsigned.settled_of_ne
    (by rcases hbefore with rfl | rfl <;> decide) _
  name := fun ⟨_, _, hxs, h⟩ _ => Unsigned.settled_of_ne (h.ne hxs) _
  copied := fun _ => Unsigned.settled_of_ne (by decide) _
  equals := fun hxs h _ => Unsigned.settled_of_ne (h.ne hxs) _

theorem Arithmetic.inert_equals : Arithmetic.Inert "=" :=
  Arithmetic.inert_of_startsWithAny
    (by decide +kernel : Token.startsWithAny ['='] "=" = true) (by decide)

/-- Splitting leaves no arithmetic to be folded. -/
theorem splittable_arithmetic : Splittable Arithmetic.Settled where
  agree := fun hagree h => h.of_agree (by decide) hagree
  separated := fun _ ht =>
    Arithmetic.settled_of_inert (Arithmetic.inert_of_isName ht) _ _
  name := fun ht h => h.of_before (by decide)
    (Token.startsWithAny_of_isName ht.1 (by decide))
  copied := fun he =>
    Arithmetic.settled_of_inert_second (he ▸ Arithmetic.inert_equals) _ _ _
  equals := fun _ _ he =>
    Arithmetic.settled_of_inert (he ▸ Arithmetic.inert_equals) _ _

/-- Splitting leaves no subscript to be written. -/
theorem splittable_subscript : Splittable Subscript.Settled where
  agree := fun hagree h => h.of_agree (by decide +kernel) hagree
  separated := fun _ ht => Subscript.settled_of_ne_star
    (Token.ne_of_isName ht (by decide +kernel)) _ _
  name := fun ht _ => Subscript.settled_of_context
    (Token.startsWithAny_of_isName ht.1 (by decide)) _
  copied := fun he => Subscript.settled_of_ne_paren
    (he ▸ by decide) _ _ _
  equals := fun _ _ he => Subscript.settled_of_ne_star
    (he ▸ by decide) _ _

end FlatC
