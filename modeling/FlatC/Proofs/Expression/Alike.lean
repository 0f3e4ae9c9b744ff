import FlatC.Proofs.Expression.Parsing

/-!
# Expressions alike

Two expressions are **alike** if they have the same value, whatever is
assigned to their variables. In a factor and in a term there is more to see
than the value, namely whether there is a division by a negated 1, which
decides how a term may go on. Alike are then those that nothing around them
tells apart, and so are the places in a tree that make alike what is alike.

A parse goes on alike from what is alike (`Parse.Steps.exists_alike`). So when
some tokens are replaced by others, it is enough to look at what has been read
where the replaced tokens end.

What this is good for are factors 1. Behind a term they change nothing
(`Term.alike_product_one`). In front of a factor they change nothing where the
factor is not the right side of a division (`FactorPlace.alike_behind_one`):
all signs in front of the factor are then a number that its value is
multiplied by.
-/

namespace FlatC

/-! ## What is alike -/

/-- **Factors alike**: of the same value under every assignment, and both 1,
or both a negated 1, or neither. The last two are all that a term looks at in
its factors besides their values. -/
structure Factor.Alike (f f' : Factor) : Prop where
  value : ∀ assigned, f.value? assigned = f'.value? assigned
  isOne : f.isOne = f'.isOne
  isNegatedOne : f.isNegatedOne = f'.isNegatedOne

/-- **Terms alike**: of the same value under every assignment, and with the
same answer to whether they end with a division by a negated 1. That answer
decides whether the term may go on with `*`, so equal values alone would not
be kept by a parse. -/
structure Term.Alike (t t' : Term) : Prop where
  value : ∀ assigned, t.value? assigned = t'.value? assigned
  divides : t.dividesByNegatedOne = t'.dividesByNegatedOne

/-- **Expressions alike**: of the same value under every assignment, undefined
divisions included. Parentheses hide everything else about an expression, so
here the value is enough. -/
def Expression.Alike (e e' : Expression) : Prop :=
  ∀ assigned, e.value? assigned = e'.value? assigned

/-- Places of a factor alike: they make alike terms of alike factors. It is
stated by what the places do, so places of different shape can be alike, such
as one behind `1 *` and the one without. -/
structure FactorPlace.Alike (p p' : FactorPlace) : Prop where
  plug : ∀ {f f' : Factor}, f.Alike f' → (p.plug f).Alike (p'.plug f')

/-- Places of a term alike: they make alike expressions of alike terms. As for
factors, the shapes of the two places may differ. -/
structure TermPlace.Alike (q q' : TermPlace) : Prop where
  plug : ∀ {t t' : Term}, t.Alike t' → (q.plug t).Alike (q'.plug t')

/-- Places of parentheses alike: alike as places of a factor, and in places of
a term that are alike. -/
structure GroupPlace.Alike (g g' : GroupPlace) : Prop where
  factor : g.factor.Alike g'.factor
  term : g.term.Alike g'.term

variable {f f' : Factor} {t t' : Term} {e e' : Expression}
variable {p p' : FactorPlace} {q q' : TermPlace}
variable {outer outer' : List GroupPlace}

/-- Every factor is like itself. -/
theorem Factor.Alike.refl (f : Factor) : f.Alike f :=
  ⟨fun _ => rfl, rfl, rfl⟩

/-- Every term is like itself. -/
theorem Term.Alike.refl (t : Term) : t.Alike t :=
  ⟨fun _ => rfl, rfl⟩

/-- A sign in front keeps factors alike. Whether the outcome is a negated 1
depends on both of the answers that alike factors share. -/
theorem Factor.Alike.negated (h : f.Alike f') :
    (Factor.negated f).Alike (.negated f') :=
  ⟨fun assigned => congrArg (·.map fun n => -n) (h.value assigned), rfl,
    congrArg₂ (· || ·) h.isOne h.isNegatedOne⟩

/-- Parentheses around expressions alike make factors alike: a group is
neither 1 nor a negated 1, whatever is in it. -/
theorem Expression.Alike.group (h : e.Alike e') :
    (Factor.group e).Alike (.group e') :=
  ⟨h, rfl, rfl⟩

/-- Factors alike are alike as terms, where no division has been read yet. -/
theorem Factor.Alike.factor (h : f.Alike f') :
    (Term.factor f).Alike (.factor f') :=
  ⟨h.value, rfl⟩

/-- Terms and factors alike make products alike. A factor 1 hands on what its
left side ends with, so both parts of being alike are needed on both sides. -/
theorem Term.Alike.product (op : ProductSign) (ht : t.Alike t')
    (hf : f.Alike f') : (Term.product t op f).Alike (.product t' op f') := by
  constructor
  · intro assigned
    rw [Term.value?, Term.value?, ht.value, hf.value]
  · rw [Term.dividesByNegatedOne, Term.dividesByNegatedOne, ht.divides,
      hf.isOne, hf.isNegatedOne]

/-- Terms alike are alike as expressions. -/
theorem Term.Alike.term (h : t.Alike t') :
    (Expression.term t).Alike (.term t') :=
  h.value

/-- Expressions and terms alike make sums alike. -/
theorem Expression.Alike.sum (op : SumSign) (he : e.Alike e')
    (ht : t.Alike t') : (Expression.sum e op t).Alike (.sum e' op t') := by
  intro assigned
  rw [Expression.value?, Expression.value?, he, ht.value]

/-! ## Places alike -/

namespace FactorPlace

/-- At the front of a term, factors alike make terms alike. -/
theorem Alike.first : Alike .first .first :=
  ⟨fun hf => hf.factor⟩

/-- Behind terms alike and the same sign, factors alike make terms alike. -/
theorem Alike.behind (op : ProductSign) (ht : t.Alike t') :
    Alike (.behind t op) (.behind t' op) :=
  ⟨fun hf => ht.product op hf⟩

/-- Places alike stay so behind a further sign. -/
theorem Alike.negated (h : p.Alike p') : Alike (.negated p) (.negated p') :=
  ⟨fun hf => h.plug hf.negated⟩

/-- Every place of a factor is like itself, by induction on the signs that it
has in front. -/
theorem Alike.refl (p : FactorPlace) : p.Alike p := by
  induction p with
  | first => exact .first
  | behind t op => exact .behind op (.refl t)
  | negated p ih => exact ih.negated

end FactorPlace

namespace TermPlace

/-- At the front of an expression, terms alike make expressions alike. -/
theorem Alike.first : Alike .first .first :=
  ⟨fun ht => ht.term⟩

/-- Behind expressions alike and the same sign, terms alike make expressions
alike. -/
theorem Alike.behind (op : SumSign) (he : e.Alike e') :
    Alike (.behind e op) (.behind e' op) :=
  ⟨fun ht => he.sum op ht⟩

/-- Every place of a term is like itself. -/
theorem Alike.refl (q : TermPlace) : q.Alike q := by
  cases q with
  | first => exact .first
  | behind e op => exact .behind op fun _ => rfl

end TermPlace

/-- Every stack of open parentheses is like itself, place by place. -/
theorem GroupPlace.forall₂_alike_refl (outer : List GroupPlace) :
    List.Forall₂ GroupPlace.Alike outer outer :=
  List.forall₂_same.mpr fun g _ => ⟨.refl g.factor, .refl g.term⟩

/-! ## Parses alike -/

namespace Parse

/-- **Parses alike**: what they have read is, part by part. Both wait for the
same kind of terminal, inside equally many open parentheses. -/
inductive Alike : Parse → Parse → Prop
  | start : Alike start start
  | awaiting {p p' : FactorPlace} {q q' : TermPlace}
    {outer outer' : List GroupPlace} : p.Alike p' → q.Alike q' →
    List.Forall₂ GroupPlace.Alike outer outer' →
    Alike (awaiting p q outer) (awaiting p' q' outer')
  | holding {t t' : Term} {q q' : TermPlace}
    {outer outer' : List GroupPlace} : t.Alike t' → q.Alike q' →
    List.Forall₂ GroupPlace.Alike outer outer' →
    Alike (holding t q outer) (holding t' q' outer')
  | done {e e' : Expression} : e.Alike e' → Alike (done e) (done e')

variable {s s' u : Parse} {a : Terminal} {as : List Terminal}

/-- **A terminal is read alike.** What one parse can read, a parse alike can
read too, and they are alike again. Only `*` asks something of what has been
read, and that is a part of terms being alike. -/
theorem Step.exists_alike (h : Step Term.GoesOn s a u) (halike : s.Alike s') :
    ∃ u', Step Term.GoesOn s' a u' ∧ u.Alike u' := by
  cases h with
  | equals =>
    cases halike
    exact ⟨_, .equals, .awaiting .first .first .nil⟩
  | name x =>
    cases halike with
    | awaiting hp hq houter =>
      exact ⟨_, .name x, .holding (hp.plug (.refl _)) hq houter⟩
  | number n =>
    cases halike with
    | awaiting hp hq houter =>
      exact ⟨_, .number n, .holding (hp.plug (.refl _)) hq houter⟩
  | negated =>
    cases halike with
    | awaiting hp hq houter =>
      exact ⟨_, .negated, .awaiting hp.negated hq houter⟩
  | opening =>
    cases halike with
    | awaiting hp hq houter =>
      exact ⟨_, .opening, .awaiting .first .first (.cons ⟨hp, hq⟩ houter)⟩
  | product op hgoes =>
    cases halike with
    | holding ht hq houter =>
      have hgoes' : Term.GoesOn _ op := fun htimes =>
        ht.divides.symm.trans (hgoes htimes)
      exact ⟨_, .product op hgoes', .awaiting (.behind op ht) hq houter⟩
  | sum op =>
    cases halike with
    | holding ht hq houter =>
      exact ⟨_, .sum op, .awaiting .first (.behind op (hq.plug ht)) houter⟩
  | closing =>
    cases halike with
    | holding ht hq houter =>
      cases houter with
      | cons hg houter =>
        exact ⟨_, .closing,
          .holding (hg.factor.plug (hq.plug ht).group) hg.term houter⟩
  | semicolon =>
    cases halike with
    | holding ht hq houter =>
      cases houter
      exact ⟨_, .semicolon, .done (hq.plug ht)⟩

/-- **Parses go on alike**, over any number of terminals. So whatever stands
behind some replaced tokens is read as before. -/
theorem Steps.exists_alike (h : Steps Term.GoesOn s as u)
    (halike : s.Alike s') :
    ∃ u', Steps Term.GoesOn s' as u' ∧ u.Alike u' := by
  induction h generalizing s' with
  | nil => exact ⟨s', .nil s', halike⟩
  | cons hstep _ ih =>
    obtain ⟨v, hstep', hv⟩ := hstep.exists_alike halike
    obtain ⟨u', hsteps', hu⟩ := ih hv
    exact ⟨u', .cons hstep' hsteps', hu⟩

end Parse

/-! ## Factors 1 -/

/-- **A factor 1 behind a term changes nothing**, neither multiplied nor
divided by. Behind `%` it would make the term 0. -/
theorem Term.alike_product_one {op : ProductSign} (hop : op ≠ .percent) :
    (Term.product t op (.number 1)).Alike t := by
  constructor
  · intro assigned
    rw [Term.value?, Factor.value?]
    cases t.value? assigned with
    | none => rfl
    | some m =>
      cases op with
      | times => exact congrArg some (Int.mul_one m)
      | slash => exact congrArg some (Int.tdiv_one m)
      | percent => exact absurd rfl hop
  · rw [Term.dividesByNegatedOne, bne_iff_ne.mpr hop]
    rfl

namespace FactorPlace

/-- Whether the factor, with its signs, is the right side of a division. The
sign `%` counts as a division, as it does for the terms. -/
def divides : FactorPlace → Bool
  | .first => false
  | .behind _ op => op != .times
  | .negated p => p.divides

/-- **A negated 1 that is divided by** makes a division by a negated 1,
through any number of further signs. So in front of `1 *` there is no such
sign where a term may go on. -/
theorem dividesByNegatedOne_plug (h : p.divides = true)
    (hf : f.isNegatedOne = true) :
    (p.plug f).dividesByNegatedOne = true := by
  induction p generalizing f with
  | first => cases h
  | behind t op =>
    -- a factor is not both 1 and a negated 1
    have hone : f.isOne = false := by
      cases f with
      | negated f => rfl
      | _ => cases hf
    rw [plug, Term.dividesByNegatedOne, hone, hf, Bool.and_false,
      if_neg Bool.false_ne_true, Bool.and_true]
    exact h
  | negated p ih =>
    have hnegated : (Factor.negated f).isNegatedOne = true := by
      rw [Factor.isNegatedOne, hf, Bool.or_true]
    exact ih h hnegated

/-- What is not divided by makes a division by a negated 1 only if it is 1,
and is then like any other factor 1: it hands on what the term in front of it
ends with. -/
theorem dividesByNegatedOne_plug_of_divides_eq_false
    (h : p.divides = false) (f : Factor) :
    (p.plug f).dividesByNegatedOne
      = (f.isOne && (p.plug (.number 1)).dividesByNegatedOne) := by
  induction p generalizing f with
  | first => exact (Bool.and_false _).symm
  | behind t op =>
    obtain rfl : op = .times := by simpa [divides] using h
    show (if f.isOne then t.dividesByNegatedOne else false) = _
    cases f.isOne <;> rfl
  | negated p ih =>
    rw [plug, plug, ih h, ih h (.negated (.number 1))]
    exact (Bool.and_false _).symm

/-- **What is in front of a factor is a number that it is multiplied by**, if
it is not divided by. The number is the same for all factors in that place,
with the signs taken in, and is missing where the term in front has no value. -/
theorem exists_value?_plug (h : p.divides = false) (assigned : String → Int) :
    ∃ k : Option Int, ∀ f, (p.plug f).value? assigned
      = k.bind fun m => (f.value? assigned).map (m * ·) := by
  induction p with
  | first =>
    refine ⟨some 1, fun f => ?_⟩
    rw [Option.bind_some, Option.map_congr fun n _ => Int.one_mul n]
    exact Option.map_id'.symm
  | behind t op =>
    cases op with
    | times =>
      refine ⟨t.value? assigned, fun f => congrArg _ (funext fun m => ?_)⟩
      exact Option.map_eq_bind.symm
    | slash => cases h
    | percent => cases h
  -- the sign is moved from the factor to the number in front of it
  | negated p ih =>
    obtain ⟨k, hk⟩ := ih h
    refine ⟨k.map fun m => -m, fun f => ?_⟩
    rw [plug, hk, Factor.value?, Option.bind_map]
    refine congrArg _ (funext fun m => ?_)
    rw [Option.map_map]
    exact Option.map_congr fun n _ =>
      (Int.mul_neg m n).trans (Int.neg_mul m n).symm

/-- **A factor 1 in front of a factor changes nothing** where that is not
divided by. This is what allows `1 *` to be dropped, and it is false behind
`/`: `6 / 1 * 2` is 12 and `6 / 2` is 3. -/
theorem alike_behind_one (h : p.divides = false) :
    Alike (.behind (p.plug (.number 1)) .times) p := by
  refine ⟨fun {f f'} hf => ⟨fun assigned => ?_, ?_⟩⟩
  · obtain ⟨k, hk⟩ := exists_value?_plug h assigned
    rw [plug, Term.value?, hk, hk, ← hf.value assigned]
    cases k with
    | none => rfl
    | some m =>
      show ((f.value? assigned).bind fun n => some (m * 1 * n)) = _
      rw [Int.mul_one]
      exact Option.map_eq_bind.symm
  · rw [dividesByNegatedOne_plug_of_divides_eq_false h f', ← hf.isOne]
    show (if f.isOne then (p.plug (.number 1)).dividesByNegatedOne else false)
      = _
    cases f.isOne <;> rfl

end FactorPlace

end FlatC
