/-
Linear functions on words, measured against whole numbers of any size.

The values of constant propagation and those without a range are
compared in one order, with `bottom` below and `top` above everything
(`ExactValue.Below`). What is computed on words is never below what
would have been computed without a range: where a sum or a product
leaves the range, the top takes its place.

Composition needs some care. Two functions are composed by their
coefficients, and these may leave the range though no value on the way
does, or the other way round. Either way the composition stays above
(`evalExact_comp_below`), as long as no function of slope zero is
written with a slope: such a function would let the top through where
its constant form does not. That is what the normal form is for.
-/
import Mathlib.Tactic.Ring
import Tabulation.EdgeFunction.Exact
import Tabulation.Lattice.Laws

namespace Tabulation

-- ============================================================= the order

namespace ExactValue

variable {a b c : ExactValue}

/-- The order of values without a range. Different constants are not
comparable, so it is flat. -/
def Below (a b : ExactValue) : Prop := a = .bottom ∨ b = .top ∨ a = b

theorem Below.refl (a : ExactValue) : a.Below a := Or.inr (Or.inr rfl)

theorem bottom_below (a : ExactValue) : Below .bottom a := Or.inl rfl

theorem below_top (a : ExactValue) : a.Below .top := Or.inr (Or.inl rfl)

theorem Below.trans (h : a.Below b) (h' : b.Below c) : a.Below c := by
  unfold Below at h h' ⊢
  grind

theorem Below.antisymm (h : a.Below b) (h' : b.Below a) : a = b := by
  unfold Below at h h'
  grind

/-- Nothing but the bottom is below the bottom. -/
theorem eq_bottom_of_below (h : a.Below .bottom) : a = .bottom := by
  unfold Below at h
  grind

end ExactValue

namespace ConstValue

/-- Constant propagation's values are a semilattice. Joins of different
constants are the top, which is what the order of `ExactValue` has
above both. -/
theorem isSemilattice : lattice.IsSemilattice where
  join_assoc := by
    intro a b c
    show join (join a b) c = join a (join b c)
    cases a <;> cases b <;> cases c <;> simp only [join]
    all_goals grind [join]
  join_comm := by
    intro a b
    show join a b = join b a
    cases a <;> cases b <;> simp only [join]
    grind
  join_idem := by
    intro a
    show join a a = a
    cases a <;> simp [join]
  bottom_join := fun _ => rfl
  top_join := by
    intro a
    show join .top a = .top
    cases a <;> rfl

/-- A join of values is one of them or the top. -/
theorem join_cases (v u : ConstValue) :
    join v u = v ∨ join v u = u ∨ join v u = .top := by
  cases v <;> cases u <;> simp only [join]
  all_goals grind

/-- The order of values is flat: apart from the extremes, a value is
below itself only. -/
theorem flat_of_leq {v u : ConstValue} (h : lattice.leq v u = true) :
    v = .bottom ∨ u = .top ∨ v = u := by
  rw [ValueLattice.leq_iff] at h
  change join v u = u at h
  cases v <;> cases u <;> simp_all [join]

/-- The order of values is that of the exact values that they stand
for. -/
theorem below_of_leq {v u : ConstValue} (h : lattice.leq v u = true) :
    v.toExact.Below u.toExact := by
  rcases flat_of_leq h with rfl | rfl | rfl
  · exact ExactValue.bottom_below _
  · exact ExactValue.below_top _
  · exact .refl _

/-- A value is told by the exact value that it stands for, since a word
is told by its number. -/
theorem toExact_inj {v u : ConstValue} (h : v.toExact = u.toExact) : v = u := by
  cases v <;> cases u <;> simp_all [toExact, Word.ext_iff]

theorem toExact_eq_top {v : ConstValue} : v.toExact = .top ↔ v = .top := by
  cases v <;> simp [toExact]

/-- A value above a constant is that constant or the top. A report of
another constant would be wrong. -/
theorem eq_of_int_below {i : Int} {v : ConstValue}
    (h : (ExactValue.int i).Below v.toExact) :
    v = .top ∨ ∃ w, v = .const w ∧ w.val = i := by
  unfold ExactValue.Below at h
  cases v <;> simp_all [toExact]

end ConstValue

namespace LinearEdge

open ExactValue

variable {f g : LinearEdge} {a b : ExactValue}

-- ========================================================= one function

/-- Functions keep the order, because constants are comparable to the
extremes only. -/
theorem evalExact_mono (f : LinearEdge) (h : a.Below b) :
    (f.evalExact a).Below (f.evalExact b) := by
  unfold Below at h
  rcases h with rfl | rfl | rfl
  · cases f <;> cases b <;> simp [evalExact, Below]
  · cases f <;> cases a <;> simp [evalExact, Below]
  · exact .refl _

/-- Words give the exact value, or the top where a sum or a product
leaves the range. -/
theorem toExact_eval (f : LinearEdge) (v : ConstValue) :
    (f.eval v).toExact = .top ∨ (f.eval v).toExact = f.evalExact v.toExact := by
  cases f with
  | linear a b =>
    cases v with
    | bottom => exact Or.inr rfl
    | top => exact Or.inr rfl
    | const x =>
      simp only [eval, ConstValue.toExact, evalExact]
      cases h : Word.affine? a b x with
      | none => exact Or.inl rfl
      | some y =>
        rw [← Word.val_of_affine? h]
        exact Or.inr rfl
  | allBottom => exact Or.inr rfl
  | allTop => exact Or.inr rfl
  | identity => exact Or.inr rfl
  | const c => exact Or.inr rfl

/-- So what is computed on words is never below the exact value. It is
the same, or the top after an overflow. -/
private theorem evalExact_below_eval (f : LinearEdge) (v : ConstValue) :
    (f.evalExact v.toExact).Below (f.eval v).toExact := by
  rcases toExact_eval f v with h | h
  · rw [h]
    exact below_top _
  · rw [h]
    exact .refl _

/-- The normal form computes what the coefficients say. -/
theorem evalExact_ofCoefficients_int (a b : Word) (x : Int) :
    (ofCoefficients a b).evalExact (.int x) = .int (a.val * x + b.val) := by
  unfold ofCoefficients
  split
  next h => simp [h, evalExact, Word.zero]
  next =>
    split
    next h =>
      obtain ⟨ha, hb⟩ := h
      simp [ha, hb, evalExact, Word.zero, Word.one]
    next => rfl

/-- A slope lets the extremes through. Without one the function is
constant, and does not. -/
theorem evalExact_ofCoefficients_extreme {a : Word} (ha : a ≠ Word.zero)
    (b : Word) {v : ExactValue} (hv : ∀ i, v ≠ .int i) :
    (ofCoefficients a b).evalExact v = v := by
  unfold ofCoefficients
  rw [if_neg ha]
  split
  next => rfl
  next =>
    cases v with
    | bottom => rfl
    | top => rfl
    | int i => exact absurd rfl (hv i)

-- ================================================ composition and join

/-- Compositions of functions in normal form are in normal form. The
one case to look at is that of two slopes, which are normalised anew. -/
theorem isNormal_comp (hf : f.IsNormal) (hg : g.IsNormal) :
    (comp f g).IsNormal := by
  cases g with
  | allBottom => exact trivial
  | allTop => exact trivial
  | const c => exact trivial
  | identity => cases f <;> exact hf
  | linear a₂ b₂ =>
    cases f with
    | identity => exact hg
    | allBottom => exact trivial
    | allTop => exact trivial
    | const c =>
      simp only [comp]
      split <;> exact trivial
    | linear a₁ b₁ =>
      simp only [comp]
      split
      · exact isNormal_ofCoefficients _ _
      · exact trivial

/-- A join is one of its sides, if they agree or the other is the
bottom function, or the top function. -/
theorem join_cases (f g : LinearEdge) :
    join f g = f ∧ (g = f ∨ g = allBottom) ∨ join f g = g ∧ f = allBottom ∨
      join f g = allTop := by
  unfold join
  split
  next heq => exact Or.inl ⟨rfl, Or.inl heq.symm⟩
  next =>
    split
    · exact Or.inr (Or.inl ⟨rfl, rfl⟩)
    · exact Or.inl ⟨rfl, Or.inr rfl⟩
    · exact Or.inr (Or.inr rfl)

/-- Of the two functions that are joined, only the bottom function
leaves no trace. -/
private theorem isNormal_join_left (hf : f.IsNormal) (hne : f ≠ allBottom)
    (g : LinearEdge) : (join f g).IsNormal := by
  unfold join
  split
  · exact hf
  · split
    · exact absurd rfl hne
    · exact hf
    · exact trivial

/-- The other side of it. -/
private theorem isNormal_join_right (f : LinearEdge) (hg : g.IsNormal)
    (hne : g ≠ allBottom) : (join f g).IsNormal := by
  unfold join
  split
  next h =>
    rw [h]
    exact hg
  next =>
    split
    · exact hg
    · exact absurd rfl hne
    · exact trivial

/-- Joins of functions in normal form are in normal form. A join is one
of its sides or an extreme. -/
theorem isNormal_join (hf : f.IsNormal) (hg : g.IsNormal) :
    (join f g).IsNormal := by
  by_cases hne : f = allBottom
  · rw [hne]
    by_cases hne' : g = allBottom
    · rw [hne']
      exact trivial
    · exact isNormal_join_right _ hg hne'
  · exact isNormal_join_left hf hne g

theorem join_self (f : LinearEdge) : join f f = f := by
  unfold join
  exact if_pos rfl

/-- A coefficient of the composition leaves the range of words. This is
decided without looking at any value. -/
def overflows : LinearEdge → LinearEdge → Bool
  | const c, linear a b => (Word.affine? a b c).isNone
  | linear a₁ b₁, linear a₂ b₂ =>
    (a₂.mul? a₁).isNone || (Word.affine? a₂ b₂ b₁).isNone
  | _, _ => false

/-- What overflows is given up. The coefficients of the composition are
not representable, and the top stands for all of them. -/
theorem comp_of_overflows (h : overflows f g = true) : comp f g = allTop := by
  unfold overflows at h
  split at h
  next c a b =>
    simp only [comp, Option.isNone_iff_eq_none.mp h]
  next a₁ b₁ a₂ b₂ =>
    simp only [Bool.or_eq_true, Option.isNone_iff_eq_none] at h
    simp only [comp]
    split
    next ha hb => grind
    next => rfl
  next => cases h

/-- What does not overflow is the two functions one after the other,
over whole numbers of any size. -/
theorem evalExact_comp (hf : f.IsNormal) (hg : g.IsNormal)
    (h : overflows f g = false) (v : ExactValue) :
    (comp f g).evalExact v = g.evalExact (f.evalExact v) := by
  cases g with
  | allBottom => rfl
  | allTop => rfl
  | const c => rfl
  | identity => cases f <;> rfl
  | linear a₂ b₂ =>
    cases f with
    | identity => rfl
    | allBottom => rfl
    | allTop => rfl
    | const c =>
      simp only [overflows, Option.isNone_eq_false_iff] at h
      obtain ⟨y, hy⟩ := Option.isSome_iff_exists.mp h
      simp only [comp, hy, evalExact, Word.val_of_affine? hy]
    | linear a₁ b₁ =>
      simp only [overflows, Bool.or_eq_false_iff,
          Option.isNone_eq_false_iff] at h
      obtain ⟨a, ha⟩ := Option.isSome_iff_exists.mp h.1
      obtain ⟨b, hb⟩ := Option.isSome_iff_exists.mp h.2
      have hslope := Word.mul?_eq_some.mp ha
      have hoffset := Word.val_of_affine? hb
      -- the slope of the composition is a product of slopes, so it lets the
      -- extremes through
      have hne : a ≠ Word.zero := by
        intro hzero
        rw [hzero] at hslope
        rcases mul_eq_zero.mp hslope.symm with h | h
        · exact hg.1 (Word.ext h)
        · exact hf.1 (Word.ext h)
      simp only [comp, ha, hb]
      cases v with
      | bottom =>
        exact evalExact_ofCoefficients_extreme hne b fun i h => by cases h
      | top =>
        exact evalExact_ofCoefficients_extreme hne b fun i h => by cases h
      | int x =>
        rw [evalExact_ofCoefficients_int, hslope, hoffset]
        simp only [evalExact]
        refine congrArg _ ?_
        ring

/-- A composition is above the two functions one after the other: it is
them, or the top. -/
private theorem evalExact_comp_below (hf : f.IsNormal) (hg : g.IsNormal)
    (v : ExactValue) :
    (g.evalExact (f.evalExact v)).Below ((comp f g).evalExact v) := by
  cases h : overflows f g with
  | true =>
    rw [comp_of_overflows h]
    exact below_top _
  | false =>
    rw [evalExact_comp hf hg h]
    exact .refl _

/-- A join is above each of its sides, at every value. -/
private theorem evalExact_below_join_left (f g : LinearEdge) (v : ExactValue) :
    (f.evalExact v).Below ((join f g).evalExact v) := by
  unfold join
  split
  · exact .refl _
  · split
    · exact bottom_below _
    · exact .refl _
    · exact below_top _

private theorem evalExact_below_join_right (f g : LinearEdge) (v : ExactValue) :
    (g.evalExact v).Below ((join f g).evalExact v) := by
  unfold join
  split
  next h =>
    rw [h]
    exact .refl _
  next =>
    split
    · exact .refl _
    · exact bottom_below _
    · exact below_top _

-- =============================================================== effects

/-- A function in normal form stays above an effect. An effect that
leaves nothing has every function above it, in normal form or not. -/
def Dominates (f : LinearEdge) (φ : ExactValue → ExactValue) : Prop :=
  (∀ a, φ a = .bottom) ∨ f.IsNormal ∧ ∀ a b, a.Below b →
  (φ a).Below (f.evalExact b)

theorem dominates_identity : identity.Dominates id :=
  Or.inr ⟨trivial, fun _ _ h => h⟩

/-- A function in normal form stays above its own exact effect. -/
theorem dominates_evalExact (hf : f.IsNormal) : f.Dominates f.evalExact :=
  Or.inr ⟨hf, fun _ _ h => evalExact_mono f h⟩

namespace Dominates

variable {φ ψ : ExactValue → ExactValue}

/-- Functions one after the other stay above the effects one after the
other. An effect that leaves nothing is carried through by the left
alternative. -/
theorem comp (hf : f.Dominates φ) (hg : g.Dominates ψ) :
    (LinearEdge.comp f g).Dominates fun a => ψ (φ a) := by
  rcases hg with hg | ⟨hnormal, hg⟩
  · exact Or.inl fun a => hg (φ a)
  rcases hf with hf | ⟨hnormal', hf⟩
  · -- nothing comes in, so only what `g` makes of nothing matters
    have hnone : ∀ a, (ψ (φ a)).Below (g.evalExact .bottom) :=
      fun a => hg _ _ (Or.inl (hf a))
    have hbottom : g.evalExact .bottom = .bottom → ∀ a, ψ (φ a) = .bottom := by
      intro h a
      have hbelow := hnone a
      rw [h] at hbelow
      exact eq_bottom_of_below hbelow
    cases g with
    | allTop => exact Or.inr ⟨trivial, fun _ _ _ => below_top _⟩
    | const c => exact Or.inr ⟨trivial, fun a _ _ => hnone a⟩
    | allBottom => exact Or.inl (hbottom rfl)
    | identity => exact Or.inl (hbottom rfl)
    | linear a b => exact Or.inl (hbottom rfl)
  · refine Or.inr ⟨isNormal_comp hnormal' hnormal, fun a b h => ?_⟩
    exact (hg _ _ (hf a b h)).trans (evalExact_comp_below hnormal' hnormal b)

/-- A function above one that dominates, in normal form unless that one
was the bottom. Joins are of this kind. -/
theorem above (hf : f.Dominates φ)
    (hnormal : f.IsNormal → f ≠ allBottom → g.IsNormal)
    (habove : ∀ v, (f.evalExact v).Below (g.evalExact v)) : g.Dominates φ := by
  rcases hf with hf | ⟨hf, hφ⟩
  · exact Or.inl hf
  · by_cases hne : f = allBottom
    · rw [hne] at hφ
      exact Or.inl fun a => eq_bottom_of_below (hφ a a (.refl a))
    · exact Or.inr ⟨hnormal hf hne, fun a b h => (hφ a b h).trans (habove b)⟩

/-- Joining can only help to stay above an effect. -/
theorem join_left (hf : f.Dominates φ) (g : LinearEdge) :
    (LinearEdge.join f g).Dominates φ :=
  hf.above (fun hn hne => isNormal_join_left hn hne g)
    (evalExact_below_join_left f g)

theorem join_right (f : LinearEdge) (hg : g.Dominates φ) :
    (LinearEdge.join f g).Dominates φ :=
  hg.above (isNormal_join_right f) (evalExact_below_join_right f g)

/-- What the code computes on words stays above the effect too. This is
how dominance is used in the end. -/
theorem eval {a : ExactValue} {v : ConstValue} (hf : f.Dominates φ)
    (h : a.Below v.toExact) : (φ a).Below (f.eval v).toExact := by
  rcases hf with hf | ⟨_, hf⟩
  · exact Or.inl (hf a)
  · exact (hf a _ h).trans (evalExact_below_eval f v)

end Dominates

end LinearEdge

end Tabulation
