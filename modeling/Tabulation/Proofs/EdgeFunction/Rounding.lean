/-
A composition of linear functions is exact, or given up.

`Proofs/EdgeFunction/Exact` says that what is computed on words stays
above what would have been computed without a range. Here it is said
how far above: a code gives the exact value or the top, and nothing in
between (`Rounds`). Compositions and evaluation keep this up, because a
code hands the top on unless it ignores its input.

# Groupings

A chain of functions can be composed in many ways. All of them round
the effect of the chain, so two of them differ only where one has given
up. Where none of the compositions overflows (`Fits`) they are the same
code, since a code in normal form is determined by what it does
(`eq_of_evalExact`).

# Values

What a grouping gives at a value is the exact value or the top, and the
top stands for an overflow: of a composition, or of the evaluation at
the end (`FitsAt`). Applying the functions to words one after the other
overflows elsewhere. Two reflections that exchange zero and the largest
word cancel, though the first takes every negative word out of range;
but the second, composed with a multiplication, has an offset that is
no word.
-/
import Tabulation.EdgeFunction.Laws
import Tabulation.Proofs.EdgeFunction.Exact

namespace Tabulation

namespace LinearEdge

open ExactValue

variable {f g : LinearEdge} {φ ψ : ExactValue → ExactValue}

-- =========================================================== normal forms

/-- A code in normal form is an extreme, or has coefficients. -/
theorem IsNormal.cases (hf : f.IsNormal) :
    f = allBottom ∨ f = allTop ∨ ∃ a b, f = ofCoefficients a b := by
  cases f with
  | allBottom => exact Or.inl rfl
  | allTop => exact Or.inr (Or.inl rfl)
  | identity => exact Or.inr (Or.inr ⟨Word.one, Word.zero, rfl⟩)
  | const c => exact Or.inr (Or.inr ⟨Word.zero, c, rfl⟩)
  | linear a b =>
    refine Or.inr (Or.inr ⟨a, b, ?_⟩)
    unfold ofCoefficients
    rw [if_neg hf.1, if_neg hf.2]

/-- Codes in normal form that do the same to numbers are the same. Two
numbers tell the coefficients. -/
theorem eq_of_evalExact (hf : f.IsNormal) (hg : g.IsNormal)
    (h : ∀ i, f.evalExact (.int i) = g.evalExact (.int i)) : f = g := by
  have hzero := h 0
  have hone := h 1
  rcases hf.cases with rfl | rfl | ⟨a, b, rfl⟩
  · rcases hg.cases with rfl | rfl | ⟨a', b', rfl⟩
    · rfl
    · cases hzero
    · rw [evalExact_ofCoefficients_int] at hzero
      cases hzero
  · rcases hg.cases with rfl | rfl | ⟨a', b', rfl⟩
    · cases hzero
    · rfl
    · rw [evalExact_ofCoefficients_int] at hzero
      cases hzero
  · rw [evalExact_ofCoefficients_int] at hzero hone
    rcases hg.cases with rfl | rfl | ⟨a', b', rfl⟩
    · cases hzero
    · cases hzero
    · -- the values at zero and one are the offset, and the offset with the
      -- slope
      rw [evalExact_ofCoefficients_int, ExactValue.int.injEq] at hzero hone
      have hoffset : b = b' := Word.ext (by omega)
      have hslope : a = a' := Word.ext (by omega)
      rw [hoffset, hslope]

/-- A code hands the top on, or does not look at its input. So giving
up the input gives up the result, or makes no difference. -/
private theorem evalExact_top (f : LinearEdge) :
    f.evalExact .top = .top ∨ ∀ a b, f.evalExact a = f.evalExact b := by
  cases f with
  | identity => exact Or.inl rfl
  | linear a b => exact Or.inl rfl
  | allTop => exact Or.inl rfl
  | allBottom => exact Or.inr fun _ _ => rfl
  | const c => exact Or.inr fun _ _ => rfl

theorem evalExactAll_append (fs gs : List LinearEdge) (a : ExactValue) :
    evalExactAll (fs ++ gs) a = evalExactAll gs (evalExactAll fs a) :=
  List.foldl_append

-- =============================================================== rounding

/-- A code in normal form gives what the effect gives, or the top. -/
structure Rounds (f : LinearEdge) (φ : ExactValue → ExactValue) : Prop where
  normal : f.IsNormal
  evalExact : ∀ a, f.evalExact a = .top ∨ f.evalExact a = φ a

theorem rounds_identity : identity.Rounds id := ⟨trivial, fun _ => Or.inr rfl⟩

theorem rounds_evalExact (hf : f.IsNormal) : f.Rounds f.evalExact :=
  ⟨hf, fun _ => Or.inr rfl⟩

theorem rounds_allTop (φ : ExactValue → ExactValue) : allTop.Rounds φ :=
  ⟨trivial, fun _ => Or.inl rfl⟩

/-- Codes one after the other round the effects one after the other. If
the first has given up, the second hands that on or does not look at
it. -/
theorem Rounds.comp (hf : f.Rounds φ) (hg : g.Rounds ψ) :
    (LinearEdge.comp f g).Rounds fun a => ψ (φ a) := by
  cases h : overflows f g with
  | true =>
    rw [comp_of_overflows h]
    exact rounds_allTop _
  | false =>
    refine ⟨isNormal_comp hf.normal hg.normal, fun a => ?_⟩
    rw [evalExact_comp hf.normal hg.normal h]
    rcases hf.evalExact a with ha | ha
    · -- what was given up before stays given up, unless it does not matter
      rcases g.evalExact_top with htop | hblind
      · rw [ha, htop]
        exact Or.inl rfl
      · rw [hblind _ (φ a)]
        exact hg.evalExact (φ a)
    · rw [ha]
      exact hg.evalExact (φ a)

/-- Evaluation rounds too, also where its input has been given up. -/
theorem Rounds.eval {v : ConstValue} {a : ExactValue} (hf : f.Rounds φ)
    (hv : v = .top ∨ v.toExact = a) :
    f.eval v = .top ∨ (f.eval v).toExact = φ a := by
  have hexact : f.evalExact v.toExact = .top ∨ f.evalExact v.toExact = φ a := by
    rcases hv with rfl | rfl
    · rcases f.evalExact_top with htop | hblind
      · exact Or.inl htop
      · rw [hblind _ a]
        exact hf.evalExact a
    · exact hf.evalExact v.toExact
  rw [← ConstValue.toExact_eq_top]
  rcases toExact_eval f v with h | h
  · exact Or.inl h
  · rw [h]
    exact hexact

/-- Evaluation at a value stays in the range of words. Where it does
not, the value is given up. -/
def FitsAt (f : LinearEdge) (v : ConstValue) : Prop :=
  ∀ c, v = .const c → overflows (const c) f = false

/-- Evaluation that stays in the range is exact. -/
theorem FitsAt.toExact_eval {v : ConstValue} (h : f.FitsAt v) :
    (f.eval v).toExact = f.evalExact v.toExact := by
  cases f with
  | linear a b =>
    cases v with
    | bottom => rfl
    | top => rfl
    | const x =>
      have hx := h x rfl
      simp only [overflows, Option.isNone_eq_false_iff] at hx
      obtain ⟨y, hy⟩ := Option.isSome_iff_exists.mp hx
      simp only [LinearEdge.eval, hy, ConstValue.toExact, LinearEdge.evalExact,
        Word.val_of_affine? hy]
  | allBottom => rfl
  | allTop => rfl
  | identity => rfl
  | const c => rfl

end LinearEdge

-- =============================================================== groupings

namespace Grouping

open LinearEdge

/-- No composition of the grouping overflows. It speaks of the
compositions that the grouping makes, and not of others that could be
made of the chain. -/
def Fits : Grouping LinearEdge → Prop
  | single _ => True
  | pair f s =>
    f.Fits ∧ s.Fits ∧ overflows (f.compose comp) (s.compose comp) = false

/-- However a chain is grouped, it is composed to a code that rounds
its effect. The induction is on the grouping. -/
theorem rounds_compose (G : Grouping LinearEdge)
    (h : ∀ f ∈ G.chain, f.IsNormal) :
    (G.compose comp).Rounds (evalExactAll G.chain) := by
  induction G with
  | single f => exact rounds_evalExact (h f (List.mem_singleton.mpr rfl))
  | pair F G ihF ihG =>
    have hF := ihF fun f hf => h f (List.mem_append_left _ hf)
    have hG := ihG fun f hf => h f (List.mem_append_right _ hf)
    have hboth := hF.comp hG
    simp only [← evalExactAll_append] at hboth
    exact hboth

/-- A grouping that fits is composed to a code that has the effect of
the chain. -/
theorem evalExact_compose (G : Grouping LinearEdge)
    (h : ∀ f ∈ G.chain, f.IsNormal) (hfits : G.Fits) (a : ExactValue) :
    (G.compose comp).evalExact a = evalExactAll G.chain a := by
  induction G generalizing a with
  | single f => rfl
  | pair F G ihF ihG =>
    obtain ⟨hfitsF, hfitsG, hlast⟩ := hfits
    have hF : ∀ f ∈ F.chain, f.IsNormal :=
      fun f hf => h f (List.mem_append_left _ hf)
    have hG : ∀ f ∈ G.chain, f.IsNormal :=
      fun f hf => h f (List.mem_append_right _ hf)
    show (LinearEdge.comp (F.compose comp) (G.compose comp)).evalExact a = _
    rw [evalExact_comp (F.rounds_compose hF).normal (G.rounds_compose hG).normal
      hlast, ihF hF hfitsF, ihG hG hfitsG, chain, evalExactAll_append]

/-- Two groupings of one chain that fit are composed to the same code.
Both are exact, and a code in normal form is determined by what it
computes. -/
theorem compose_eq_of_fits {F G : Grouping LinearEdge}
    (hchain : F.chain = G.chain) (h : ∀ f ∈ G.chain, f.IsNormal) (hF : F.Fits)
    (hG : G.Fits) : F.compose comp = G.compose comp := by
  have h' : ∀ f ∈ F.chain, f.IsNormal := by
    rw [hchain]
    exact h
  refine eq_of_evalExact (F.rounds_compose h').normal
    (G.rounds_compose h).normal fun a => ?_
  rw [F.evalExact_compose h' hF, G.evalExact_compose h hG, hchain]

/-- Every chain that is not empty can be grouped, for instance from the
left. -/
private theorem exists_chain_eq {W : Type} {ws : List W} (hne : ws ≠ []) :
    ∃ G : Grouping W, G.chain = ws := by
  induction ws with
  | nil => exact absurd rfl hne
  | cons w ws ih =>
    by_cases hws : ws = []
    · rw [hws]
      exact ⟨single w, rfl⟩
    · obtain ⟨G, rfl⟩ := ih hws
      exact ⟨pair (single w) G, rfl⟩

/-- However a chain of codes in normal form is grouped, it is composed
to a code in normal form that gives, at every value, the exact value of
the chain or the top; and the exact value if nothing overflows. -/
theorem compose_exact_or_top {fs : List LinearEdge} (hne : fs ≠ [])
    (hnormal : ∀ f ∈ fs, f.IsNormal) :
    (∃ G : Grouping LinearEdge, G.chain = fs) ∧
    ∀ G : Grouping LinearEdge, G.chain = fs →
      (G.compose comp).IsNormal ∧
      ∀ v,
        ((G.compose comp).eval v = .top ∨
          ((G.compose comp).eval v).toExact = evalExactAll fs v.toExact) ∧
        (G.Fits → (G.compose comp).FitsAt v →
          ((G.compose comp).eval v).toExact = evalExactAll fs v.toExact) := by
  refine ⟨exists_chain_eq hne, ?_⟩
  rintro G rfl
  have hrounds := G.rounds_compose hnormal
  refine ⟨hrounds.normal, fun v =>
      ⟨hrounds.eval (Or.inr rfl), fun hfits hat => ?_⟩⟩
  rw [hat.toExact_eval, G.evalExact_compose hnormal hfits]

/-- The reflection that exchanges zero and the largest word. -/
def reflection : LinearEdge :=
  linear ((Word.ofInt? (-1)).getD Word.zero)
    ⟨9223372036854775807, by decide, by decide⟩

/-- A multiplication that takes the offset of the reflection out of the
range. -/
def sevenfold : LinearEdge := linear ⟨7, by decide, by decide⟩ Word.zero

def minusNine : ConstValue := .const ⟨-9, by decide, by decide⟩

/-- The reflections are composed with each other, which gives the
identity. -/
def cancelling : Grouping LinearEdge :=
  pair (pair (single reflection) (single reflection)) (single sevenfold)

/-- The second reflection is composed with what comes after it, and
this leaves the range of words. -/
def overflowing : Grouping LinearEdge :=
  pair (single reflection) (pair (single reflection) (single sevenfold))

/-- One after the other, the functions leave the range at a negative
word. One grouping is exact there, because the reflections cancel; the
other has given up. -/
theorem compose_exact_or_top_reflections :
    (∀ f ∈ [reflection, reflection, sevenfold], f.IsNormal) ∧
    functions.evalAll [reflection, reflection, sevenfold] minusNine = .top ∧
    comp reflection reflection = identity ∧
    ((cancelling.compose comp).eval minusNine).toExact = .int (-63) ∧
    overflowing.compose comp = allTop ∧
    (overflowing.compose comp).IsNormal ∧
    ((overflowing.compose comp).eval minusNine = .top ∨
      ((overflowing.compose comp).eval minusNine).toExact = .int (-63)) := by
  have hnormal : ∀ f ∈ [reflection, reflection, sevenfold],
    f.IsNormal := by decide
  have h := (compose_exact_or_top (List.cons_ne_nil _ _) hnormal).2
  have hfits : cancelling.Fits :=
    ⟨⟨trivial, trivial, by decide⟩, trivial, by decide⟩
  have hat : (cancelling.compose comp).FitsAt minusNine := by
    intro c hc
    cases hc
    decide
  exact ⟨hnormal, by decide, by decide,
    ((h cancelling rfl).2 minusNine).2 hfits hat, by decide,
    (h overflowing rfl).1, ((h overflowing rfl).2 minusNine).1⟩

end Grouping

end Tabulation
