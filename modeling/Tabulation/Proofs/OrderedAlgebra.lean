/-
Values and linear functions, as the ordered algebra that a fixed point
needs.

A run replaces a code by its join with another, composes what it has
improved with what it had before, and evaluates the outcome. That it
only ever goes up, and yet comes to an end, rests on four facts: joins
are those of a semilattice, chains are short, and composition and
evaluation keep the order.

# The order of codes

The codes of linear functions are ordered flatly, between the bottom
and the top function. A composition ignores its first part if the
second is constant, and otherwise hands the extremes on, so it keeps
this order. That two codes may stand for one function does not matter:
codes are compared as they are written. Nor does overflow, where only
one of two compositions is given up. Of two different codes that are
comparable, one is the bottom or the top function, and these do not
overflow, whatever they are composed with.

# Chains

A rank that every new join makes smaller (`IsRank`) bounds more than
the joins of a run. Going up in the order is a join too, so after a
value a chain has room for its rank, and not more (`length_le_rank`).
Values and codes have ranks up to two.
-/
import Tabulation.Proofs.Determinacy
import Tabulation.Proofs.Program.Analysis

namespace Tabulation

-- ================================================================= chains

namespace ValueLattice

variable {L : Type} [DecidableEq L] {V : ValueLattice L} {rank : L → Nat}
variable {bound : Nat}

/-- Below, and not the same. Chains go up strictly. -/
def Lt (V : ValueLattice L) (a b : L) : Prop := V.leq a b = true ∧ a ≠ b

/-- Going up is a join that is new, so it makes the rank smaller. -/
theorem IsRank.rank_lt_of_lt (h : V.IsRank rank bound) {a b : L}
    (hab : V.Lt a b) : rank b < rank a := by
  obtain ⟨hle, hne⟩ := hab
  have hjoin : V.join a b = b := V.leq_iff.mp hle
  have hnew : V.join a b ≠ a := by
    rw [hjoin]
    exact hne.symm
  calc rank b = rank (V.join a b) := by rw [hjoin]
    _ < rank a := h.descends hnew

/-- After a value, a chain has room for its rank. Each member of the
chain takes one unit of it. -/
theorem IsRank.length_le_rank (h : V.IsRank rank bound) {a : L} {chain : List L}
    (hchain : (a :: chain).IsChain V.Lt) : chain.length ≤ rank a := by
  induction chain generalizing a with
  | nil => exact Nat.zero_le _
  | cons b chain ih =>
    obtain ⟨hab, hrest⟩ := List.isChain_cons_cons.mp hchain
    exact Nat.lt_of_le_of_lt (ih hrest) (h.rank_lt_of_lt hab)

/-- And a chain as a whole is no longer than the ranks there are. -/
theorem IsRank.length_le (h : V.IsRank rank bound) {chain : List L}
    (hchain : chain.IsChain V.Lt) : chain.length ≤ bound + 1 := by
  cases chain with
  | nil => exact Nat.zero_le _
  | cons a chain =>
    exact Nat.succ_le_succ ((h.length_le_rank hchain).trans (h.bounded a))

end ValueLattice

-- ================================================================== codes

namespace EdgeFunctions

variable {W L : Type}

/-- The codes under their own join. What is said of values can then be
said of codes. -/
def codes (E : EdgeFunctions W L) : ValueLattice W where
  join := E.join
  top := E.allTop
  bottom := E.allBottom

private theorem leq_codes [DecidableEq W] {E : EdgeFunctions W L} {f g : W} :
    E.codes.leq f g = true ↔ E.Le f g :=
  E.codes.leq_iff

end EdgeFunctions

namespace LinearEdge

/-- A join in terms of what its sides are. Two that differ have no
bound but the top, unless one of them is the bottom. -/
private theorem join_eq (f g : LinearEdge) :
    join f g = if f = allBottom then g else if g = allBottom ∨
    f = g then f else allTop := by
  unfold join
  split
  next heq =>
    subst heq
    simp
  next hne => split <;> simp_all

/-- Functions are ordered flatly: apart from the extremes, a code is
below itself only. -/
theorem le_iff {f g : LinearEdge} :
    functions.Le f g ↔ f = g ∨ f = allBottom ∨ g = allTop := by
  show join f g = g ↔ _
  rw [join_eq]
  grind

/-- Composition keeps the order of codes on both sides. Of two
different codes that are comparable one is an extreme, and those hand
themselves on. -/
private theorem comp_mono {f f' g g' : LinearEdge} (hf : functions.Le f f')
    (hg : functions.Le g g') : functions.Le (comp f g) (comp f' g') := by
  rw [le_iff] at hf hg ⊢
  rcases hg with rfl | rfl | rfl
  · rcases hf with rfl | rfl | rfl
    · exact Or.inl rfl
    · -- the larger side may overflow; the smaller hands the bottom on, or both
      -- ignore their input
      cases g with
      | identity => exact Or.inr (Or.inl rfl)
      | linear a b => exact Or.inr (Or.inl rfl)
      | _ => exact Or.inl rfl
    · cases g with
      | identity => exact Or.inr (Or.inr rfl)
      | linear a b => exact Or.inr (Or.inr rfl)
      | _ => exact Or.inl rfl
  · exact Or.inr (Or.inl rfl)
  · exact Or.inr (Or.inr rfl)

/-- Linear functions are as `Determinacy` asks for. Composition keeps
the order although it may overflow, since what overflows is the top. -/
theorem isOrdered : functions.IsOrdered where
  join_assoc := by
    intro f g h
    show join (join f g) h = join f (join g h)
    simp only [join_eq]
    grind
  join_comm := by
    intro f g
    show join f g = join g f
    rw [join_eq, join_eq]
    grind
  join_idem := join_self
  comp_mono := comp_mono
  comp_identity := fun f => by cases f <;> rfl
  identity_comp := fun f => by cases f <;> rfl

/-- Evaluation keeps the order of values, overflow included. The top
that stands for an overflow is above everything. -/
theorem eval_mono (f : LinearEdge) {v u : ConstValue}
    (h : ConstValue.lattice.leq v u = true) :
    ConstValue.lattice.leq (eval f v) (eval f u) = true := by
  have hlat := ConstValue.isSemilattice
  rcases ConstValue.flat_of_leq h with rfl | rfl | rfl
  · cases f with
    | identity => exact h
    | linear a b => exact hlat.bottom_leq _
    | _ => exact hlat.leq_refl _
  · cases f with
    | identity => exact h
    | linear a b => exact hlat.leq_top _
    | _ => exact hlat.leq_refl _
  · exact hlat.leq_refl _

-- ============================================================ the algebra

variable {f g : LinearEdge}

/-- Joins of codes are those of a semilattice, like the joins of
values. -/
private theorem isSemilattice_codes : functions.codes.IsSemilattice where
  join_assoc := isOrdered.join_assoc
  join_comm := isOrdered.join_comm
  join_idem := isOrdered.join_idem
  bottom_join := fun _ => le_iff.mpr (Or.inr (Or.inl rfl))
  top_join := fun f => (isOrdered.join_comm allTop f).trans
    (le_iff.mpr (Or.inr (Or.inr rfl)))

/-- Codes rise twice at most: from the bottom to a function, and from
there to the top. -/
private theorem isRank_codes : functions.codes.IsRank rank 2 where
  bounded := rank_le
  descends := rank_join_lt

/-- What is below as a code is below at every value. -/
private theorem leq_eval_of_le (h : functions.Le f g) (v : ConstValue) :
    ConstValue.lattice.leq (eval f v) (eval g v) = true := by
  have hjoin : join f g = g := h
  have habove := isAbove_join f g v
  rw [hjoin] at habove
  exact (Bool.and_eq_true_iff.mp habove).1

/-- Values and codes are semilattices in which no chain is longer than
three. A code below another is below it at every value, every code
keeps the order of values, and composition keeps the order of codes on
both sides. -/
theorem values_and_codes_ordered :
    (ConstValue.lattice.IsSemilattice ∧
      ∀ chain : List ConstValue, chain.IsChain ConstValue.lattice.Lt →
      chain.length ≤ 3) ∧
    (functions.codes.IsSemilattice ∧
      ∀ chain : List LinearEdge, chain.IsChain functions.codes.Lt →
      chain.length ≤ 3) ∧
    (∀ f g, functions.codes.leq f g = true →
      ∀ v, ConstValue.lattice.leq (eval f v) (eval g v) = true) ∧
    (∀ f v u, ConstValue.lattice.leq v u = true →
      ConstValue.lattice.leq (eval f v) (eval f u) = true) ∧
    ∀ f f' g g', functions.codes.leq f f' = true →
      functions.codes.leq g g' = true →
      functions.codes.leq (comp f g) (comp f' g') = true := by
  refine ⟨⟨ConstValue.isSemilattice,
    fun _ hchain => ConstValue.isRank.length_le hchain⟩,
    ⟨isSemilattice_codes, fun _ hchain => isRank_codes.length_le hchain⟩,
    fun f g h v => ?_, fun f v u h => eval_mono f h, fun f f' g g' hf hg => ?_⟩
  · exact leq_eval_of_le (EdgeFunctions.leq_codes.mp h) v
  · rw [EdgeFunctions.leq_codes] at hf hg ⊢
    exact comp_mono hf hg

/-- A word near the end of the range. -/
def farWord : Word := ⟨9000000000000000000, by decide, by decide⟩

/-- A function that takes `farWord` out of the range. -/
def elevenfold : LinearEdge := linear ⟨11, by decide, by decide⟩ Word.zero

/-- The order is kept where the larger composition overflows, where the
smaller one does, and where an evaluation does; and there are chains of
three. -/
theorem values_and_codes_ordered_overflow :
    (overflows allBottom elevenfold = false ∧
      overflows (const farWord) elevenfold = true ∧
      functions.codes.leq (comp allBottom elevenfold)
        (comp (const farWord) elevenfold) = true) ∧
    (overflows (const farWord) elevenfold = true ∧
      overflows (const farWord) allTop = false ∧
      functions.codes.leq (comp (const farWord) elevenfold)
        (comp (const farWord) allTop) = true) ∧
    (eval elevenfold (.const farWord) = .top ∧
      ConstValue.lattice.leq (eval elevenfold .bottom)
        (eval elevenfold (.const farWord)) = true ∧
      ConstValue.lattice.leq (eval elevenfold .bottom)
        (eval allTop .bottom) = true) ∧
    ([.bottom, .const farWord, .top].IsChain ConstValue.lattice.Lt ∧
      [ConstValue.bottom, .const farWord, .top].length ≤ 3) ∧
    [allBottom, elevenfold, allTop].IsChain functions.codes.Lt ∧
    [allBottom, elevenfold, allTop].length ≤ 3 := by
  obtain ⟨⟨hvalues, hvalueChains⟩, ⟨hcodes, hcodeChains⟩, hbelow, heval,
    hcomp⟩ := values_and_codes_ordered
  have hvalueChain : [.bottom, .const farWord, .top].IsChain
    ConstValue.lattice.Lt :=
    .cons_cons ⟨by decide, by decide⟩
    (.cons_cons ⟨by decide, by decide⟩ (.singleton _))
  have hcodeChain : [allBottom, elevenfold, allTop].IsChain
    functions.codes.Lt := .cons_cons ⟨by decide, by decide⟩
    (.cons_cons ⟨by decide, by decide⟩ (.singleton _))
  refine ⟨⟨by decide, by decide, ?_⟩, ⟨by decide, by decide, ?_⟩,
    ⟨by decide, ?_, ?_⟩, ⟨hvalueChain, hvalueChains _ hvalueChain⟩, hcodeChain,
    hcodeChains _ hcodeChain⟩
  · exact hcomp _ _ _ _ (hcodes.bottom_leq _) (hcodes.leq_refl _)
  · exact hcomp _ _ _ _ (hcodes.leq_refl _) (hcodes.leq_top _)
  · exact heval _ _ _ (hvalues.bottom_leq _)
  · exact hbelow _ _ (hcodes.leq_top _) _

end LinearEdge

end Tabulation
