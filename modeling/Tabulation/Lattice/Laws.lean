/-
The laws of a join semilattice with both extremes, stated for all
values.

The check on samples can only look at what it is given. These are the
laws it looks for.
-/
import Tabulation.Lattice.Basic

namespace Tabulation.ValueLattice

variable {L : Type}

/-- The laws of a join semilattice with a bottom and a top. -/
structure IsSemilattice (S : ValueLattice L) : Prop where
  join_assoc : ∀ a b c, S.join (S.join a b) c = S.join a (S.join b c)
  join_comm : ∀ a b, S.join a b = S.join b a
  join_idem : ∀ a, S.join a a = a
  bottom_join : ∀ a, S.join S.bottom a = a
  top_join : ∀ a, S.join S.top a = S.top

variable [DecidableEq L]

/-- A value above every member of a family, and below every other such
value. -/
structure IsLub (S : ValueLattice L) (family : L → Prop) (bound : L) :
    Prop where
  upper : ∀ v, family v → S.leq v bound = true
  least : ∀ b, (∀ v, family v → S.leq v b = true) → S.leq bound b = true

end Tabulation.ValueLattice
