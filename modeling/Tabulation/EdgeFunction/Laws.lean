/-
Laws of edge functions, stated for all values.

Codes are exact if they compose like the functions they stand for. They
are distributive if also the joins of codes are the joins of the
functions, and every function carries joins to joins; then following
all paths at once loses nothing against following each path alone.
-/
import Tabulation.EdgeFunction.Basic
import Tabulation.Lattice.Laws

namespace Tabulation.EdgeFunctions

variable {W L : Type}

/-- Composition and identity of codes are those of functions. -/
structure IsExact (E : EdgeFunctions W L) : Prop where
  eval_comp : ∀ f g v, E.eval (E.comp f g) v = E.eval g (E.eval f v)
  eval_identity : ∀ v, E.eval E.identity v = v

/-- Exact codes whose joins are pointwise, for functions that carry
joins to joins. -/
structure IsDistributive (E : EdgeFunctions W L) (S : ValueLattice L) :
    Prop extends IsExact E where
  eval_join : ∀ f g v, E.eval (E.join f g) v = S.join (E.eval f v) (E.eval g v)
  eval_of_join : ∀ f v u, E.eval f (S.join v u) = S.join (E.eval f v)
    (E.eval f u)

/-- Apply edge functions one after the other. -/
def evalAll (E : EdgeFunctions W L) (fs : List W) (v : L) : L :=
  fs.foldl (fun v f => E.eval f v) v

end Tabulation.EdgeFunctions
