/-
Facts about local variables: one variable, or the zero fact.
-/
import Tabulation.Program.Stmt

namespace Tabulation

/-- A fact about a local variable, or the fact that always holds. -/
inductive LocalFact where
  | zero
  | var (x : Var)
deriving DecidableEq, Repr, Inhabited

namespace LocalFact

instance : ToString LocalFact where
  toString
    | zero => "Λ"
    | var x => x

/-- The order of facts: zero first, then by name, code point by code
point. -/
def le : LocalFact → LocalFact → Bool
  | zero, _ => true
  | var _, zero => false
  | var x, var y => decide (x ≤ y)

/-- The pairs of argument and parameter of a call, by position. -/
def bindings (args params : List Var) : List (LocalFact × LocalFact) :=
  (args.zip params).map fun (arg, param) => (var arg, var param)

end LocalFact

end Tabulation
