/-
Executions that keep track of missing values.

Every activation knows which of its variables may have no value. None
has when an execution begins. A declaration makes its variable one of
them, and an assignment passes the property on from what it reads to
what it writes. A procedure that is called starts with the parameters
that were bound to such variables, and with the parameters beyond the
arguments; and a call takes over from its callee whether the
returned variable was one.

These are the executions under `Semantics.missing`, but for one case: a
parameter may be named twice. A machine binds it twice and keeps the
last value. Here it may be missing as well if any of the arguments
bound to it was.
-/
import Tabulation.Program.Execution

namespace Tabulation.Machine

/-- The variables that may have no value when a procedure begins. -/
def missingAtEntry (σ : Var → Bool) (params args : List Var) (y : Var) : Bool :=
  (args.zip params).any (fun b => decide (b.2 = y) && σ b.1) ||
    decide (y ∈ params.drop args.length)

/-- One step of an execution that keeps track of missing values. -/
inductive MissingStep (P : Program) : Machine Bool → Machine Bool → Prop
  | step {a b : Machine Bool} : Step Semantics.missing P a b → MissingStep P a b
  | enter {c start : Node} {g : Proc} {callee : Callee} {args : List Var}
      {result : Option Var} {σ : Var → Bool} {k : List (Activation Bool)} :
      P.stmts.get? c = some (.call callee args result) → g ∈ P.graph.callees c →
      P.graph.start? g = some start →
      MissingStep P ⟨c, σ, k⟩ ⟨start, missingAtEntry σ (P.params g) args,
          ⟨c, σ⟩ :: k⟩

/-- The machines that such executions come through from the given
procedures. -/
inductive MissingReachable (P : Program) (entries : List Proc) :
    Machine Bool → Prop
  | start {p : Proc} {s : Node} : p ∈ entries → P.graph.start? p = some s →
      MissingReachable P entries ⟨s, fun _ => false, []⟩
  | step {a b : Machine Bool} : MissingReachable P entries a →
      MissingStep P a b → MissingReachable P entries b

end Tabulation.Machine
