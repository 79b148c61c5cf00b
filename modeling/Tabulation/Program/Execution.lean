/-
Executions of programs.

A machine stands before a node with the variables of the running
procedure, and with the calls that wait below it. What variables hold
is left open: a semantics says what an assignment gives its variable,
and what variables hold that nothing was assigned to. Two are of
interest. Under `integers`, variables hold whole numbers of any size,
or no value. Under `missing`, they hold whether a value may be missing.

A statement that neither calls nor returns moves to any successor. A
call enters a callee that has a body; without a callee, or with a
callee that has no body, it may also go on without one.
-/
import Tabulation.Program.Basic

namespace Tabulation

/-- What variables hold. -/
structure Semantics (V : Type) where
  /-- Held by every variable when a procedure begins, parameters apart. -/
  initial : V
  /-- Held by a variable after its declaration. -/
  declared : V
  /-- Held by a parameter for which there is no argument. -/
  unbound : V
  /-- Held by a result for which nothing was returned. -/
  unreturned : V
  /-- Assigned by a statement. -/
  assigned : Stmt → (Var → V) → V

namespace Semantics

/-- Whole numbers of any size; `none` where a variable has no value. -/
def integers : Semantics (Option Int) where
  initial := none
  declared := none
  unbound := none
  unreturned := none
  assigned
    | .const _ c, _ => some c.val
    | .copy _ src, σ => σ src
    | .linear _ src a b, σ => (σ src).map fun x => x * a.val + b.val
    | .add _ lhs rhs, σ => do return (← σ lhs) + (← σ rhs)
    | _, _ => none

/-- Whether a value may be missing: it is passed on from what is read
to what is written. -/
def missing : Semantics Bool where
  initial := false
  declared := true
  unbound := true
  unreturned := false
  assigned s σ := s.reads.any σ

end Semantics

/-- A call that waits: its site, and the variables there. -/
structure Activation (V : Type) where
  site : Node
  vars : Var → V

/-- A running program: the node it stands before, the variables there,
and the calls that wait, the innermost first. -/
structure Machine (V : Type) where
  node : Node
  vars : Var → V
  waiting : List (Activation V) := []

namespace Machine

variable {V : Type}

/-- Let a variable hold something else. -/
def set (σ : Var → V) (x : Var) (v : V) : Var → V :=
  fun y => if y = x then v else σ y

/-- Let a result, if there is one, hold something else. -/
def setResult (σ : Var → V) (result : Option Var) (v : V) : Var → V :=
  match result with
  | some x => set σ x v
  | none => σ

/-- Bind parameters to arguments by position, each after the one before
it. -/
def bind (S : Semantics V) (σ : Var → V) :
    (Var → V) → List Var → List Var → Var → V
  | τ, [], _ => τ
  | τ, param :: params, [] => bind S σ (set τ param S.unbound) params []
  | τ, param :: params, arg :: args =>
    bind S σ (set τ param (σ arg)) params args

/-- A parameter holds what the last argument bound to it holds, or lies
beyond the arguments; every other variable is as it was. -/
theorem bind_cases (S : Semantics V) (σ τ : Var → V) (params args : List Var)
    (y : Var) :
    (∃ arg, (arg, y) ∈ args.zip params ∧ bind S σ τ params args y = σ arg) ∨
      (y ∈ params.drop args.length ∧ bind S σ τ params args y = S.unbound) ∨
      bind S σ τ params args y = τ y := by
  induction params generalizing τ args with
  | nil => exact Or.inr (Or.inr rfl)
  | cons param params ih =>
    cases args with
    | nil =>
      rcases ih (set τ param S.unbound) [] with ⟨arg, hmem, _⟩ | ⟨hmem, h⟩ | h
      · exact absurd hmem List.not_mem_nil
      · exact Or.inr (Or.inl ⟨List.mem_cons_of_mem _ hmem, h⟩)
      · unfold set at h
        split at h
        next heq => exact Or.inr (Or.inl ⟨heq ▸ List.mem_cons_self, h⟩)
        next => exact Or.inr (Or.inr h)
    | cons arg args =>
      rcases ih (set τ param (σ arg)) args with ⟨arg', hmem, h⟩ | ⟨hmem, h⟩ | h
      · exact Or.inl ⟨arg', List.mem_cons_of_mem _ hmem, h⟩
      · exact Or.inr (Or.inl ⟨hmem, h⟩)
      · unfold set at h
        split at h
        next heq => exact Or.inl ⟨arg, heq ▸ List.mem_cons_self, h⟩
        next => exact Or.inr (Or.inr h)

/-- The variables when a procedure begins. -/
def entered (S : Semantics V) (σ : Var → V) (params args : List Var) :
    Var → V :=
  bind S σ (fun _ => S.initial) params args

/-- The variables after a statement that neither calls nor returns. -/
def after (S : Semantics V) (s : Stmt) (σ : Var → V) : Var → V :=
  match s with
  | .decl x => set σ x S.declared
  | s => setResult σ s.writes (S.assigned s σ)

variable (S : Semantics V) (P : Program)

/-- One step of a running program. -/
inductive Step : Machine V → Machine V → Prop
  | move {n m : Node} {s : Stmt} {σ : Var → V} {k : List (Activation V)} :
      P.stmts.get? n = some s → s.isCall = false → s.isReturn = false →
      m ∈ P.graph.successors n → Step ⟨n, σ, k⟩ ⟨m, after S s σ, k⟩
  | enter {c start : Node} {g : Proc} {callee : Callee} {args : List Var}
      {result : Option Var} {σ : Var → V} {k : List (Activation V)} :
      P.stmts.get? c = some (.call callee args result) → g ∈ P.graph.callees c →
      P.graph.start? g = some start →
      Step ⟨c, σ, k⟩ ⟨start, entered S σ (P.params g) args, ⟨c, σ⟩ :: k⟩
  | skip {c r : Node} {callee : Callee} {args : List Var} {result : Option Var}
      {σ : Var → V} {k : List (Activation V)} :
      P.stmts.get? c = some (.call callee args result) →
      (P.graph.callees c = [] ∨ ∃ g ∈ P.graph.callees c,
        P.graph.start? g = none) →
      P.graph.returnSite? c = some r →
      Step ⟨c, σ, k⟩ ⟨r, setResult σ result S.unreturned, k⟩
  | leave {x c r : Node} {returned : Option Var} {callee : Callee}
      {args : List Var} {result : Option Var} {σ τ : Var → V}
      {k : List (Activation V)} :
      P.stmts.get? x = some (.ret returned) →
      P.stmts.get? c = some (.call callee args result) →
        P.graph.returnSite? c = some r →
      Step ⟨x, σ, ⟨c, τ⟩ :: k⟩
        ⟨r, setResult τ result ((returned.map σ).getD S.unreturned), k⟩

/-- The machines that executions from the given procedures come
through. -/
inductive Reachable (entries : List Proc) : Machine V → Prop
  | start {p : Proc} {s : Node} : p ∈ entries → P.graph.start? p = some s →
      Reachable entries ⟨s, fun _ => S.initial, []⟩
  | step {a b : Machine V} : Reachable entries a → Step S P a b →
      Reachable entries b

end Machine

end Tabulation
