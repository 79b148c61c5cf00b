/-
Programs: statements at the nodes of a flow graph.
-/
import Tabulation.Flow.Graph
import Tabulation.Program.Stmt

namespace Tabulation

/-- A program of the example language. -/
structure Program where
  graph : FlowGraph := {}
  stmts : Table Node Stmt := .empty
  names : Table Proc String := .empty
  formals : Table Proc (List Var) := .empty
deriving Repr, Inhabited

namespace Program

/-- The statement at a node. -/
def stmt (P : Program) (n : Node) : Except Fault Stmt :=
  match P.stmts.get? n with
  | some s => .ok s
  | none => .error (.unknownNode n)

theorem stmt_eq_ok {P : Program} {n : Node} {s : Stmt}
    (h : P.stmts.get? n = some s) : P.stmt n = .ok s := by
  unfold stmt
  rw [h]

/-- What goes on from the statement at a node has found one. -/
theorem exists_stmt_of_bind {P : Program} {n : Node} {β : Type}
    {f : Stmt → Except Fault β} {b : β} (h : P.stmt n >>= f = .ok b) :
    ∃ s, P.stmts.get? n = some s ∧ f s = .ok b := by
  unfold stmt at h
  cases hs : P.stmts.get? n with
  | none =>
    rw [hs] at h
    cases h
  | some s =>
    rw [hs] at h
    exact ⟨s, rfl, h⟩

/-- The parameters of a procedure. -/
def params (P : Program) (p : Proc) : List Var := P.formals.getD p []

/-- The name of a procedure. -/
def nameOf (P : Program) (p : Proc) : String := P.names.getD p "<unknown>"

/-- The first procedure of a name. -/
def procNamed? (P : Program) (name : String) : Option Proc :=
  P.graph.procs.find? fun p => decide (P.names.get? p = some name)

/-- The variables of a program, in order of first appearance: of each
procedure the parameters, then what its statements write, declare and
read. -/
def vars (P : Program) : List Var :=
  Listing.distinct <|
    P.formals.entries.flatMap Prod.snd ++
      P.stmts.entries.flatMap fun (_, s) =>
        match s with
        | .decl x => [x]
        | s => s.writes.toList ++ s.reads

end Program

end Tabulation
