/-
Statements of the example language.

Every statement is one node of the flow graph. Variables are named; a
procedure's variables are its own. Arithmetic is on words. A call names
its target or leaves it open, in which case targets may be added to the
flow graph later.
-/
import Tabulation.Flow.Point
import Tabulation.Word

namespace Tabulation

/-- A variable of a procedure. -/
abbrev Var := String

/-- The target a call names. -/
inductive Callee where
  | direct (p : Proc)
  /-- Not known when the program is written. -/
  | indirect
deriving DecidableEq, Repr

/-- One statement. -/
inductive Stmt where
  | nop
  /-- Introduce a variable without a value. -/
  | decl (x : Var)
  /-- `dst = c` -/
  | const (dst : Var) (c : Word)
  /-- `dst = src` -/
  | copy (dst src : Var)
  /-- `dst = src * factor + offset` -/
  | linear (dst src : Var) (factor offset : Word)
  /-- `dst = lhs + rhs` -/
  | add (dst lhs rhs : Var)
  /-- Read a variable and write none. -/
  | use (x : Var)
  | call (callee : Callee) (args : List Var) (result : Option Var)
  | ret (x : Option Var)
deriving DecidableEq, Repr

namespace Stmt

/-- The variables a statement reads. -/
def reads : Stmt → List Var
  | copy _ src => [src]
  | linear _ src _ _ => [src]
  | use x => [x]
  | add _ lhs rhs => [lhs, rhs]
  | call _ args _ => args
  | ret (some x) => [x]
  | nop | decl _ | const .. | ret none => []

/-- The variable a statement gives a new value. -/
def writes : Stmt → Option Var
  | const dst _ => some dst
  | copy dst _ => some dst
  | linear dst .. => some dst
  | add dst .. => some dst
  | call _ _ result => result
  | nop | decl _ | use _ | ret _ => none

/-- Whether a statement leaves its procedure. -/
def isReturn : Stmt → Bool
  | ret _ => true
  | _ => false

/-- Whether a statement is a call. -/
def isCall : Stmt → Bool
  | call .. => true
  | _ => false

/-- The written form of a statement. -/
def render : Stmt → String
  | nop => "nop"
  | decl x => s!"decl {x}"
  | const dst c => s!"{dst} = {c}"
  | copy dst src => s!"{dst} = {src}"
  | linear dst src factor offset => s!"{dst} = {src} * {factor} + {offset}"
  | add dst lhs rhs => s!"{dst} = {lhs} + {rhs}"
  | use x => s!"use {x}"
  | call callee args result =>
    let assigned := match result with
      | some r => s!"{r} = "
      | none => ""
    let target := match callee with
      | .direct p => toString p
      | .indirect => "*"
    let passed := ", ".intercalate args
    s!"{assigned}call {target}({passed})"
  | ret (some x) => s!"return {x}"
  | ret none => "return"

end Stmt

end Tabulation
