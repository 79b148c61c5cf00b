/-
The built-in example programs of the command line.
-/
import Tabulation.Program.Draft

namespace Tabulation

/-- A built-in program. -/
inductive Demo where
  /-- A constant that one branch replaces. -/
  | branch
  /-- A procedure that adds one, called with two constants. -/
  | calls
  /-- A procedure that counts down and calls itself. -/
  | recursion
  /-- Reads of variables that were declared but not assigned. -/
  | uninit
deriving DecidableEq, Repr

namespace Demo

/-- The procedure every built-in program starts with. -/
def entry : Proc := ⟨0⟩

/-- The other procedure of those that have two. -/
def helper : Proc := ⟨1⟩

/-- A call of the other procedure. -/
def callHelper (arg result : Var) : Stmt :=
  .call (.direct helper) [arg] (some result)

/-- The steps that write a built-in program. -/
def steps : Demo → List Draft.Step
  | branch => [
      .declare "main" [],
      .write entry (.const "y" ⟨10, by decide, by decide⟩),
      .write entry .nop,
      .write entry (.const "y" ⟨20, by decide, by decide⟩),
      .write entry (.ret (some "y")),
      .branch entry ⟨1⟩ ⟨3⟩]
  | calls => [
      .declare "main" [],
      .declare "foo" ["v"],
      .write helper (.linear "t" "v" Word.one Word.one),
      .write helper (.ret (some "t")),
      .write entry (.const "a" ⟨2, by decide, by decide⟩),
      .write entry (callHelper "a" "r1"),
      .write entry (.const "b" ⟨42, by decide, by decide⟩),
      .write entry (callHelper "b" "r2"),
      .write entry (.add "s" "r1" "r2"),
      .write entry (.ret (some "s"))]
  | recursion => [
      .declare "main" [],
      .declare "count" ["n"],
      .write helper .nop,
      .write helper (.ret (some "n")),
      .write helper (.linear "m" "n" Word.one ⟨-1, by decide, by decide⟩),
      .write helper (callHelper "m" "r"),
      .write helper (.ret (some "r")),
      .branch helper ⟨0⟩ ⟨2⟩,
      .write entry (.const "x" ⟨5, by decide, by decide⟩),
      .write entry (callHelper "x" "y"),
      .write entry (.ret (some "y"))]
  | uninit => [
      .declare "main" [],
      .declare "id" ["p"],
      .write helper (.ret (some "p")),
      .write entry (.decl "a"),
      .write entry (.decl "b"),
      .write entry (.const "a" Word.one),
      .write entry (.add "c" "a" "b"),
      .write entry (.use "c"),
      .write entry (callHelper "b" "d"),
      .write entry (.ret (some "d"))]

/-- A built-in program. -/
def program (d : Demo) : Program := (Draft.ofSteps d.steps).build

end Demo

end Tabulation
