/-
What the command line prints.

A run analyses one of the built-in programs and prints the status, the
facts that hold at the exits of every procedure, the exploded edges if
they are asked for, and for uninitialized variables the undefined uses.

Whether a log file can be created is the only question a run has about
the world outside.
-/
import Tabulation.Analysis.LinearConstants
import Tabulation.Analysis.UndefinedUse
import Tabulation.Command.Options
import Tabulation.Solver.Solve

namespace Tabulation

/-- What a run of the command line comes to. -/
structure Outcome where
  exitCode : Nat
  lines : List String
deriving DecidableEq, Repr

namespace Command

/-- The fuel of a run from the command line: more turns than can be
taken. -/
def fuel : Nat := 18446744073709551616

/-- The facts at one exit, in order. -/
def exitLines {L : Type} [ToString L] (P : Program)
    (results : Results LocalFact L) (proc : Proc) (exit : Node) :
    Except Fault (List String) := do
  let s ← P.stmt exit
  let facts := Listing.sortBy (fun a b => LocalFact.le a.1 b.1)
    (results.resultsAt exit)
  let heading := P.nameOf proc ++ " @ " ++ toString exit ++ " `" ++
    s.render ++ "`:"
  return heading :: facts.map fun (d, v) => s!"    {d} = {v}"

/-- The status, and the facts at all exits. -/
def resultLines {L : Type} [ToString L] (P : Program)
    (results : Results LocalFact L) (printEdges : Bool) :
    Except Fault (List String) := do
  let exits := P.graph.procs.flatMap fun proc =>
    (P.graph.exits proc).map fun exit => (proc, exit)
  let blocks ← exits.mapM fun (proc, exit) => exitLines P results proc exit
  let edges := if printEdges then results.exploded.map
    ExplodedEdge.render else []
  return ("status: " ++ results.status.render) :: blocks.flatten ++ edges

/-- The undefined uses. -/
def undefinedUseLines {L : Type} (P : Program) (results : Results LocalFact L)
    (checkArguments : Bool) : Except Fault (List String) := do
  let uses ← Uninitialized.undefinedUses P results checkArguments
  uses.mapM fun (node, vars) => do
    let s ← P.stmt node
    return s!"undefined use at {node} `" ++ s.render ++ "`: " ++
      ", ".intercalate vars

/-- Run linear constant propagation. -/
def linearConstantsLines (o : Options) (P : Program) : Option (List String) :=
  let S : Setup LocalFact LinearEdge ConstValue :=
    { problem := LinearConstants.problem P [Demo.entry], config := o.config }
  match (Solver.solve S fuel P.graph).1 with
  | .ok results => (resultLines P results o.printEdges).toOption
  | .error _ => none

/-- Run the search for uninitialized variables. -/
def uninitializedLines (o : Options) (P : Program) : Option (List String) :=
  let S : Setup LocalFact BinaryEdge Binary :=
    { problem := (Uninitialized.problem P [Demo.entry]).toProblem,
      config := o.config }
  match (Solver.solve S fuel P.graph).1 with
  | .ok results => do
    let facts ← (resultLines P results o.printEdges).toOption
    let uses ← (undefinedUseLines P results o.checkActualParameters).toOption
    return facts ++ uses
  | .error _ => none

/-- Do what options ask for. -/
def perform (creatable : String → Bool) (o : Options) : Outcome :=
  if !o.logFile.all creatable then { exitCode := 1, lines := [] }
  else
    let P := o.demo.program
    let lines? := match o.analysis with
      | .lca => linearConstantsLines o P
      | .uninit => uninitializedLines o P
    match lines? with
    | some lines => { exitCode := 0, lines }
    | none => { exitCode := 1, lines := [] }

/-- The text that explains the arguments. -/
def helpLines : List String := [
  "Usage: ifds-ide [OPTIONS]",
  "",
  "Options:",
  "  -v, --verbose...               Log more",
  "  -q, --quiet                    Log nothing",
  "  -l, --log-file <LOG_FILE>      Log to a file as well",
  "  -a, --analysis <ANALYSIS>      The analysis [default: lca] [possible values: uninit, lca]",
  "  -d, --demo <DEMO>              The program [default: calls] [possible values: branch, calls, recursion, uninit]",
  "      --worklist <WORKLIST>      The order of the worklist [default: fifo] [possible values: fifo, lifo]",
  "      --max-iterations <N>       Stop after so many iterations",
  "      --timeout-ms <N>           Stop after so many milliseconds",
  "      --check-monotonicity       Probe every join for monotonicity (slow)",
  "      --check-actual-parameters  Also report uninitialized call arguments (uninit analysis only)",
  "      --print-esg                Print the exploded supergraph edges produced while solving",
  "  -h, --help                     Print help",
  "  -V, --version                  Print version"]

/-- Run the command line on its arguments. -/
def run (creatable : String → Bool) (args : List String) : Outcome :=
  match Options.parse args with
  | .ok options => perform creatable options
  | .error .help => { exitCode := 0, lines := helpLines }
  | .error .version => { exitCode := 0, lines := ["ifds-ide-rs 0.1.0"] }
  | .error .usage => { exitCode := 2, lines := [] }

end Command

end Tabulation
