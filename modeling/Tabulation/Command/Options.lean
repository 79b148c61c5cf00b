/-
The options of the command line, and how arguments are read.

An option is written `--name`, and some also as one letter after a
dash; letters may be put together. A value follows as the next
argument, after `=`, or directly after a letter. Only the verbosity may
be given more than once, and there are no other arguments.
-/
import Tabulation.Command.Demo
import Tabulation.Solver.Config

namespace Tabulation

/-- The analyses of the command line. -/
inductive AnalysisChoice where
  /-- Variables read before they are assigned. -/
  | uninit
  /-- Linear constant propagation. -/
  | lca
deriving DecidableEq, Repr

/-- What the arguments ask for. -/
structure Options where
  verbosity : Nat := 0
  quiet : Bool := false
  logFile : Option String := none
  analysis : AnalysisChoice := .lca
  demo : Demo := .calls
  order : WorklistOrder := .fifo
  maxIterations : Option Nat := none
  timeoutMilliseconds : Option Nat := none
  checkMonotonicity : Bool := false
  checkActualParameters : Bool := false
  printEdges : Bool := false
deriving Repr

/-- Why arguments are not followed by a run. -/
inductive Refusal where
  | help
  | version
  /-- The arguments cannot be understood. -/
  | usage
deriving DecidableEq, Repr

namespace Options

/-- The settings of the solver. -/
def config (o : Options) : Config where
  order := o.order
  computeValues := decide (o.analysis = .lca)
  recordEdges := o.printEdges
  checkMonotonicity := o.checkMonotonicity
  maxIterations := o.maxIterations
  timeout := o.timeoutMilliseconds.map Duration.ofMilliseconds

-- =================================================================== names

/-- The options. -/
inductive Key where
  | verbose
  | quiet
  | logFile
  | analysis
  | demo
  | worklist
  | maxIterations
  | timeout
  | checkMonotonicity
  | checkActualParameters
  | printEdges
  | help
  | version
deriving DecidableEq, Repr

/-- The option of a name. -/
def Key.ofName? : String → Option Key
  | "verbose" => some verbose
  | "quiet" => some quiet
  | "log-file" => some logFile
  | "analysis" => some analysis
  | "demo" => some demo
  | "worklist" => some worklist
  | "max-iterations" => some maxIterations
  | "timeout-ms" => some timeout
  | "check-monotonicity" => some checkMonotonicity
  | "check-actual-parameters" => some checkActualParameters
  | "print-esg" => some printEdges
  | "help" => some help
  | "version" => some version
  | _ => none

/-- The option of a letter. -/
def Key.ofLetter? : Char → Option Key
  | 'v' => some verbose
  | 'q' => some quiet
  | 'l' => some logFile
  | 'a' => some analysis
  | 'd' => some demo
  | 'h' => some help
  | 'V' => some version
  | _ => none

/-- Whether an option has a value. -/
def Key.takesValue : Key → Bool
  | logFile | analysis | demo | worklist | maxIterations | timeout => true
  | _ => false

-- ================================================================== values

/-- A decimal number below 2⁶⁴; a plus sign may stand before it. -/
def number? (cs : List Char) : Option Nat :=
  let digits := match cs with
    | '+' :: rest => rest
    | cs => cs
  if digits.isEmpty || !digits.all Char.isDigit then none
  else
    let n := digits.foldl (fun n c => 10 * n + (c.toNat - '0'.toNat)) 0
    if n < 18446744073709551616 then some n else none

/-- Set an option to a value. -/
def setValue? (o : Options) (key : Key) (value : String) : Option Options :=
  match key, value with
  | .logFile, "" => none
  | .logFile, path => some { o with logFile := some path }
  | .analysis, "uninit" => some { o with analysis := .uninit }
  | .analysis, "lca" => some { o with analysis := .lca }
  | .demo, "branch" => some { o with demo := .branch }
  | .demo, "calls" => some { o with demo := .calls }
  | .demo, "recursion" => some { o with demo := .recursion }
  | .demo, "uninit" => some { o with demo := .uninit }
  | .worklist, "fifo" => some { o with order := .fifo }
  | .worklist, "lifo" => some { o with order := .lifo }
  | .maxIterations, digits =>
    (number? digits.toList).map fun n => { o with maxIterations := some n }
  | .timeout, digits =>
    (number? digits.toList).map fun n =>
      { o with timeoutMilliseconds := some n }
  | _, _ => none

/-- Set an option that has no value. -/
def setFlag (o : Options) : Key → Options
  | .verbose => { o with verbosity := o.verbosity + 1 }
  | .quiet => { o with quiet := true }
  | .checkMonotonicity => { o with checkMonotonicity := true }
  | .checkActualParameters => { o with checkActualParameters := true }
  | .printEdges => { o with printEdges := true }
  | _ => o

-- ================================================================= reading

/-- What has been read: the options so far, those that were given, and
the one that waits for its value. -/
structure Reading where
  options : Options := {}
  given : List Key := []
  waiting : Option Key := none

/-- Note that an option is given, which most may be only once. -/
def Reading.give (r : Reading) (key : Key) : Except Refusal Reading :=
  if key = .help then .error .help
  else if key = .version then .error .version
  else if key ≠ .verbose ∧ key ∈ r.given then .error .usage
  else .ok { r with given := key :: r.given }

/-- Read a value. -/
def Reading.value (r : Reading) (key : Key) (value : List Char) :
    Except Refusal Reading :=
  match r.options.setValue? key (String.ofList value) with
  | some options => .ok { r with options, waiting := none }
  | none => .error .usage

/-- Read the letters after a dash. -/
def Reading.letters (r : Reading) : List Char → Except Refusal Reading
  | [] => .ok r
  | c :: rest =>
    match Key.ofLetter? c with
    | none => .error .usage
    | some key => do
      let r ← r.give key
      if key.takesValue then
        match rest with
        | [] => .ok { r with waiting := some key }
        | '=' :: value => r.value key value
        | value => r.value key value
      else Reading.letters { r with options := r.options.setFlag key } rest

/-- Read the name after two dashes, with a value if there is an equals
sign. A value for an option that has none is refused before the option
is looked at further. -/
def Reading.name (r : Reading) (cs : List Char) : Except Refusal Reading :=
  let name := cs.takeWhile (· ≠ '=')
  match Key.ofName? (String.ofList name) with
  | none => .error .usage
  | some key =>
    match key.takesValue, cs.drop name.length with
    | true, [] => (r.give key).map fun r => { r with waiting := some key }
    | true, _ :: value => do (← r.give key).value key value
    | false, [] =>
      (r.give key).map fun r => { r with options := r.options.setFlag key }
    | false, _ :: _ => .error .usage

/-- Read all arguments. -/
def Reading.arguments (r : Reading) : List String → Except Refusal Options
  | [] => if r.waiting.isNone then .ok r.options else .error .usage
  | arg :: rest =>
    match r.waiting, arg.toList with
    -- An argument that looks like an option is never a value.
    | some _, '-' :: _ :: _ => .error .usage
    | some key, value => do
      let r ← r.value key value
      r.arguments rest
    | none, ['-', '-'] => if rest.isEmpty then .ok r.options else .error .usage
    | none, '-' :: '-' :: cs => do
      let r ← r.name cs
      r.arguments rest
    | none, '-' :: c :: cs => do
      let r ← r.letters (c :: cs)
      r.arguments rest
    | none, _ => .error .usage

/-- The options that arguments ask for. -/
def parse (args : List String) : Except Refusal Options :=
  Reading.arguments {} args

end Options

end Tabulation
