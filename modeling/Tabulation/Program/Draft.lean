/-
Drafts: programs while they are being written.

Statements are numbered across procedures in the order in which they
are written. A statement falls through to the next one of its
procedure, unless it returns or was redirected by a jump. A procedure
whose last statement does not return gets a return at its end; these
are numbered when the program is built, after all others. A procedure
without statements has no body.

`build` lays out the flow graph as a list of changes in three passes:
all nodes, then exits, fall-through and extra edges procedure by
procedure, and calls last.
-/
import Tabulation.Program.Basic

namespace Tabulation

/-- A procedure being written. -/
structure ProcDraft where
  name : String
  params : List Var
  body : List (Node × Stmt) := []
  /-- Branches and jumps, in the order in which they were added. -/
  extraEdges : List (Node × Node) := []
  /-- Nodes whose fall-through edge a jump replaces. -/
  redirected : List Node := []
deriving Repr, Inhabited

namespace ProcDraft

/-- Whether a return has to be added at the end. -/
def needsReturn (f : ProcDraft) : Bool :=
  match f.body.getLast? with
  | some (_, s) => !s.isReturn
  | none => false

/-- Each statement of a body with the node that follows it. -/
def followed : List (Node × Stmt) → List (Node × Stmt × Option Node)
  | [] => []
  | (n, s) :: rest => (n, s, rest.head?.map Prod.fst) :: followed rest

/-- The changes a statement asks for, calls apart. -/
def wireStmt (f : ProcDraft) :
    Node × Stmt × Option Node → List FlowGraph.Mutation
  | (n, .ret _, _) => [.addExit n]
  | (_, .call .., _) => []
  | (n, _, some next) => if n ∈ f.redirected then [] else [.addEdge n next]
  | (_, _, none) => []

/-- Exits, fall-through edges and extra edges. -/
def wiring (f : ProcDraft) : List FlowGraph.Mutation :=
  (followed f.body).flatMap f.wireStmt ++ f.extraEdges.map fun (a, b) =>
    .addEdge a b

/-- The change a call asks for. A call is never last, since a return
follows. -/
def callStmt : Node × Stmt × Option Node → Option FlowGraph.Mutation
  | (n, .call (.direct p) _ _, some next) => some (.addCall n next [p])
  | (n, .call .indirect _ _, some next) => some (.addCall n next [])
  | _ => none

/-- The calls. -/
def calls (f : ProcDraft) : List FlowGraph.Mutation :=
  (followed f.body).filterMap callStmt

end ProcDraft

/-- A program being written. -/
structure Draft where
  /-- The number of the next node. -/
  next : Nat := 0
  procs : List ProcDraft := []
deriving Repr, Inhabited

namespace Draft

-- ================================================================= writing

/-- Declare a procedure; it gets the next procedure number. -/
def declare (d : Draft) (name : String) (params : List Var) : Proc × Draft :=
  (⟨d.procs.length⟩, { d with procs := d.procs ++ [{ name, params }] })

/-- Change a declared procedure. -/
def edit (d : Draft) (p : Proc) (f : ProcDraft → ProcDraft) :
    Except Fault Draft :=
  if p.id < d.procs.length then .ok { d with procs := d.procs.modify p.id f }
  else .error (.undeclaredProc p)

/-- Append a statement to a procedure. The statement's number is used
up even if the procedure was never declared. -/
def write (d : Draft) (p : Proc) (s : Stmt) : Except Fault Node × Draft :=
  let n : Node := ⟨d.next⟩
  let d := { d with next := d.next + 1 }
  match d.edit p fun f => { f with body := f.body ++ [(n, s)] } with
  | .ok d => (.ok n, d)
  | .error fault => (.error fault, d)

/-- Add an edge beside the fall-through edge. -/
def branch (d : Draft) (p : Proc) (a b : Node) : Except Fault Draft :=
  d.edit p fun f => { f with extraEdges := f.extraEdges ++ [(a, b)] }

/-- Add an edge in place of the fall-through edge. -/
def jump (d : Draft) (p : Proc) (a b : Node) : Except Fault Draft :=
  d.edit p fun f =>
    { f with
      redirected := Listing.add f.redirected a
      extraEdges := f.extraEdges ++ [(a, b)] }

-- ======================================================= steps as values

/-- One step of writing a program. -/
inductive Step where
  | declare (name : String) (params : List Var)
  | write (p : Proc) (s : Stmt)
  | branch (p : Proc) (a b : Node)
  | jump (p : Proc) (a b : Node)
deriving DecidableEq, Repr

/-- What a step answers: the new procedure, the new node, or nothing. -/
inductive Reply where
  | proc (p : Proc)
  | node (n : Node)
  | done
deriving DecidableEq, Repr

/-- Carry out a step. -/
def perform (d : Draft) : Step → Except Fault Reply × Draft
  | .declare name params =>
    let (p, d) := d.declare name params
    (.ok (.proc p), d)
  | .write p s =>
    let (answer, d) := d.write p s
    (answer.map Reply.node, d)
  | .branch p a b =>
    match d.branch p a b with
    | .ok d => (.ok .done, d)
    | .error fault => (.error fault, d)
  | .jump p a b =>
    match d.jump p a b with
    | .ok d => (.ok .done, d)
    | .error fault => (.error fault, d)

/-- Carry out steps one after the other, and list their answers. -/
def performAll (d : Draft) : List Step → List (Except Fault Reply) × Draft
  | [] => ([], d)
  | step :: rest =>
    let (answer, d) := d.perform step
    let (answers, d) := d.performAll rest
    (answer :: answers, d)

/-- The draft that a sequence of steps leaves. -/
def ofSteps (steps : List Step) : Draft := (performAll {} steps).2

-- ================================================================ building

/-- Add the missing returns, numbered from `next` on. -/
def sealFrom (next : Nat) : List ProcDraft → List ProcDraft
  | [] => []
  | f :: rest =>
    if f.needsReturn then
      { f with body := f.body ++ [(⟨next⟩, .ret none)] } ::
        sealFrom (next + 1) rest
    else f :: sealFrom next rest

/-- The procedures with their numbers, every body ending in a return. -/
def sealed (d : Draft) : List (ProcDraft × Proc) :=
  (sealFrom d.next d.procs).zipIdx.map fun (f, i) => (f, ⟨i⟩)

/-- The registration of one procedure and its nodes. -/
def registration : ProcDraft × Proc → List FlowGraph.Mutation
  | (f, p) => .addProc p :: f.body.map fun (n, _) => .addNode p n

/-- All changes that lay out the flow graph, in order. -/
def layout (d : Draft) : List FlowGraph.Mutation :=
  d.sealed.flatMap registration ++
    d.sealed.flatMap (fun (f, _) => f.wiring) ++
    d.sealed.flatMap (fun (f, _) => f.calls)

/-- The program a draft describes. -/
def build (d : Draft) : Program where
  graph := FlowGraph.mutateAll {} d.layout
  stmts := d.sealed.foldl (fun t (f, _) =>
      f.body.foldl (fun t (n, s) => t.insert n s) t) .empty
  names := d.sealed.foldl (fun t (f, p) => t.insert p f.name) .empty
  formals := d.sealed.foldl (fun t (f, p) => t.insert p f.params) .empty

end Draft

end Tabulation
