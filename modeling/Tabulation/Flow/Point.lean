/-
Program points and the edges of the interprocedural control-flow graph.

A node is one instruction, a procedure owns nodes, and a flow edge is
one edge of the supergraph, tagged with the kind of flow it carries. A
flow function is chosen by the edge it is asked about.

The numbers of nodes and procedures have no limit here. Where they are
kept in 32 bits, all of this is about programs with fewer than 2^32
nodes, procedures and facts; what happens when the numbers run out is
left out.
-/

namespace Tabulation

/-- One instruction. Any number names one; that there are at most 2^32
is left out. -/
structure Node where
  id : Nat
deriving DecidableEq, Repr, Inhabited

instance : ToString Node := ⟨fun n => "#" ++ toString n.id⟩

/-- One procedure, numbered like the nodes without a limit. -/
structure Proc where
  id : Nat
deriving DecidableEq, Repr, Inhabited

instance : ToString Proc := ⟨fun p => "fn" ++ toString p.id⟩

/-- A question that has no answer: about a node that no procedure owns
or no statement stands at, or about a procedure that was never
declared. -/
inductive Fault where
  | unknownNode (node : Node)
  | undeclaredProc (proc : Proc)
deriving DecidableEq, Repr

/-- The kinds of flow. -/
inductive FlowKind where
  | normal
  | call
  | ret
  | callToReturn
deriving DecidableEq, Repr

/-- One edge of the supergraph. -/
inductive FlowEdge where
  /-- Inside a procedure, from a node to one of its successors. -/
  | normal (node succ : Node)
  /-- From a call site to the start of a callee, binding parameters. -/
  | call (site : Node) (callee : Proc) (start : Node)
  /-- From an exit of a callee back to the return site, binding the
  result. -/
  | ret (site : Node) (callee : Proc) (exit returnSite : Node)
  /-- Past the callees of a call site. -/
  | callToReturn (site returnSite : Node)
deriving DecidableEq, Repr

namespace FlowEdge

/-- The kind of flow an edge carries. -/
def kind : FlowEdge → FlowKind
  | normal .. => .normal
  | call .. => .call
  | ret .. => .ret
  | callToReturn .. => .callToReturn

/-- The node an edge leaves. -/
def source : FlowEdge → Node
  | normal node _ => node
  | call site _ _ => site
  | ret _ _ exit _ => exit
  | callToReturn site _ => site

/-- The node an edge enters. -/
def target : FlowEdge → Node
  | normal _ succ => succ
  | call _ _ start => start
  | ret _ _ _ returnSite => returnSite
  | callToReturn _ returnSite => returnSite

/-- The written form of an edge. -/
def render : FlowEdge → String
  | normal node succ => s!"normal {node} -> {succ}"
  | call site callee start => s!"call {site} -> {callee}@{start}"
  | ret site callee exit returnSite =>
    s!"return {callee}@{exit} -> {returnSite} (call {site})"
  | callToReturn site returnSite => s!"call-to-return {site} -> {returnSite}"

end FlowEdge

end Tabulation
