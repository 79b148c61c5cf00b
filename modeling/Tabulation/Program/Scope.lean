/-
Drafts whose control flow stays inside procedures.
-/
import Tabulation.Program.Draft

namespace Tabulation

namespace ProcDraft

/-- The nodes of the statements written. -/
def nodes (f : ProcDraft) : List Node := f.body.map Prod.fst

end ProcDraft

namespace Draft

/-- Every branch and jump connects statements of the procedure it was
made for, the return at its end included that is added when the draft
is built. -/
def IsScoped (d : Draft) : Prop :=
  ∀ fp ∈ d.sealed, ∀ edge ∈ fp.1.extraEdges,
    edge.1 ∈ fp.1.nodes ∧ edge.2 ∈ fp.1.nodes

end Draft

end Tabulation
