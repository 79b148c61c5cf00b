/-
Growth of the call graph while a solver looks at it.

A flow function may ask for a further target at a call site. What a
solver sees of the graph before such a request and after it differs at
one place only: the call site may have one more callee. `Icfg.GrowsTo`
is that relation, taken over any number of requests, and every fact
about a run in progress is stated so that it survives it.

A setup is steady if its requests have no other effect on what the
solver sees. That is no restriction on problems that ask for nothing,
whatever the view; and under the plain view of a flow graph every
problem is steady.
-/
import Tabulation.Solver.State

namespace Tabulation

namespace Icfg

variable {I J K : Icfg}

/-- `J` is `I` with further callees at its call sites. Everything else
that a solver can see is the same. -/
structure GrowsTo (I J : Icfg) : Prop where
  procOf? : J.procOf? = I.procOf?
  successors : J.successors = I.successors
  start? : J.start? = I.start?
  isExit? : J.isExit? = I.isExit?
  isCall : J.isCall = I.isCall
  callsWithin : J.callsWithin = I.callsWithin
  returnSite? : J.returnSite? = I.returnSite?
  callees : ∀ {c : Node} {p : Proc}, p ∈ I.callees c → p ∈ J.callees c
  revision : I.revision ≤ J.revision
  /-- Further callees show in the revision. -/
  settled : J.revision = I.revision → J.callees = I.callees

theorem GrowsTo.refl (I : Icfg) : I.GrowsTo I :=
  ⟨rfl, rfl, rfl, rfl, rfl, rfl, rfl, id, Nat.le_refl _, fun _ => rfl⟩

/-- Growth on growth is growth. That the revisions are the same in
the end means that they were the same all the way. -/
theorem GrowsTo.trans (h : I.GrowsTo J) (h' : J.GrowsTo K) : I.GrowsTo K where
  procOf? := h'.procOf?.trans h.procOf?
  successors := h'.successors.trans h.successors
  start? := h'.start?.trans h.start?
  isExit? := h'.isExit?.trans h.isExit?
  isCall := h'.isCall.trans h.isCall
  callsWithin := h'.callsWithin.trans h.callsWithin
  returnSite? := h'.returnSite?.trans h.returnSite?
  callees := fun hp => h'.callees (h.callees hp)
  revision := Nat.le_trans h.revision h'.revision
  settled := by
    intro heq
    have hJ : J.revision = I.revision :=
      Nat.le_antisymm (heq ▸ h'.revision) h.revision
    exact (h'.settled (heq.trans hJ.symm)).trans (h.settled hJ)

/-- Starts stay starts. -/
theorem GrowsTo.isStart? (h : I.GrowsTo J) (n : Node) :
    J.isStart? n = I.isStart? n := by
  unfold Icfg.isStart?
  rw [h.procOf?, h.start?]

-- ================================================== crossing procedures

/-- The call at `c` enters the procedure `g`, which starts at `s`. A
callee without a start is not entered. -/
structure Enters (I : Icfg) (c : Node) (g : Proc) (s : Node) : Prop where
  isCall : I.isCall c = true
  callee : g ∈ I.callees c
  start : I.start? g = some s

/-- Control leaves the procedure `g` at `x`. A call is not an exit
here, even if the graph lists it as one. -/
structure Leaves (I : Icfg) (x : Node) (g : Proc) : Prop where
  notCall : I.isCall x = false
  isExit : I.isExit? x = some true
  procOf : I.procOf? x = some g

/-- A call that enters a procedure does so in a graph that has grown. -/
theorem GrowsTo.enters (h : I.GrowsTo J) {c s : Node} {g : Proc}
    (he : I.Enters c g s) : J.Enters c g s where
  isCall := by rw [h.isCall]; exact he.isCall
  callee := h.callees he.callee
  start := by rw [h.start?]; exact he.start

/-- Procedures are left at the same nodes. -/
theorem GrowsTo.leaves_iff (h : I.GrowsTo J) {x : Node} {g : Proc} :
    J.Leaves x g ↔ I.Leaves x g := by
  constructor
  · intro hx
    exact ⟨h.isCall ▸ hx.notCall, h.isExit? ▸ hx.isExit, h.procOf? ▸ hx.procOf⟩
  · intro hx
    exact ⟨h.isCall ▸ hx.notCall, h.isExit? ▸ hx.isExit, h.procOf? ▸ hx.procOf⟩

end Icfg

-- ======================================================= the plain view

namespace FlowGraph

/-- A target that is there is not added again. -/
theorem resolve_of_mem {g : FlowGraph} {c : Node} {p : Proc}
    (hp : p ∈ g.callees c) : g.resolve c p = g := by
  simp [resolve, resolveCall, hp]

/-- A new target is added at the end, and the revision moves on. -/
theorem resolve_of_not_mem {g : FlowGraph} {c : Node} {p : Proc}
    (hp : p ∉ g.callees c) :
    g.resolve c p =
      { g with
        calleeIndex := g.calleeIndex.update c [] (· ++ [p])
        callerIndex := g.callerIndex.update p [] (· ++ [c])
        revision := g.revision + 1 } := by
  simp [resolve, resolveCall, hp]

/-- A further target is added to the targets that are there, and no
other call site is touched. -/
theorem callees_resolve (g : FlowGraph) (c c' : Node) (p : Proc) :
    (g.resolve c p).callees c' =
      if c = c' then Listing.add (g.callees c) p else g.callees c' := by
  by_cases hp : p ∈ g.callees c
  · rw [resolve_of_mem hp, Listing.add, if_pos hp]
    split
    next hc => rw [hc]
    next => rfl
  · rw [resolve_of_not_mem hp, Listing.add, if_neg hp]
    exact Table.getD_update g.calleeIndex c c' [] (· ++ [p])

/-- The plain view of a graph shows a resolved call as growth. The
revision moves on just if the target is new. -/
theorem icfg_growsTo_resolve (g : FlowGraph) (c : Node) (p : Proc) :
    g.icfg.GrowsTo (g.resolve c p).icfg := by
  have hcallees : ∀ {c' : Node} {q : Proc},
      q ∈ g.callees c' → q ∈ (g.resolve c p).callees c' := by
    intro c' q hq
    rw [callees_resolve]
    split
    next hc => exact Listing.mem_add.mpr (Or.inl (hc ▸ hq))
    next => exact hq
  by_cases hp : p ∈ g.callees c
  · rw [resolve_of_mem hp]
    exact Icfg.GrowsTo.refl _
  · rw [resolve_of_not_mem hp] at hcallees ⊢
    refine ⟨rfl, rfl, rfl, rfl, rfl, rfl, rfl, hcallees, Nat.le_succ _,
        fun heq => ?_⟩
    exact absurd heq (Nat.succ_ne_self _)

end FlowGraph

-- ======================================================== steady setups

namespace Setup

variable {D W L : Type}

/-- Requests let the solver see further callees, and change nothing
else. It is a property of the view as much as of the requests. -/
def IsSteady (S : Setup D W L) : Prop :=
  ∀ k edge d c p, Request.resolve c p ∈ S.problem.requests k edge d →
    ∀ g : FlowGraph, (S.view g).GrowsTo (S.view (g.resolve c p))

/-- A problem that asks for nothing is steady under every view. -/
theorem isSteady_of_isPure {S : Setup D W L} (h : S.problem.IsPure) :
    S.IsSteady := by
  intro k edge d c p hmem
  rw [h k edge d] at hmem
  exact absurd hmem List.not_mem_nil

/-- Every problem is steady under the plain view. -/
theorem isSteady_of_view_eq {S : Setup D W L} (h : S.view = FlowGraph.icfg) :
    S.IsSteady := by
  intro k edge d c p _ g
  rw [h]
  exact g.icfg_growsTo_resolve c p

end Setup

end Tabulation
